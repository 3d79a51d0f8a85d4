import Uthreads.Contexts

namespace Uthreads.Interleavings

open Program SignalMachine AtomicMachine Tables Source Api Effects Tallies Configs Moves Runs
open Discipline Sections Simulation Startup Stores Contexts

variable {w : Width} {m m' : Machine Scheduler Fn Call} {ls : List (Label Call)} {masked : Bool}
  {q : Int32}

/-- None of the operations of a control has done some and not all of its writes:
it has written nothing, or what is left of it changes nothing any more. -/
inductive Whole : Ctl Scheduler Fn Call → Prop
  | user : Whole .user
  | call {c : Option Call} {d : Bool} {p : Code Int}
      (h : d = false ∨ ∃ v, ∀ s, p.run s = .ret v s) : Whole (.call c d p)
  | handler {d mask : Bool} {p : Code Unit} {below : Ctl Scheduler Fn Call}
      (h : d = false ∨ ∀ s, p.run s = .ret () s) (hb : Whole below) :
      Whole (.handler d p mask below)

theorem whole_of_idle {ctl : Ctl Scheduler Fn Call} {xs : List (Option Call × Int)}
    (h : Idle (uthreads w) Configured ctl xs) : Whole ctl := by
  induction h with
  | user => exact .user
  | opening => exact .call (.inl rfl)
  | answered h => exact .call (.inr ⟨_, h.run⟩)
  | handler h hb ih => exact .handler (.inr h.run) ih

/-- A run of the machine, seen from user code, and the run in which each operation
is atomic. An answer that is decided may not have reached its thread yet. -/
structure Agrees (m : Machine Scheduler Fn Call) (a : Atomic Scheduler Fn Call) : Prop where
  data : m.data = a.data
  cur : m.cur = a.cur
  answers : a.log m.cur = m.log m.cur
  others : ∀ i, ∃ xs, xs.length ≤ 1 ∧ a.log i = m.log i ++ xs

structure Serial (w : Width) (q : Int32) (m : Machine Scheduler Fn Call) : Prop where
  whole : ∀ m', m.step (uthreads w) .deliver = some m' → Whole m.ctl ∧
    ∀ i c n ctl, m.env i = some c → c.point = .resume n ctl → Whole ctl
  user : m.ctl = .user → ∃ es a,
    (Atomic.start (initial w q) 0).steps (uthreads w) es = some a ∧ Agrees m a
  exited : ∀ code, m.ctl = .exited code → ∃ es a e,
    (Atomic.start (initial w q) 0).steps (uthreads w) es = some a ∧
      perform (uthreads w) e a.data = .exit code m.data ∧
      ∀ i, ∃ xs, xs.length ≤ 1 ∧ a.log i = m.log i ++ xs
  no_fault : ∀ why, m.ctl ≠ .faulted why

theorem serial_of_booting {v : Int} {s : Scheduler}
    (h : Booting (uthreads w) Configured masked s v m) : Serial w q m := by
  obtain ⟨hf, -, d, p, hctl, -, -⟩ := h
  refine ⟨fun m' hs => ?_, by simp [hctl], by simp [hctl], by simp [hctl]⟩
  rcases Machine.step_cases hs with ⟨he, -⟩ | ⟨-, -, hp, -⟩ | ⟨he, -⟩ | ⟨c, he, -⟩
  · exact absurd he (by simp)
  · simp [hf.pending] at hp
  · exact absurd he (by simp)
  · exact absurd he (by simp)

theorem whole_of_deliver (h : Follows w q m) (hs : m.step (uthreads w) .deliver = some m') :
    Whole m.ctl := by
  obtain ⟨-, es, a, -, hp⟩ := h
  rcases Machine.step_cases hs with ⟨he, -⟩ | ⟨-, hmask, -, hrun, -⟩ | ⟨he, -⟩ | ⟨c, he, -⟩
  · exact absurd he (by simp)
  · cases hp with
    | settled xs hdata hmid hnone hidle => exact whole_of_idle hidle
    | call hctl hbusy => exact absurd (hbusy.masked.symm.trans hmask) (by simp)
    | tick hctl hbelow hbusy => exact absurd (hbusy.masked.symm.trans hmask) (by simp)
    | exited hctl => simp [hctl, Machine.Running] at hrun
  · exact absurd he (by simp)
  · exact absurd he (by simp)

theorem at_user (hq : 0 ≤ q.toInt) (h : Follows w q m) (hu : m.ctl = .user) : ∃ es a,
    (Atomic.start (initial w q) 0).steps (uthreads w) es = some a ∧ Contexts.Owned a ∧
      m.data = a.data ∧ Mid (uthreads w) Configured m a a.env [] := by
  obtain ⟨-, es, a, hes, ho, hp⟩ := h.owned hq
  cases hp with
  | settled xs hdata hmid hnone hidle =>
      rw [hu] at hidle
      cases hidle
      exact ⟨es, a, hes, ho, hdata, hmid⟩
  | call hctl => simp [hctl] at hu
  | tick hctl => simp [hctl] at hu
  | exited hctl => simp [hctl] at hu

theorem serial_of_follows (hq : 0 ≤ q.toInt) (h : Follows w q m) : Serial w q m where
  whole := by
    intro m' hs
    refine ⟨whole_of_deliver h hs, fun i c n ctl hi hp => ?_⟩
    obtain ⟨xs, hidle⟩ := h.1.shelved i c n ctl hi hp
    exact whole_of_idle hidle
  user := by
    intro hu
    obtain ⟨es, a, hes, -, hdata, hmid⟩ := at_user hq h hu
    refine ⟨es, a, hes, hdata, hmid.cur.symm, ?_, fun i => ?_⟩
    · rw [hmid.log, List.append_nil]
    · obtain ⟨ys, hlen, hlog, -⟩ := hmid.parked i
      exact ⟨ys, hlen, hlog⟩
  exited := by
    intro code hx
    obtain ⟨-, es, a, hes, hp⟩ := h
    cases hp with
    | settled xs hdata hmid hnone hidle =>
        rw [hx] at hidle
        cases hidle
    | call hctl => simp [hctl] at hx
    | tick hctl => simp [hctl] at hx
    | exited hctl hexit hlog =>
        rw [hctl, Ctl.exited.injEq] at hx
        exact ⟨es, a, _, hes, hx ▸ hexit, hlog⟩
  no_fault := by
    intro why hf
    obtain ⟨-, es, a, hes, hp⟩ := h
    cases hp with
    | settled xs hdata hmid hnone hidle =>
        rw [hf] at hidle
        cases hidle
    | call hctl => simp [hctl] at hf
    | tick hctl => simp [hctl] at hf
    | exited hctl => simp [hctl] at hf

/-- The calls are atomic: wherever the timer expires, change_thread is entered
between operations, and the run is one with ticks between complete calls. -/
theorem calls_atomic (hq : 0 ≤ q.toInt)
    (h : (start w masked q).steps (uthreads w) ls = some m) : Serial w q m := by
  rcases start_follows hq h with hb | hf
  · exact serial_of_booting hb
  · exact serial_of_follows hq hf

def execs (n : Nat) : List (Label Call) := List.replicate n .exec

def inUser (m : Machine Scheduler Fn Call) : Bool :=
  match m.ctl with
  | .user => true
  | _ => false

theorem inUser_iff : inUser m = true ↔ m.ctl = .user := by
  rw [inUser]
  cases m.ctl <;> simp

def spawnExpire : List (Label Call) :=
  execs 25 ++ [.call (.spawn (some 7))] ++ execs 5 ++ [.expire] ++ execs 19 ++ [.deliver] ++ execs 39

theorem calls_atomic_spawned : ∃ m es a,
    (start .lp64 false 1000).steps (uthreads .lp64) spawnExpire = some m ∧
      (Atomic.start (initial .lp64 1000) 0).steps (uthreads .lp64) es = some a ∧ Agrees m a := by
  obtain ⟨m, hm, hu⟩ : ∃ m, (start .lp64 false 1000).steps (uthreads .lp64) spawnExpire = some m ∧
      inUser m = true := (Option.any_eq_true _ _).mp (by decide +kernel)
  obtain ⟨es, a, hes, ha⟩ := (calls_atomic (by decide) hm).user (inUser_iff.mp hu)
  exact ⟨m, es, a, hm, hes, ha⟩

/-- What a saved context does once it is resumed: a waiting uthread_block or
uthread_sleep returns 0, a waiting change_thread returns, and nothing is changed. -/
inductive Resumes : Ctl Scheduler Fn Call → Prop
  | call {c : Call} {d : Bool} {p : Code Int} (hc : Waits c) (h : ∀ s, p.run s = .ret 0 s) :
      Resumes (.call (some c) d p)
  | tick {d mask : Bool} {p : Code Unit} {below : Ctl Scheduler Fn Call}
      (h : ∀ s, p.run s = .ret () s) : Resumes (.handler d p mask below)

/-- In the run ls the context of object i was made in a call of uthread_spawn(e), which
goes on to return the id of the thread that has this object. -/
def Spawned (w : Width) (masked : Bool) (q : Int32) (ls : List (Label Call)) (i e : Nat) : Prop :=
  ∃ ls₁ ls₂ m d k, ∃ (tid : Nat) (s : Scheduler), ls = ls₁ ++ .exec :: ls₂ ∧
    (start w masked q).steps (uthreads w) ls₁ = some m ∧
    m.ctl = .call (some (.spawn (some e))) d (.makecontext i e false k) ∧
    k.run m.data = .ret (tid : Int) s ∧ idOf s tid = some i

def Untouched (w : Width) (masked : Bool) (q : Int32) (ls : List (Label Call))
    (m : Machine Scheduler Fn Call) (i : Nat) : Prop :=
  i ∉ m.ran ∧ ∃ e, Spawned w masked q ls i e ∧ m.env i = some ⟨i, .entry e, false, []⟩

def Parked (m : Machine Scheduler Fn Call) (i : Nat) : Prop :=
  i ∈ m.ran ∧ ∃ n ctl acts, m.lastSave i = some n ∧ n ∉ m.resumed ∧
    m.env i = some ⟨i, .resume n ctl, true, acts⟩ ∧ Resumes ctl

/-- After the run ls, in user code, the contexts are those of the threads in the tables;
no context is resumed twice. -/
structure Intact (w : Width) (masked : Bool) (q : Int32) (ls : List (Label Call))
    (m : Machine Scheduler Fn Call) : Prop where
  running : m.ctl = .user → idOf m.data m.data.runningThreadTid = some m.cur
  getTid : m.ctl = .user → ∀ v, (some .getTid, v) ∈ m.log m.cur → v = m.data.runningThreadTid
  waiting : m.ctl = .user → ∀ tid i, idOf m.data tid = some i → tid ≠ m.data.runningThreadTid →
    Untouched w masked q ls m i ∨ Parked m i
  once : m.resumed.Nodup

theorem Spawned.concat {i e : Nat} (h : Spawned w masked q ls i e) (l : Label Call) :
    Spawned w masked q (ls ++ [l]) i e := by
  obtain ⟨ls₁, ls₂, m, d, k, tid, s, rfl, h⟩ := h
  exact ⟨ls₁, ls₂ ++ [l], m, d, k, tid, s, by simp, h⟩

theorem spawn_of_makecontext (hq : 0 ≤ q.toInt) (hf : Follows w q m) {c : Option Call} {d mask : Bool}
    {i e : Nat} {k : Code Int} (hctl : m.ctl = .call c d (.makecontext i e mask k)) :
    c = some (.spawn (some e)) ∧ mask = false ∧
      ∃ (tid : Nat) (s : Scheduler), k.run m.data = .ret (tid : Int) s ∧ idOf s tid = some i := by
  obtain ⟨-, es, a, -, ho, hp⟩ := hf.owned hq
  cases hp with
  | settled xs hdata hmid hnone hidle =>
      rw [hctl] at hidle
      cases hidle with
      | opening h => cases h
      | answered h => cases h
  | @call c' d' l p hctl' hbusy =>
      obtain ⟨rfl, rfl, rfl⟩ := Ctl.call.inj (hctl'.symm.trans hctl)
      obtain ⟨-, -, hsub, -⟩ := hbusy.stored
      obtain ⟨rfl, rfl, rfl, hfree⟩ := spawn_of_make ho.inv (hsub _ List.mem_cons_self)
      obtain ⟨tid, s, hrun, hid⟩ := run_uthreadSpawn_free ho.inv e hfree
      exact ⟨rfl, rfl, tid, s, hbusy.run.symm.trans hrun, hid⟩
  | tick hctl' => simp [hctl'] at hctl
  | exited hctl' => simp [hctl'] at hctl

theorem no_makecontext_of_handler (hq : 0 ≤ q.toInt) (hf : Follows w q m) {d mask mask' : Bool}
    {i e : Nat} {k : Code Unit} {below : Ctl Scheduler Fn Call} :
    m.ctl ≠ .handler d (.makecontext i e mask k) mask' below := by
  intro hctl
  obtain ⟨-, es, a, -, ho, hp⟩ := hf.owned hq
  cases hp with
  | settled xs hdata hmid hnone hidle =>
      rw [hctl] at hidle
      cases hidle with
      | handler h => cases h
  | call hctl' => simp [hctl'] at hctl
  | tick hctl' hbelow hbusy =>
      obtain ⟨-, rfl, -, -⟩ := Ctl.handler.inj (hctl'.symm.trans hctl)
      obtain ⟨-, -, hsub, -⟩ := hbusy.stored
      obtain ⟨t, ht, -, -⟩ := exists_running_of_id ho.inv ho.cur
      obtain ⟨p, hw, -⟩ := saves_sigvtalrm w ho.inv.config ht
      have hm := hsub _ List.mem_cons_self
      simp [uthreads, hw] at hm
  | exited hctl' => simp [hctl'] at hctl

/-- The entry points recorded in a run, but for main's, are those of its spawns. -/
theorem spawned_of_entries (hq : 0 ≤ q.toInt)
    (h : (start w masked q).steps (uthreads w) ls = some m) {i e : Nat}
    (he : m.entries i = some e) : i = 0 ∨ Spawned w masked q ls i e := by
  induction ls using List.reverseRecOn generalizing m with
  | nil =>
      cases h
      simp [start, Machine.boot] at he
  | append_singleton ls l ih =>
      obtain ⟨m₁, h₁, hs⟩ := Machine.steps_concat h
      have hold : m₁.entries i = some e → i = 0 ∨ Spawned w masked q (ls ++ [l]) i e :=
        fun he => (ih h₁ he).imp_right fun hsp => hsp.concat l
      rcases start_follows hq h₁ with hb | hf
      · rcases hb.step hs with hb' | hst
        · exact .inl (hb'.1.made i e he)
        · exact .inl (hst.1.made i e he)
      rcases Machine.step_cases hs with ⟨-, -, -, rfl⟩ | ⟨-, -, -, -, rfl⟩ |
        ⟨rfl, -, m₂, hexec, rfl⟩ | ⟨c, -, -, -, rfl⟩
      · exact hold he
      · exact hold he
      · rcases Machine.exec_entries hexec with heq | ⟨j, e', mask, heq, ⟨c, d, k, hctl⟩ | hhandler⟩
        · exact hold (heq ▸ he)
        · simp only [heq, Function.update_apply] at he
          split at he
          · obtain rfl := Option.some.inj he
            subst ‹i = j›
            obtain ⟨rfl, rfl, tid, s, hrun, hid⟩ := spawn_of_makecontext hq hf hctl
            exact .inr ⟨ls, [], m₁, d, k, tid, s, rfl, h₁, hctl, hrun, hid⟩
          · exact hold he
        · obtain ⟨d, k, mask', below, hctl⟩ := hhandler
          exact absurd hctl (no_makecontext_of_handler hq hf)
      · exact hold he

theorem main_ran {S : Sys Scheduler Fn Call} {s : Scheduler} {v : Int}
    {a : Atomic Scheduler Fn Call} {es : List (Event Call)}
    (h : (Atomic.start s v).steps S es = some a) : 0 ∈ a.ran := by
  refine Atomic.steps_induction (P := fun a => 0 ∈ a.ran) ?_ h (List.mem_singleton_self 0)
  intro a e a' ha hs
  rcases Atomic.step_cases hs with ⟨v, -, -, -, hran, -⟩ | ⟨i, s, -, hland⟩
  · exact hran ▸ ha
  · obtain ⟨tok, -, -, -, hran, -⟩ := Atomic.land_cases hland
    exact hran ▸ List.mem_cons_of_mem i ha

theorem resumes_of_returns {tok : Token Scheduler Fn Call} {xs : List (Option Call × Int)} {i : Nat}
    (hi : i ∈ m.ran) (hh : Holds (uthreads w) Configured m i tok xs) (hr : Returns tok) :
    Parked m i := by
  cases tok with
  | entry e => exact hr.elim
  | call c p =>
      obtain ⟨-, d, v, -, n, acts, henv, hlast, hn⟩ := hh
      exact ⟨hi, n, _, acts, hlast, hn, henv, .call hr.1 hr.2⟩
  | tick p =>
      obtain ⟨d, mask, below, -, -, n, acts, henv, hlast, hn⟩ := hh
      exact ⟨hi, n, _, acts, hlast, hn, henv, .tick hr⟩

theorem intact_of_follows (hq : 0 ≤ q.toInt)
    (hls : (start w masked q).steps (uthreads w) ls = some m) (h : Follows w q m) :
    Intact w masked q ls m where
  running := by
    intro hu
    obtain ⟨es, a, -, ho, hdata, hmid⟩ := at_user hq h hu
    rw [hdata, ← hmid.cur]
    exact ho.cur
  getTid := by
    intro hu v hv
    obtain ⟨es, a, -, ho, hdata, hmid⟩ := at_user hq h hu
    have hlog := hmid.log
    rw [List.append_nil] at hlog
    rw [hdata]
    apply ho.named m.cur v a.data.runningThreadTid (hlog ▸ hv)
    rw [← hmid.cur]
    exact ho.cur
  waiting := by
    intro hu tid i hid hne
    obtain ⟨es, a, hes, ho, hdata, hmid⟩ := at_user hq h hu
    rw [hdata] at hid hne
    obtain ⟨tok, htok⟩ := Option.ne_none_iff_exists'.mp (ho.waiting tid i hid hne)
    obtain ⟨ys, -, -, hholds⟩ := hmid.parked i
    have hh := hholds tok htok
    rcases ho.kept i tok htok with ⟨hr, hran⟩ | ⟨⟨e, rfl⟩, hran⟩
    · exact .inr (resumes_of_returns (hmid.ran ▸ hran) hh hr)
    · obtain ⟨-, henv, hentry⟩ := hh
      have hi : i ≠ 0 := by
        rintro rfl
        exact hran (main_ran hes)
      have hspawned := (spawned_of_entries hq hls hentry).resolve_left hi
      exact .inl ⟨hmid.ran ▸ hran, e, hspawned, henv⟩
  once := h.1.resumed

theorem intact_of_booting {v : Int} {s : Scheduler}
    (h : Booting (uthreads w) Configured masked s v m) : Intact w masked q ls m := by
  obtain ⟨hf, -, d, p, hctl, -, -⟩ := h
  refine ⟨by simp [hctl], by simp [hctl], by simp [hctl], ?_⟩
  rw [hf.resumed]
  exact List.nodup_nil

theorem contexts_intact (hq : 0 ≤ q.toInt)
    (h : (start w masked q).steps (uthreads w) ls = some m) : Intact w masked q ls m := by
  rcases start_follows hq h with hb | hf
  · exact intact_of_booting hb
  · exact intact_of_follows hq h hf

def spawnSleep : List (Label Call) :=
  execs 25 ++ [.call (.spawn (some 7))] ++ execs 27 ++ [.call (.spawn (some 8))] ++ execs 30 ++
    [.call (.spawn (some 9))] ++ execs 33 ++ [.expire, .deliver] ++ execs 39 ++
    [.call (.sleep 5)] ++ execs 48 ++ [.call .getTid] ++ execs 6

def atEntry (m : Machine Scheduler Fn Call) (i e : Nat) : Bool :=
  match m.env i with
  | some ⟨_, .entry e', _, _⟩ => e' == e
  | _ => false

def sleepsAndWaits (m : Machine Scheduler Fn Call) : Bool :=
  inUser m && atEntry m 3 9 && decide (m.data.runningThreadTid = 2 ∧ idOf m.data 0 = some 0 ∧
    idOf m.data 1 = some 1 ∧ idOf m.data 3 = some 3 ∧ 3 ∉ m.ran ∧ 0 ∈ m.ran ∧ 1 ∈ m.ran ∧
    (some .getTid, 2) ∈ m.log m.cur)

theorem point_of_atEntry {i e : Nat} {c : Ctx Scheduler Fn Call} (h : atEntry m i e = true)
    (hc : m.env i = some c) : c.point = .entry e := by
  simp only [atEntry, hc] at h
  split at h
  · rename_i heq
    obtain rfl := Option.some.inj heq
    exact congrArg Point.entry (beq_iff_eq.mp h)
  · cases h

theorem contexts_intact_slept : ∃ m,
    (start .lp64 false 1000).steps (uthreads .lp64) spawnSleep = some m ∧
      idOf m.data 2 = some m.cur ∧ (some .getTid, 2) ∈ m.log m.cur ∧ Parked m 0 ∧ Parked m 1 ∧
      Spawned .lp64 false 1000 spawnSleep 3 9 ∧ m.env 3 = some ⟨3, .entry 9, false, []⟩ := by
  obtain ⟨m, hm, hcheck⟩ : ∃ m, (start .lp64 false 1000).steps (uthreads .lp64) spawnSleep = some m ∧
      sleepsAndWaits m = true := (Option.any_eq_true _ _).mp (by decide +kernel)
  simp only [sleepsAndWaits, Bool.and_eq_true, decide_eq_true_eq] at hcheck
  obtain ⟨⟨hu, hentry⟩, hrun, h0, h1, h3, hran3, hran0, hran1, hlog⟩ := hcheck
  obtain ⟨hrunning, -, hwaiting, -⟩ := contexts_intact (by decide) hm
  have hu := inUser_iff.mp hu
  have hself := hrunning hu
  rw [hrun] at hself
  have hpark : ∀ {tid i : Nat}, idOf m.data tid = some i → tid ≠ 2 → i ∈ m.ran → Parked m i :=
    fun hid hne hran => (hwaiting hu _ _ hid (by rwa [hrun])).resolve_left fun h => h.1 hran
  obtain ⟨-, e, hspawned, henv⟩ := (hwaiting hu 3 3 h3 (by rw [hrun]; decide)).resolve_right
    fun h => hran3 h.1
  obtain rfl := Point.entry.inj (point_of_atEntry hentry henv)
  exact ⟨m, hm, hself, hlog, hpark h0 (by decide) hran0, hpark h1 (by decide) hran1, hspawned, henv⟩

end Uthreads.Interleavings
