import Uthreads.Activations
import Uthreads.Expiries
import Uthreads.Interleavings
import Uthreads.Masks

namespace Uthreads.Preemption

open Program SignalMachine AtomicMachine Tables Source Api Moves Runs
open Discipline Sections Simulation Startup Contexts Interleavings
open Activations Expiries Masks

variable {w : Width} {m m' m₀ m₁ m₂ : Machine Scheduler Fn Call} {ls : List (Label Call)}
  {masked : Bool} {q : Int32} {t : Nat}

theorem opening_of_not_forgets (w : Width) {c : Call} (hc : ¬ Forgets c) :
    Opening Configured False (api w c) := (opening_api w c).mono hc

theorem open_of_run (hq : 0 ≤ q.toInt) (hls : ∀ c, .call c ∈ ls → ¬ Forgets c)
    (h : (start w false q).steps (uthreads w) ls = some m) :
    Booting (uthreads w) Configured false (initial w q) 0 m ∨ Open Configured m := by
  have hrun : (uthreadInit w q).run .blank = .ret 0 (initial w q) := by
    rw [run_uthreadInit, if_neg (Int.not_lt.mpr hq)]
  refine Machine.steps_induction_of_mem (P := fun m =>
    Booting (uthreads w) Configured false (initial w q) 0 m ∨ Open Configured m) ?_ h
    (.inl (booting_boot (boots_uthreadInit w hq) hrun rfl))
  rintro m l hl m' (hm | hm) hs
  · exact (hm.step hs).imp_right fun hstarted => Open.started hstarted rfl
  · refine .inr (hm.step (section_sigvtalrm w) (fun c hc => ?_) hs)
    exact opening_of_not_forgets w (hls c (hc ▸ hl))

structure Rejected (m : Machine Scheduler Fn Call) : Prop where
  data : m.data = .blank
  masked : m.masked = false
  pending : m.pending = none
  ctl : m.ctl = .user ∨ ∃ d p, m.ctl = .call none d p ∧ Quiet Configured (-1) p

theorem rejected_start (hq : q.toInt < 0) : Rejected (start w false q) := by
  refine ⟨rfl, rfl, rfl, .inr ⟨false, uthreadInit w q, rfl, ?_⟩⟩
  refine .note ?_
  rw [if_pos hq]
  exact (quiet_handleErrorLibrary _).bind (.note .pure)

theorem Rejected.step {l : Label Call} (hl : ∀ c, l ≠ .call c) (h : Rejected m)
    (hs : m.step (uthreads w) l = some m') : Rejected m' := by
  obtain ⟨hdata, hmasked, hpending, hctl⟩ := h
  rcases Machine.step_cases hs with ⟨-, harmed, -⟩ | ⟨-, -, hpend, -⟩ | ⟨-, -, m₁, hexec, rfl⟩ |
    ⟨c, hc, -⟩
  · rw [hdata] at harmed
    cases harmed
  · simp [hpending] at hpend
  · rcases hctl with hu | ⟨d, p, hp, hquiet⟩
    · simp [Machine.exec, hu] at hexec
    · simp only [Machine.exec, hp, Option.some.injEq] at hexec
      subst hexec
      cases hquiet with
      | pure => exact ⟨hdata, hmasked, hpending, .inl rfl⟩
      | get hk => exact ⟨hdata, hmasked, hpending, .inr ⟨d, _, rfl, hk _⟩⟩
      | unmask hsel hk =>
          refine ⟨hdata, ?_, hpending, .inr ⟨d, _, rfl, hk⟩⟩
          simp [Machine.node, hmasked]
      | @note n k hk =>
          rw [Machine.node]
          cases n <;> exact ⟨hdata, hmasked, hpending, .inr ⟨d, _, rfl, hk⟩⟩
  · exact absurd hc (hl c)

/-- User code runs with the signal unblocked, in a run that makes no call that
forgets to unblock it. After a failed uthread_init a run makes no calls. -/
theorem user_unmasked (hls : ∀ c, .call c ∈ ls → ¬ Forgets c ∧ 0 ≤ q.toInt)
    (h : (start w false q).steps (uthreads w) ls = some m) (hu : m.ctl = .user) :
    m.masked = false := by
  by_cases hq : 0 ≤ q.toInt
  · rcases open_of_run hq (fun c hc => (hls c hc).1) h with ⟨-, -, d, p, hctl, -⟩ | hopen
    · simp [hctl] at hu
    · exact hopen.user hu
  · refine (Machine.steps_induction_of_mem (P := Rejected) (fun m l hl m' hm hs => ?_) h
      (rejected_start (Int.not_le.mp hq))).masked
    exact hm.step (fun c hc => hq (hls c (hc ▸ hl)).2) hs

theorem mem_execs {l : Label Call} {n : Nat} (h : l ∈ execs n) : l = .exec :=
  List.eq_of_mem_replicate h

def spawnTick : List (Label Call) :=
  execs 25 ++ [.call (.spawn (some 7))] ++ execs 27 ++ [.expire, .deliver] ++ execs 39

theorem calls_spawnTick {c : Call} (h : .call c ∈ spawnTick) : c = .spawn (some 7) := by
  simp only [spawnTick, List.mem_append, List.mem_cons, List.not_mem_nil, or_false] at h
  rcases h with (((h | h) | h) | h | h) | h
  · cases mem_execs h
  · exact Label.call.inj h
  · cases mem_execs h
  · cases h
  · cases h
  · cases mem_execs h

theorem user_unmasked_spawned : ∃ m, (start .lp64 false 1000).steps (uthreads .lp64) spawnTick = some m ∧
    m.ctl = .user ∧ m.masked = false := by
  obtain ⟨m, hm, hu⟩ : ∃ m, (start .lp64 false 1000).steps (uthreads .lp64) spawnTick = some m ∧
      inUser m = true := (Option.any_eq_true _ _).mp (by decide +kernel)
  refine ⟨m, hm, inUser_iff.mp hu, user_unmasked (fun c hc => ?_) hm (inUser_iff.mp hu)⟩
  rw [calls_spawnTick hc]
  exact ⟨by simp [Forgets], by decide⟩

theorem spawn_null_masked : ∃ m,
    (start .lp64 false 1000).steps (uthreads .lp64)
      (execs 25 ++ [.call (.spawn none)] ++ execs 9) = some m ∧
        m.ctl = .user ∧ m.log 0 = [(none, 0), (some (.spawn none), -1)] ∧ m.masked = true := by
  obtain ⟨m, hm, hf⟩ : ∃ m, (start .lp64 false 1000).steps (uthreads .lp64)
      (execs 25 ++ [.call (.spawn none)] ++ execs 9) = some m ∧
        (inUser m && m.masked && decide (m.log 0 = [(none, 0), (some (.spawn none), -1)])) = true :=
    (Option.any_eq_true _ _).mp (by decide +kernel)
  simp only [Bool.and_eq_true, decide_eq_true_eq] at hf
  exact ⟨m, hm, inUser_iff.mp hf.1.1, hf.2, hf.1.2⟩

theorem past_of_run (h : (start w masked q).steps (uthreads w) ls = some m) : Past m :=
  Machine.steps_induction (fun _ _ _ hm hs => hm.step hs) h (by simp [Past, start, Machine.boot])

theorem masked_of_target (hq : 0 ≤ q.toInt)
    (h : (start w masked q).steps (uthreads w) ls = some m) {c : Ctx Scheduler Fn Call}
    (hc : m.target = some c) : m.masked = true := by
  rcases start_follows hq h with hb | ⟨-, es, a, -, hphase⟩
  · rw [hb.target_none] at hc
    cases hc
  · exact hphase.masked_of_target hc

/-- The expiry that ends a quantum occurred in it, if and only if none was pending
when run_next_thread jumped: the timer had not expired since the signal was blocked,
by block_signals or on entry to the handler. -/
theorem quantum_fresh_iff (h : (start w masked q).steps (uthreads w) ls = some m₀)
    (he : Ended (uthreads w) m₀ m₁ m₂ t) : (m₁.started ≤ t ↔ m₀.pending = none) ∧
      (0 ≤ q.toInt → ∃ ls₁ ls₂, ls = ls₁ ++ ls₂ ∧
        Sealed (uthreads w) (start w masked q) ls₁ ls₂ ∧ (m₀.pending = none ↔ .expire ∉ ls₂)) := by
  refine ⟨he.fresh_iff (past_of_run h), fun hq => ?_⟩
  obtain ⟨c, hc⟩ := he.jump
  exact exists_sealed rfl h (masked_of_target hq h hc)

def slice (m₀ : Machine Scheduler Fn Call) (ls : List (Label Call)) : Option (Nat × Nat) := do
  let _ ← m₀.target
  let m₁ ← m₀.step (uthreads .lp64) .exec
  let m₂ ← m₁.steps (uthreads .lp64) ls
  let t ← m₂.pending
  let _ ← m₂.step (uthreads .lp64) .deliver
  if m₂.started = m₁.started then some (m₁.started, t) else none

theorem ended_of_slice {n : Nat} (hd : .deliver ∉ ls) (h : slice m ls = some (n, t)) :
    ∃ m₁ m₂, Ended (uthreads .lp64) m m₁ m₂ t ∧ m₁.started = n := by
  simp only [slice, Option.bind_eq_bind, Option.bind_eq_some_iff] at h
  obtain ⟨c, hc, m₁, h₁, m₂, h₂, t', ht, m₃, h₃, h⟩ := h
  split at h
  · rename_i hsame
    simp only [Option.some.injEq, Prod.mk.injEq] at h
    obtain ⟨hn, rfl⟩ := h
    exact ⟨m₁, m₂, ⟨⟨c, hc⟩, h₁, ⟨ls, hd, h₂⟩, hsame, ht, m₃, h₃⟩, hn⟩
  · cases h

def spawnJump : List (Label Call) :=
  execs 25 ++ [.call (.spawn (some 7))] ++ execs 27 ++ [.expire, .deliver] ++ execs 38

/-- The new thread sleeps, and the timer expires before it has left the processor. -/
def sleepExpire : List (Label Call) :=
  spawnTick ++ [.call (.sleep 1)] ++ execs 10 ++ [.expire] ++ execs 37

theorem exists_ended (ls₀ ls : List (Label Call)) (n t : Nat) (hd : .deliver ∉ ls)
    (h : ((start .lp64 false 1000).steps (uthreads .lp64) ls₀).any
      (fun m => decide (slice m ls = some (n, t))) = true) : ∃ m₀ m₁ m₂,
    (start .lp64 false 1000).steps (uthreads .lp64) ls₀ = some m₀ ∧
      Ended (uthreads .lp64) m₀ m₁ m₂ t ∧ m₁.started = n := by
  obtain ⟨m₀, hm, hs⟩ := (Option.any_eq_true _ _).mp h
  obtain ⟨m₁, m₂, he, hn⟩ := ended_of_slice hd (decide_eq_true_eq.mp hs)
  exact ⟨m₀, m₁, m₂, hm, he, hn⟩

theorem quantum_fresh_spawned : ∃ m₀ m₁ m₂,
    (start .lp64 false 1000).steps (uthreads .lp64) spawnJump = some m₀ ∧
      Ended (uthreads .lp64) m₀ m₁ m₂ 94 ∧ m₀.pending = none ∧
      ∃ ls₁ ls₂, spawnJump = ls₁ ++ ls₂ ∧
        Sealed (uthreads .lp64) (start .lp64 false 1000) ls₁ ls₂ ∧ .expire ∉ ls₂ := by
  obtain ⟨m₀, m₁, m₂, hm, he, hn⟩ :=
    exists_ended spawnJump [.expire] 94 94 (by simp) (by decide +kernel)
  obtain ⟨hfresh, hsealed⟩ := quantum_fresh_iff hm he
  have hnone : m₀.pending = none := hfresh.mp (Nat.le_of_eq hn)
  obtain ⟨ls₁, ls₂, heq, hs, hiff⟩ := hsealed (by decide)
  exact ⟨m₀, m₁, m₂, hm, he, hnone, ls₁, ls₂, heq, hs, hiff.mp hnone⟩

theorem sleep_ends_next_quantum : ∃ m₀ m₁ m₂,
    (start .lp64 false 1000).steps (uthreads .lp64) sleepExpire = some m₀ ∧
      Ended (uthreads .lp64) m₀ m₁ m₂ 105 ∧ m₁.started = 144 := by
  apply exists_ended sleepExpire (execs 2)
  · exact fun h => by cases mem_execs h
  · decide +kernel

theorem gone_of_started (h : Started Configured masked (initial w q) 0 m) : Gone m := by
  intro i c n ctl hi hp
  obtain ⟨-, -, e, he⟩ := h.1.entries i c hi
  simp [he] at hp

/-- At every switch to a suspended thread, the activation that executed its
sigsetjmp has returned. -/
theorem jump_not_live (hq : 0 ≤ q.toInt) (h : (start w masked q).steps (uthreads w) ls = some m)
    {c : Ctx Scheduler Fn Call} (ht : m.target = some c) {n : Nat} {ctl : Ctl Scheduler Fn Call}
    (hp : c.point = .resume n ctl) : ¬ Live m c := by
  have hstep : ∀ m l m', Follows w q m → Gone m → m.step (uthreads w) l = some m' → Gone m' := by
    intro m l m' hf hm hs
    obtain ⟨-, es, a, -, hphase⟩ := hf
    exact hm.step hphase hs
  rcases start_induction hq (fun m hm => gone_of_started hm) hstep h with hb | ⟨-, hgone⟩
  · rw [hb.target_none] at ht
    cases ht
  · exact hgone.not_live ht hp

def resumption (m : Machine Scheduler Fn Call) : Bool :=
  match m.target with
  | some ⟨_, .resume _ _, _, _⟩ => true
  | _ => false

theorem exists_of_resumption (h : resumption m = true) : ∃ c n ctl,
    m.target = some c ∧ c.point = .resume n ctl := by
  simp only [resumption] at h
  split at h
  · rename_i i n ctl mask acts hc
    exact ⟨_, n, ctl, hc, rfl⟩
  · cases h

theorem jump_not_live_slept : ∃ m c n ctl,
    (start .lp64 false 1000).steps (uthreads .lp64) sleepExpire = some m ∧
      m.target = some c ∧ c.point = .resume n ctl ∧ ¬ Live m c := by
  obtain ⟨m, hm, hr⟩ : ∃ m, (start .lp64 false 1000).steps (uthreads .lp64) sleepExpire = some m ∧
      resumption m = true := (Option.any_eq_true _ _).mp (by decide +kernel)
  obtain ⟨c, n, ctl, hc, hp⟩ := exists_of_resumption hr
  exact ⟨m, c, n, ctl, hm, hc, hp, jump_not_live (by decide) hm hc hp⟩

def returnedTarget (m : Machine Scheduler Fn Call) : Option (Nat × Fn) := do
  let c ← m.target
  let a ← c.acts.head?
  if a.1 ∈ m.returned then some a else none

theorem exists_of_returnedTarget {k : Nat} {f : Fn} (h : returnedTarget m = some (k, f)) :
    ∃ c rest, m.target = some c ∧ c.acts = (k, f) :: rest ∧ k ∈ m.returned := by
  simp only [returnedTarget, Option.bind_eq_bind, Option.bind_eq_some_iff] at h
  obtain ⟨c, hc, a, ha, h⟩ := h
  split at h
  · rename_i hk
    cases h
    obtain ⟨rest, hacts⟩ := List.head?_eq_some_iff.mp ha
    exact ⟨c, rest, hc, hacts, hk⟩
  · cases h

/-- A second tick jumps to the first thread, whose activation 15, that of
save_current_execution_context, has returned. -/
theorem tick_jumps_to_returned : ∃ m c n ctl rest,
    (start .lp64 false 1000).steps (uthreads .lp64) (spawnTick ++ [.expire, .deliver] ++ execs 38) =
      some m ∧ m.target = some c ∧ c.point = .resume n ctl ∧
        c.acts = (15, .saveCurrentExecutionContext) :: rest ∧ 15 ∈ m.returned ∧ ¬ Live m c := by
  obtain ⟨m, hm, hr⟩ : ∃ m, (start .lp64 false 1000).steps (uthreads .lp64)
      (spawnTick ++ [.expire, .deliver] ++ execs 38) = some m ∧
        (resumption m && decide (returnedTarget m = some (15, .saveCurrentExecutionContext))) = true :=
    (Option.any_eq_true _ _).mp (by decide +kernel)
  simp only [Bool.and_eq_true, decide_eq_true_eq] at hr
  obtain ⟨c, n, ctl, hc, hp⟩ := exists_of_resumption hr.1
  obtain ⟨c', rest, hc', hacts, hk⟩ := exists_of_returnedTarget hr.2
  obtain rfl : c = c' := Option.some.inj (hc.symm.trans hc')
  exact ⟨m, c, n, ctl, rest, hm, hc, hp, hacts, hk, fun hlive => hlive _ _ _ hacts hk⟩

end Uthreads.Preemption
