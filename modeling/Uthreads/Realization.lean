import Uthreads.Linearization
import Uthreads.Timers
import Uthreads.Uninterrupted

namespace Uthreads.Realization

open Program SignalMachine AtomicMachine Tables Source Api Effects Tallies Configs Moves Runs
open Sections Startup Contexts Uninterrupted

variable {w : Width} {q : Int32} {masked : Bool} {a a' : Atomic Scheduler Fn Call} {e : Event Call}
  {s s' : Scheduler} {x : Entry} {xs : List Entry} {m m' : Machine Scheduler Fn Call}

def Held (a : Atomic Scheduler Fn Call) : Prop := ∀ i tok, a.env i = some tok → Simple tok

theorem tame_of_owned (w : Width) (h : Owned a) (hheld : Held a) : Tame (uthreads w) a where
  held := hheld
  call := by
    intro c j p hm
    obtain ⟨v, hq⟩ := (opening_api w c).quiet_of_saved hm
    exact ⟨(h.safe.call c).saves j p hm, hq.writes⟩
  tick := by
    intro j p hm
    obtain ⟨v, hq⟩ := (section_sigvtalrm (r := True) (d := 0) w).quiet_of_saved hm
    exact ⟨h.safe.tick.saves j p hm, hq.writes⟩

theorem held_step (h : Owned a) (hheld : Held a) (hs : a.step (uthreads w) e = some a') :
    Held a' := by
  have hstored := (tame_of_owned w h hheld).stored (e := e)
  rcases Atomic.step_cases hs with ⟨v, -, -, henv, -⟩ | ⟨i, s, -, hland⟩
  · intro i tok htok
    exact hstored i tok (henv ▸ htok)
  · obtain ⟨-, -, -, henv, -⟩ := Atomic.land_cases hland
    intro j tok htok
    rw [henv, Function.update_apply] at htok
    split at htok
    · cases htok
    · exact hstored j tok htok

theorem exists_land {i : Nat} {tok : Token Scheduler Fn Call} (htok : a.env i = some tok)
    (h : Returns tok ∨ ∃ e, tok = .entry e) : ∃ a', a.land i = some a' ∧ a'.data = a.data := by
  rw [Atomic.land, htok]
  rcases h with hr | ⟨entry, rfl⟩
  · cases tok with
    | entry entry => exact hr.elim
    | call c p =>
        have hp : p.run a.data = .ret 0 a.data := hr.2 a.data
        simp only [hp]
        exact ⟨_, rfl, rfl⟩
    | tick p =>
        have hp : p.run a.data = .ret () a.data := hr a.data
        simp only [hp]
        exact ⟨_, rfl, rfl⟩
  · exact ⟨_, rfl, rfl⟩

theorem exists_step (h : Owned a) (hx : operate w a.data e = some x) :
    ∃ a', a.step (uthreads w) e = some a' ∧ a'.data = x.after := by
  have hm := perform_move w h.inv e
  rw [operate] at hx
  cases ho : perform (uthreads w) e a.data with
  | ret v s =>
      rw [ho] at hx hm
      obtain rfl := Option.some.inj hx
      cases e with
      | call c =>
          cases hrun : ((uthreads w).api c).run a.data with
          | ret u t =>
              rw [perform_call_run hrun] at ho
              obtain ⟨-, rfl⟩ := Outcome.ret.inj ho
              have hs : a.step (uthreads w) (.call c) = some
                  (Atomic.answer { a with data := t, env := a.stored (uthreads w) (.call c) } (some c) u) := by
                simp only [Atomic.step, hrun]
                rfl
              exact ⟨_, hs, rfl⟩
          | jump | exit | fault =>
              rw [perform_call_run hrun] at ho
              cases ho
      | tick => cases hm
  | jump i s =>
      rw [ho] at hx
      obtain rfl := Option.some.inj hx
      have hstored := stored_of_jump h ho
      obtain ⟨tok, htok⟩ := Option.ne_none_iff_exists'.mp hstored
      have hland := exists_land (a := { a with data := s, env := a.stored (uthreads w) e }) htok
        ((h.kept_stored htok).imp And.left And.left)
      obtain ⟨a', ha', hdata⟩ := hland
      refine ⟨a', ?_, hdata⟩
      cases e with
      | call c =>
          cases hrun : ((uthreads w).api c).run a.data with
          | jump j t =>
              rw [perform_call_run hrun] at ho
              obtain ⟨rfl, rfl⟩ := Outcome.jump.inj ho
              simp only [Atomic.step, hrun]
              exact ha'
          | ret | exit | fault =>
              rw [perform_call_run hrun] at ho
              cases ho
      | tick =>
          cases hrun : (uthreads w).handler.run a.data with
          | jump j t =>
              rw [perform_tick_run hrun] at ho
              obtain ⟨rfl, rfl⟩ := Outcome.jump.inj ho
              simp only [Atomic.step, hrun]
              exact ha'
          | ret | exit | fault =>
              rw [perform_tick_run hrun] at ho
              cases ho
  | exit | fault =>
      rw [ho] at hx
      cases hx

theorem execs_getTotalQuantums (hctl : m.ctl = .user) (hp : m.pending = none)
    (hset : m.data.set = true) : ∃ m', Reaches (uthreads w) m m' ∧ m'.ctl = .user ∧
      m'.pending = none ∧ m'.masked = false ∧ m'.data = m.data ∧ m'.cur = m.cur ∧ m'.env = m.env := by
  obtain ⟨data, masked, pending, ctl, cur, env, acts, acted, returned, saved, lastSave, resumed,
    entries, ran, clock, started, stderr, log⟩ := m
  simp only at hctl hp hset
  subst hctl hp
  refine ⟨_, ⟨.call .getTotalQuantums :: Interleavings.execs 12, rfl⟩, rfl, rfl, ?_, rfl, rfl, rfl⟩
  exact if_pos hset

theorem reaches_unmasked (h : Realizes m a) (ho : Owned a) :
    ∃ m', Reaches (uthreads w) m m' ∧ Realizes m' a ∧ m'.masked = false := by
  by_cases hm : m.masked = false
  · exact ⟨m, .refl m, h, hm⟩
  · have hset : m.data.set = true := by
      rw [h.data]
      exact ho.inv.config.set
    obtain ⟨m', hr, hctl, hp, hmask, hdata, hcur, henv⟩ :=
      execs_getTotalQuantums (w := w) h.ctl h.pending hset
    exact ⟨m', hr, ⟨hctl, hp, hdata.trans h.data, hcur.trans h.cur, henv ▸ h.covers⟩, hmask⟩

/-- The machine is in user code, in a state that can be followed. -/
structure Follower (m : Machine Scheduler Fn Call) (a : Atomic Scheduler Fn Call) : Prop where
  realizes : Realizes m a
  owned : Owned a
  held : Held a
  armed : a.data.armed = true

theorem armed_operate (hi : Inv s) (hx : operate w s e = some x) (ha : s.armed = true) :
    x.after.armed = true := by
  have hi' := operate_inv w hi hx
  have htimer := Timers.operate_timer hi hx
  rw [Scheduler.armed, hi'.config.itimer, htimer, ← hi.config.itimer]
  exact ha

theorem Follower.step (h : Follower m a) (hx : operate w a.data e = some x) :
    ∃ m' a', Reaches (uthreads w) m m' ∧ Follower m' a' ∧ a'.data = x.after := by
  obtain ⟨a', hs, hdata⟩ := exists_step h.owned hx
  have htame := tame_of_owned w h.owned h.held
  have hnext : ∀ m', Realizes m' a' → Follower m' a' := fun m' hr =>
    ⟨hr, h.owned.step hs, held_step h.owned h.held hs, hdata ▸ armed_operate h.owned.inv hx h.armed⟩
  cases e with
  | call c =>
      obtain ⟨m', hr, hreal⟩ := h.realizes.call htame hs
      exact ⟨m', a', hr, hnext m' hreal, hdata⟩
  | tick =>
      obtain ⟨m₁, hr₁, hreal₁, hmask⟩ := reaches_unmasked (w := w) h.realizes h.owned
      have harmed : (uthreads w).armed m₁.data = true := by
        rw [hreal₁.data]
        exact h.armed
      obtain ⟨m', hr, hreal⟩ := hreal₁.tick htame hmask harmed hs
      exact ⟨m', a', hr₁.trans hr, hnext m' hreal, hdata⟩

theorem Follower.trace (ht : Trace w s xs s') (h : Follower m a) (hdata : a.data = s) :
    ∃ m' a', Reaches (uthreads w) m m' ∧ Follower m' a' ∧ a'.data = s' := by
  induction ht generalizing m a with
  | nil s => exact ⟨m, a, .refl m, h, hdata⟩
  | cons hx ht ih =>
      obtain ⟨m₁, a₁, hr₁, h₁, hdata₁⟩ := h.step (hdata ▸ hx)
      obtain ⟨m', a', hr, h', hdata'⟩ := ih h₁ hdata₁
      exact ⟨m', a', hr₁.trans hr, h', hdata'⟩

theorem Boots.no_save {armed : Scheduler → Bool} {I : Scheduler → Prop} {v : Int} {p : Code Int}
    {i : Nat} {k : Code Int} (h : Boots armed I v p s) : .save i k ∉ p.writes s := by
  induction h with
  | get h ih | note h ih => exact ih
  | set ha h ih => exact ih
  | last hI h =>
      have hw := h.writes
      intro hm
      exact List.not_mem_nil (hw _ ▸ hm)
  | make h ih =>
      intro hm
      exact ih ((List.mem_cons.mp hm).resolve_left (by simp))

theorem follower_start (masked : Bool) (hq : 0 < q.toInt) : ∃ m,
    Reaches (uthreads w) (start w masked q) m ∧ Follower m (Atomic.start (initial w q) 0) := by
  have hexec : Executing (.call none) (fun _ => none) 0 (start w masked q) (uthreadInit w q) :=
    ⟨⟨false, rfl⟩, rfl, rfl, fun i tok hi => by simp at hi⟩
  obtain ⟨m, p, hr, hexec', hfinal, hrun⟩ := hexec.run (S := uthreads w) (fun _ => .entry 0)
    (executes_call none) fun j p hm => absurd hm (Boots.no_save (boots_uthreadInit w hq.le))
  have hinit : (uthreadInit w q).run .blank = .ret 0 (initial w q) := by
    rw [run_uthreadInit, if_neg (Int.not_lt.mpr hq.le)]
  obtain ⟨hr', hdata⟩ := hexec'.ret (S := uthreads w) (executes_call none) hfinal (hrun.trans hinit)
  refine ⟨_, hr.trans hr', ⟨rfl, hexec'.pending, hdata, hexec'.cur, ?_⟩, owned_start hq.le, ?_, ?_⟩
  · intro i tok hi
    cases hi
  · intro i tok hi
    cases hi
  · have harmed := Timers.armed_initial (w := w) hq
    exact decide_eq_true harmed.nonzero

/-- The states in which the machine, with the timer expiring at any step, is in
user code are those that runs of whole operations lead to. -/
theorem reachable_iff (hq : 0 < q.toInt) :
    (∃ ls m, (start w masked q).steps (uthreads w) ls = some m ∧ m.ctl = .user ∧ m.data = s) ↔
      ∃ xs, Trace w (initial w q) xs s := by
  constructor
  · rintro ⟨ls, m, hls, hu, rfl⟩
    obtain ⟨xs, ht, -⟩ := Linearization.trace_of_steps hq.le hls hu
    exact ⟨xs, ht⟩
  · rintro ⟨xs, ht⟩
    obtain ⟨m, hr, hf⟩ := follower_start (w := w) masked hq
    obtain ⟨m', a', hr', hf', hdata⟩ := hf.trace ht rfl
    obtain ⟨ls, hls⟩ := hr.trans hr'
    exact ⟨ls, m', hls, hf'.realizes.ctl, hf'.realizes.data.trans hdata⟩

theorem reachable_iff_mixed : ∃ ls m, (start .lp64 true 1000).steps (uthreads .lp64) ls = some m ∧
    m.ctl = .user ∧ m.data.runningThreadTid = 2 ∧ 1 ∈ m.data.sleepingThreads ∧
    3 ∈ m.data.blockedThreads := by
  have hplays : Plays .lp64 (initial .lp64 1000) mixed (fun _ s => s.runningThreadTid = 2 ∧
      1 ∈ s.sleepingThreads ∧ 3 ∈ s.blockedThreads) := by decide +kernel
  obtain ⟨xs, s, ht, hrun, hsleeps, hblocked⟩ := hplays.exists_trace
  obtain ⟨ls, m, hls, hu, rfl⟩ : ∃ ls m,
      (start .lp64 true 1000).steps (uthreads .lp64) ls = some m ∧ m.ctl = .user ∧ m.data = s :=
    (reachable_iff (by decide)).mpr ⟨xs, ht⟩
  exact ⟨ls, m, hls, hu, hrun, hsleeps, hblocked⟩

end Uthreads.Realization
