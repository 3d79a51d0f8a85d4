import Uthreads.Abstraction
import Uthreads.Handover
import Uthreads.Interleavings

namespace Uthreads.Linearization

open Program SignalMachine AtomicMachine Tables Source Api Effects Tallies Configs Moves Runs
open Simulation Startup Stores Contexts Abstraction
open Program.Prog (Saves)

variable {w : Width} {q : Int32} {a a' : Atomic Scheduler Fn Call} {e : Event Call} {s : Scheduler}
  {xs : List Entry} {i j : Nat}

/-- What the thread with object i is answered in an operation. A thread that ends
itself is answered nothing. -/
def replies (i : Nat) (x : Entry) : List (Option Call × Int) :=
  if idOf x.before x.before.runningThreadTid = some i then
    match x.event, x.value with
    | .tick, _ | .call (.terminate _), none => []
    | .call c, some v => [(some c, v)]
    | .call c, none => [(some c, 0)]
  else []

def first (i : Nat) : List (Option Call × Int) := if i = 0 then [(none, 0)] else []

/-- The answer that a waiting call will return. -/
def owed : Option (Token Scheduler Fn Call) → List (Option Call × Int)
  | some (.call c _) => [(some c, 0)]
  | _ => []

structure Logged (w : Width) (q : Int32) (a : Atomic Scheduler Fn Call) (xs : List Entry) : Prop where
  trace : Trace w (initial w q) xs a.data
  empty : a.env a.cur = none
  log : ∀ i, a.log i ++ owed (a.env i) = first i ++ xs.flatMap (replies i)

theorem logged_start (w : Width) (q : Int32) : Logged w q (Atomic.start (initial w q) 0) [] where
  trace := .nil _
  empty := rfl
  log := by
    intro i
    by_cases hi : i = 0
    · simp [Atomic.start, owed, first, hi]
    · simp [Atomic.start, owed, first, hi]

theorem saves_leave {c : Call} (h : Inv s) (hs : Saves (api w c) s i 0) :
    ∃ s', Leave w s (.call c) s' := by
  have hwaits := waits_of_saves hs
  obtain ⟨p, hw, -⟩ := hs
  cases c with
  | block tid =>
      by_cases hn : index tid = s.runningThreadTid → tid = 0
      · exact absurd ((writes_uthreadBlock w h.tables hn).symm.trans hw) (by simp)
      · obtain ⟨hr, h0⟩ := Classical.not_imp.mp hn
        exact ⟨_, .block hr fun he => h0 (index_eq_zero.mp (hr.trans he))⟩
  | sleep n =>
      by_cases hn : 0 < n.toInt → s.runningThreadTid = 0
      · exact absurd ((writes_uthreadSleep w h hn).symm.trans hw) (by simp)
      · obtain ⟨hpos, h0⟩ := Classical.not_imp.mp hn
        exact ⟨_, .sleep hpos h0⟩
  | spawn | terminate | resume | getTid | getTotalQuantums | getQuantums => exact hwaits.elim

theorem owed_fresh (h : Owned a) : owed (a.env a.data.nextObject) = [] := by
  cases htok : a.env a.data.nextObject with
  | none => rfl
  | some tok =>
      rcases h.kept _ tok htok with ⟨-, hran⟩ | ⟨⟨e, rfl⟩, -⟩
      · exact absurd hran (h.fresh _ (Nat.le_refl _)).2
      · rfl

theorem owed_stored_ret (h : Owned a) {c : Call} {v : Int}
    (hp : perform (uthreads w) (.call c) a.data = .ret (some v) s) :
    (a.env a.cur = none → a.stored (uthreads w) (.call c) a.cur = none) ∧
      ∀ i, owed (a.stored (uthreads w) (.call c) i) = owed (a.env i) := by
  rcases writes_api w h.inv h.cur c with hw | ⟨e, hw⟩ | hs
  · have heq : a.stored (uthreads w) (.call c) = a.env := by
      rw [Atomic.stored]
      simp only [uthreads, hw, storeAll]
    rw [heq]
    exact ⟨id, fun _ => rfl⟩
  · have heq : a.stored (uthreads w) (.call c) =
        Function.update a.env a.data.nextObject (some (.entry e)) := by
      rw [Atomic.stored]
      simp only [uthreads, hw, storeAll]
    rw [heq]
    refine ⟨fun hnone => by rwa [Function.update_of_ne h.cur_lt.ne], fun i => ?_⟩
    by_cases hi : i = a.data.nextObject
    · rw [hi, Function.update_self, owed_fresh h]
      rfl
    · rw [Function.update_of_ne hi]
  · obtain ⟨s', hl⟩ := saves_leave h.inv hs
    obtain ⟨next, rest, t, -, -, hjump⟩ := Handover.perform_leave h.inv hl
    rw [hjump] at hp
    cases hp

theorem replies_of_ret {c : Call} {v : Int} (h : Owned a) (i : Nat) :
    replies i ⟨a.data, .call c, s, false, some v⟩ = if i = a.cur then [(some c, v)] else [] := by
  rw [replies]
  simp only [h.cur, Option.some.injEq]
  by_cases hi : i = a.cur
  · rw [if_pos hi, if_pos hi.symm]
  · rw [if_neg hi, if_neg (Ne.symm hi)]

theorem step_of_ret {S : Sys Scheduler Fn Call} {c : Call} {v : Int}
    (hp : perform S (.call c) a.data = .ret (some v) s) (hs : a.step S (.call c) = some a') :
    a' = Atomic.answer { a with data := s, env := a.stored S (.call c) } (some c) v := by
  rw [perform] at hp
  rw [Atomic.step] at hs
  cases hrun : (S.api c).run a.data with
  | ret u t =>
      rw [hrun, Outcome.ret_bind, Outcome.ret.injEq, Option.some.injEq] at hp
      obtain ⟨rfl, rfl⟩ := hp
      simp only [hrun, Option.some.injEq] at hs
      exact hs.symm
  | jump | exit | fault =>
      rw [hrun] at hp
      cases hp

theorem Logged.ret (hl : Logged w q a xs) (h : Owned a) {c : Call} {v : Int}
    (hp : perform (uthreads w) (.call c) a.data = .ret (some v) s)
    (hs : a.step (uthreads w) (.call c) = some a') :
    Logged w q a' (xs ++ [⟨a.data, .call c, s, false, some v⟩]) := by
  obtain ⟨hempty, howed⟩ := owed_stored_ret h hp
  have heq := step_of_ret hp hs
  subst heq
  refine ⟨trace_append hl.trace (.cons (operate_of_ret w hp) (.nil _)), hempty hl.empty, fun i => ?_⟩
  have hlog := hl.log i
  rw [List.flatMap_append, ← List.append_assoc, ← hlog, List.flatMap_singleton, replies_of_ret h]
  change Function.update a.log a.cur (a.log a.cur ++ [(some c, v)]) i ++
    owed (a.stored (uthreads w) (.call c) i) = _
  rw [howed]
  by_cases hi : i = a.cur
  · subst hi
    rw [Function.update_self, if_pos rfl, hl.empty]
    simp [owed]
  · rw [Function.update_of_ne hi, if_neg hi, List.append_nil]

theorem owed_stored_tick (h : Owned a) (hempty : a.env a.cur = none) (i : Nat) :
    owed (a.stored (uthreads w) .tick i) = owed (a.env i) := by
  obtain ⟨t, ht, -, hid⟩ := exists_running_of_id h.inv h.cur
  obtain ⟨p, hw, -⟩ := saves_sigvtalrm w h.inv.config ht
  have heq : a.stored (uthreads w) .tick = Function.update a.env a.cur (some (.tick p)) := by
    rw [Atomic.stored]
    simp only [uthreads, hw, hid, storeAll]
  rw [heq]
  by_cases hi : i = a.cur
  · rw [hi, Function.update_self, hempty]
    rfl
  · rw [Function.update_of_ne hi]

theorem owed_stored_saves {c : Call} (hempty : a.env a.cur = none)
    (hs : Saves (api w c) a.data a.cur 0) (i : Nat) :
    owed (a.stored (uthreads w) (.call c) i) =
      owed (a.env i) ++ if i = a.cur then [(some c, 0)] else [] := by
  obtain ⟨p, hw, -⟩ := hs
  have heq : a.stored (uthreads w) (.call c) = Function.update a.env a.cur (some (.call c p)) := by
    rw [Atomic.stored]
    simp only [uthreads, hw, storeAll]
  rw [heq]
  by_cases hi : i = a.cur
  · rw [hi, Function.update_self, hempty, if_pos rfl]
    rfl
  · rw [Function.update_of_ne hi, if_neg hi, List.append_nil]

theorem owed_stored_leave (h : Owned a) (hempty : a.env a.cur = none) {s₁ s₂ : Scheduler}
    (hl : Leave w a.data e s₁) (i : Nat) :
    owed (a.stored (uthreads w) e i) =
      owed (a.env i) ++ replies i ⟨a.data, e, s₂, true, none⟩ := by
  obtain ⟨t, ht, hst, hid⟩ := exists_running_of_id h.inv h.cur
  have hself : (a.cur = i) = (i = a.cur) := propext eq_comm
  rw [replies]
  simp only [h.cur, Option.some.injEq, hself]
  cases hl with
  | tick =>
      rw [owed_stored_tick h hempty, ite_self, List.append_nil]
  | block hr h0 =>
      exact owed_stored_saves hempty (hid ▸ saves_uthreadBlock w ht hst hr
        fun he => h0 (hr ▸ index_eq_zero.mpr he)) i
  | sleep hn h0 =>
      exact owed_stored_saves hempty (hid ▸ saves_uthreadSleep w h.inv hn h0 ht) i
  | @terminate tid hr h0 =>
      have heq : a.stored (uthreads w) (.call (.terminate tid)) = a.env := by
        have hw : (api w (.terminate tid)).writes a.data = [] := plain_uthreadTerminate w tid a.data
        rw [Atomic.stored]
        simp only [uthreads, hw, storeAll]
      rw [heq, ite_self, List.append_nil]

theorem land_owed (hret : ∀ tok, a.env j = some tok → Returns tok ∨ ∃ e, tok = .entry e)
    (hland : a.land j = some a') (i : Nat) :
    a'.log i ++ owed (a'.env i) = a.log i ++ owed (a.env i) := by
  have hother : i ≠ j → owed (Function.update a.env j none i) = owed (a.env i) :=
    fun hi => by rw [Function.update_of_ne hi]
  simp only [Atomic.land] at hland
  cases htok : a.env j with
  | none => simp [htok] at hland
  | some tok =>
      cases tok with
      | entry e =>
          simp only [htok, Option.some.injEq] at hland
          subst hland
          by_cases hi : i = j
          · subst hi
            simp [owed, htok]
          · exact congrArg (a.log i ++ ·) (hother hi)
      | call c p =>
          obtain ⟨-, hp⟩ : Returns (.call c p) := (hret _ htok).resolve_right (by simp)
          simp only [htok, hp] at hland
          cases hland
          by_cases hi : i = j
          · subst hi
            simp [Atomic.answer, owed, htok]
          · simp only [Atomic.answer, Function.update_of_ne hi]
      | tick p =>
          have hp : ∀ s, p.run s = .ret () s := (hret _ htok).resolve_right (by simp)
          simp only [htok, hp] at hland
          cases hland
          by_cases hi : i = j
          · subst hi
            simp [owed, htok]
          · exact congrArg (a.log i ++ ·) (hother hi)

theorem Logged.jump (hl : Logged w q a xs) (h : Owned a)
    (hp : perform (uthreads w) e a.data = .jump j s)
    (hland : Atomic.land { a with data := s, env := a.stored (uthreads w) e } j = some a') :
    Logged w q a' (xs ++ [⟨a.data, e, s, true, none⟩]) := by
  have hm := perform_move w h.inv e
  rw [hp] at hm
  obtain ⟨tok, htok, hcur, henv, -, -, hcont⟩ := Atomic.land_cases hland
  have hdata : a'.data = s := h.continues htok hcont
  have hret : ∀ tok, a.stored (uthreads w) e j = some tok → Returns tok ∨ ∃ e, tok = .entry e :=
    fun tok htok => (h.kept_stored htok).imp And.left And.left
  refine ⟨?_, by simp [hcur, henv], fun i => ?_⟩
  · rw [hdata]
    exact trace_append hl.trace (.cons (operate_of_jump w hp) (.nil _))
  rw [land_owed hret hland i, List.flatMap_append, List.flatMap_singleton, ← List.append_assoc,
    ← hl.log i, List.append_assoc]
  cases hm with
  | switch hleave hq ht => exact congrArg (a.log i ++ ·) (owed_stored_leave h hl.empty hleave i)

theorem Logged.step (hl : Logged w q a xs) (h : Owned a) (hs : a.step (uthreads w) e = some a') :
    ∃ x, Logged w q a' (xs ++ [x]) := by
  rcases Atomic.step_cases hs with ⟨v, hp, -⟩ | ⟨j, s, hp, hland⟩
  · have hm := perform_move w h.inv e
    rw [hp] at hm
    generalize a'.data = s at hm hp
    cases hm <;> exact ⟨_, hl.ret h hp hs⟩
  · exact ⟨_, hl.jump h hp hland⟩

theorem logged_steps (hq : 0 ≤ q.toInt) {es : List (Event Call)}
    (hs : (Atomic.start (initial w q) 0).steps (uthreads w) es = some a) :
    ∃ xs, Logged w q a xs := by
  refine (Atomic.steps_induction (P := fun a => Owned a ∧ ∃ xs, Logged w q a xs) ?_ hs
    ⟨owned_start hq, [], logged_start w q⟩).2
  rintro a e a' ⟨ho, xs, hl⟩ hs
  obtain ⟨x, hx⟩ := hl.step ho hs
  exact ⟨ho.step hs, _, hx⟩

variable {m : Machine Scheduler Fn Call} {ls : List (Label Call)} {masked : Bool}

theorem owed_of_parked {ys : List (Option Call × Int)} (hlen : ys.length ≤ 1)
    (hh : ∀ tok, a.env i = some tok → Holds (uthreads w) Configured m i tok ys) :
    (ys ++ owed (a.env i)).length ≤ 1 := by
  cases htok : a.env i with
  | none => simpa [owed] using hlen
  | some tok =>
      have hholds := hh tok htok
      cases tok with
      | entry | tick => simpa [owed] using hlen
      | call c p =>
          obtain ⟨rfl, -⟩ := hholds
          simp [owed]

/-- In user code the data and the logs are those of a run of whole operations; at
most one answer has not reached its thread, and the running thread has all. -/
theorem trace_of_steps (hq : 0 ≤ q.toInt) (h : (start w masked q).steps (uthreads w) ls = some m)
    (hu : m.ctl = .user) : ∃ xs, Trace w (initial w q) xs m.data ∧
      ∀ i, ∃ rest, rest.length ≤ 1 ∧ (i = m.cur → rest = []) ∧
        first i ++ xs.flatMap (replies i) = m.log i ++ rest := by
  rcases start_follows hq h with ⟨-, -, d, p, hctl, -, -⟩ | hf
  · simp [hctl] at hu
  · obtain ⟨es, a, hes, -, hdata, hmid⟩ := Interleavings.at_user hq hf hu
    obtain ⟨xs, hl⟩ := logged_steps hq hes
    refine ⟨xs, hdata ▸ hl.trace, fun i => ?_⟩
    obtain ⟨ys, hlen, hlog, hholds⟩ := hmid.parked i
    refine ⟨ys ++ owed (a.env i), owed_of_parked hlen hholds, fun hi => ?_, ?_⟩
    · have hcur := hmid.log
      rw [List.append_nil, ← hi, hlog, List.append_right_eq_self] at hcur
      rw [hcur, hi, ← hmid.cur, hl.empty]
      rfl
    · rw [← hl.log i, hlog, List.append_assoc]

/-- Wherever the timer expires, a run is an execution of the pool from its start
that leads to the pool of its tables, and each thread has been answered what the
operations of that execution answer it, but for one answer on its way. -/
theorem linearizable (hq : 0 ≤ q.toInt)
    (h : (start .unbounded masked q).steps (uthreads .unbounded) ls = some m) (hu : m.ctl = .user) :
    ∃ xs, ∃ hi : Inv m.data, Trace .unbounded (initial .unbounded q) xs m.data ∧
      Refinement.Exec (ThreadPool.Step 0) (ThreadPool.Pool.start main_mem) (xs.map label)
        (pool m.data hi) ∧
      ∀ i, ∃ rest, rest.length ≤ 1 ∧ (i = m.cur → rest = []) ∧
        first i ++ xs.flatMap (replies i) = m.log i ++ rest := by
  obtain ⟨xs, ht, hlog⟩ := trace_of_steps hq h hu
  have hi := (run_of_trace .unbounded hq ht).inv .unbounded
  refine ⟨xs, hi, ht, ?_, hlog⟩
  rw [← pool_initial q (inv_initial .unbounded hq)]
  exact exec_of_trace _ (initial_nonneg q) ht hi

/-- The tick interrupts the return of uthread_spawn, whose answer is still on its way. -/
theorem linearizable_spawned : ∃ m xs p,
    (start .unbounded false 1000).steps (uthreads .unbounded) Interleavings.spawnExpire = some m ∧
      m.cur = 1 ∧ Trace .unbounded (initial .unbounded 1000) xs m.data ∧
      Refinement.Exec (ThreadPool.Step 0) (ThreadPool.Pool.start main_mem) (xs.map label) p ∧
      first 1 ++ xs.flatMap (replies 1) = m.log 1 ∧
      ∃ rest, rest.length ≤ 1 ∧ first 0 ++ xs.flatMap (replies 0) = [(none, 0)] ++ rest := by
  obtain ⟨m, hm, hf⟩ : ∃ m,
      (start .unbounded false 1000).steps (uthreads .unbounded) Interleavings.spawnExpire = some m ∧
        (Interleavings.inUser m && decide (m.cur = 1 ∧ m.log 0 = [(none, 0)])) = true :=
    (Option.any_eq_true _ _).mp (by decide +kernel)
  rw [Bool.and_eq_true, decide_eq_true_eq] at hf
  obtain ⟨hu, hcur, hlog₀⟩ := hf
  obtain ⟨xs, hi, ht, hexec, hlog⟩ := linearizable (by decide) hm (Interleavings.inUser_iff.mp hu)
  obtain ⟨rest₁, -, hrest, heq₁⟩ := hlog 1
  rw [hrest hcur.symm, List.append_nil] at heq₁
  obtain ⟨rest, hlen, -, heq⟩ := hlog 0
  rw [hlog₀] at heq
  exact ⟨m, xs, _, hm, hcur, ht, hexec, heq₁, rest, hlen, heq⟩

end Uthreads.Linearization
