import Uthreads.Runs

namespace Uthreads.Histories

open Program SignalMachine AtomicMachine Tables Source Api Effects Tallies Configs Moves Runs

variable (w : Width) {s s' : Scheduler} {e : Event Call} {x : Entry}

theorem toInt_of_live {r : Option Nat} {tid : Int32} (h : Wf s r)
    (hl : stateOf s (index tid) ≠ none) : tid.toInt = index tid :=
  (index_eq_iff ((h.tally _).bound hl)).mp rfl

theorem toInt_of_state {r : Option Nat} {tid : Int32} {st : State} (h : Wf s r)
    (hst : stateOf s (index tid) = some st) : tid.toInt = index tid :=
  toInt_of_live h (by rw [hst]; simp)

theorem toInt_of_running {tid : Int32} (h : Wf s (some s.runningThreadTid))
    (hr : index tid = s.runningThreadTid) : tid.toInt = s.runningThreadTid := by
  rw [← hr]
  exact toInt_of_state h (hr ▸ h.stateOf_running)

@[simp] theorem ite_map_eq_none {c : Prop} [Decidable c] {o : Option State} {f : State → State} :
    (if c then o.map f else o) = none ↔ o = none := by
  split <;> simp

theorem leave_live (hi : Inv s) (hl : Leave w s e s') (s'' : Scheduler) (t : Nat) :
    stateOf s' t = none ↔
      stateOf s t = none ∨ (⟨s, e, s'', true, none⟩ : Entry).terminated t = true := by
  cases hl with
  | tick => simp [Entry.terminated]
  | block hr h0 => simp [Entry.terminated]
  | sleep hn h0 => simp [Entry.terminated]
  | terminate hr h0 =>
      have htid := toInt_of_running hi.tables hr
      by_cases ht : s.runningThreadTid = t <;>
        simp [Entry.terminated, Entry.succeeded, htid, ht]

theorem live_step (hi : Inv s) (hx : operate w s e = some x) (t : Nat) :
    stateOf x.after t = none ↔
      x.spawned t = false ∧ (stateOf s t = none ∨ x.terminated t = true) := by
  rcases operate_cases w hi hx with ⟨v, s', hm, rfl⟩ | ⟨i, s', hm, rfl⟩
  · cases hm with
    | @fail c hf =>
        have hne : (-1 : Int) ≠ t := by omega
        cases c <;> simp [Entry.spawned, Entry.terminated, Entry.succeeded, hne]
    | @read c v hr =>
        cases c <;> first | exact hr.elim | simp [Entry.spawned, Entry.terminated]
    | @spawn entryPoint tid hfree hlt hmin =>
        by_cases ht : tid = t <;> simp [Entry.spawned, Entry.terminated, ht]
    | @terminate tid hl h0 hr =>
        have htid := toInt_of_live hi.tables hl
        by_cases ht : index tid = t <;>
          simp [Entry.spawned, Entry.terminated, Entry.succeeded, htid, ht]
    | blockReady hst h0 => simp [Entry.spawned, Entry.terminated]
    | blockBlocked hst h0 => simp [Entry.spawned, Entry.terminated]
    | resumeBlocked hst => simp [Entry.spawned, Entry.terminated]
    | resumeOther hl hst => simp [Entry.spawned, Entry.terminated]
  · cases hm with
    | switch hl hq ht =>
        have hspawn : ∀ a, (⟨s, e, a, true, none⟩ : Entry).spawned t = false := by
          intro a
          cases hl <;> simp [Entry.spawned]
        rw [hspawn, ← leave_live w hi hl]
        simp

theorem leave_blocked (hi : Inv s) (hl : Leave w s e s') (s'' : Scheduler) (t : Nat) :
    stateOf s' t = some .blocked ↔
      stateOf s t = some .blocked ∨ (⟨s, e, s'', true, none⟩ : Entry).blocked t = true := by
  have hrun := hi.tables.stateOf_running
  cases hl with
  | tick =>
      by_cases ht : s.runningThreadTid = t
      · simp [Entry.blocked, ← ht, hrun]
      · simp [Entry.blocked, ht]
  | block hr h0 =>
      have htid := toInt_of_running hi.tables hr
      by_cases ht : s.runningThreadTid = t
      · simp [Entry.blocked, Entry.succeeded, htid, ← ht, hrun]
      · simp [Entry.blocked, Entry.succeeded, htid, ht]
  | sleep hn h0 =>
      by_cases ht : s.runningThreadTid = t
      · simp [Entry.blocked, ← ht, hrun]
      · simp [Entry.blocked, ht]
  | terminate hr h0 =>
      by_cases ht : s.runningThreadTid = t
      · simp [Entry.blocked, ← ht, hrun]
      · simp [Entry.blocked, ht]

theorem stateOf_next {tid : Nat} {rest : List Nat} (h : Wf s none)
    (hq : s.readyThreads = tid :: rest) : stateOf s tid = some .ready :=
  ((h.tally tid).ready.mp (by simp [hq])).1

theorem blocked_switch (hi : Inv s) (hl : Leave w s e s') {tid : Nat} {rest : List Nat}
    (hq : s'.readyThreads = tid :: rest) (s'' : Scheduler) (t : Nat) :
    stateOf (dispatch w s' tid rest) t = some .blocked ↔
      (⟨s, e, s'', true, none⟩ : Entry).terminated t = false ∧
        ((⟨s, e, s'', true, none⟩ : Entry).blocked t = true ∨
          (stateOf s t = some .blocked ∧ (⟨s, e, s'', true, none⟩ : Entry).resumed t = false)) := by
  have hnext := stateOf_next (hl.wf w hi.tables) hq
  have hdispatch : stateOf (dispatch w s' tid rest) t = some .blocked ↔
      stateOf s' t = some .blocked := by
    by_cases ht : tid = t
    · simp [← ht, hnext]
    · simp [ht]
  rw [hdispatch, leave_blocked w hi hl s'']
  have hrun := hi.tables.stateOf_running
  cases hl with
  | tick | block | sleep => simp [Entry.terminated, Entry.blocked, Entry.resumed, or_comm]
  | terminate hr h0 =>
      have htid := toInt_of_running hi.tables hr
      by_cases ht : s.runningThreadTid = t
      · simp [Entry.blocked, Entry.terminated, ← ht, hrun, Entry.succeeded, htid]
      · simp [Entry.blocked, Entry.terminated, Entry.resumed, htid, ht]

theorem blocked_step (hi : Inv s) (hx : operate w s e = some x) (t : Nat) :
    stateOf x.after t = some .blocked ↔ x.terminated t = false ∧
      (x.blocked t = true ∨ (stateOf s t = some .blocked ∧ x.resumed t = false)) := by
  rcases operate_cases w hi hx with ⟨v, s', hm, rfl⟩ | ⟨i, s', hm, rfl⟩
  · cases hm with
    | @fail c hf =>
        cases c <;> simp [Entry.terminated, Entry.blocked, Entry.resumed, Entry.succeeded]
    | @read c v hr =>
        cases c <;> first
          | exact hr.elim
          | simp [Entry.terminated, Entry.blocked, Entry.resumed]
    | @spawn entryPoint tid hfree hlt hmin =>
        by_cases ht : tid = t
        · simp [Entry.terminated, Entry.blocked, Entry.resumed, ← ht, hfree]
        · simp [Entry.terminated, Entry.blocked, Entry.resumed, ht]
    | @terminate tid hl h0 hr =>
        have htid := toInt_of_live hi.tables hl
        by_cases ht : index tid = t
        · simp [Entry.terminated, Entry.succeeded, htid, ht]
        · simp [Entry.terminated, Entry.blocked, Entry.resumed, htid, ht]
    | @blockReady tid hst h0 =>
        have htid := toInt_of_state hi.tables hst
        by_cases ht : index tid = t
        · simp [Entry.terminated, Entry.blocked, Entry.succeeded, htid, ← ht, hst]
        · simp [Entry.terminated, Entry.blocked, Entry.resumed, htid, ht]
    | @blockBlocked tid hst h0 =>
        have htid := toInt_of_state hi.tables hst
        by_cases ht : index tid = t
        · simp [Entry.terminated, Entry.blocked, Entry.succeeded, htid, ← ht, hst]
        · simp [Entry.terminated, Entry.blocked, Entry.resumed, htid, ht]
    | @resumeBlocked tid hst =>
        have htid := toInt_of_state hi.tables hst
        by_cases ht : index tid = t
        · simp [Entry.blocked, Entry.resumed, Entry.succeeded, htid, ← ht, hst]
        · simp [Entry.terminated, Entry.blocked, Entry.resumed, htid, ht]
    | @resumeOther tid hl hst =>
        have htid := toInt_of_live hi.tables hl
        by_cases ht : index tid = t
        · simp [Entry.blocked, Entry.resumed, Entry.succeeded, htid, ← ht, hst]
        · simp [Entry.terminated, Entry.blocked, Entry.resumed, htid, ht]
  · cases hm with
    | switch hl hq ht₀ => exact blocked_switch w hi hl hq _ t

theorem not_expired (s : Scheduler) (d : Nat) :
    (!expired .unbounded s d) = true ↔ s.totalQuantums < d - 1 := by
  rw [Bool.not_eq_true', expired, decide_eq_false_iff_not, not_le]
  rfl

theorem deadline_wake (d t : Nat) :
    (wake .unbounded s).sleepingThreads[t]? = some d ↔
      s.sleepingThreads[t]? = some d ∧ s.totalQuantums < d - 1 := by
  rw [wake_sleepingThreads, Maps.getElem?_filter, Option.filter_eq_some_iff, not_expired]

theorem deadline_sleep (hT : 0 ≤ s.totalQuantums) {n : Int32} (hn : 0 < n.toInt) (d t tid : Nat) :
    (sleep .unbounded s tid (sizeOfInt n.toInt)).sleepingThreads[t]? = some d ↔
      (tid = t ∧ (d : Int) = s.totalQuantums + n.toInt + 1) ∨
        (tid ≠ t ∧ s.sleepingThreads[t]? = some d) := by
  have hsize := sizeOfInt_of_pos hn
  simp only [sleep, Std.ExtTreeMap.getElem?_insert, compare_eq_iff_eq, Width.unbounded]
  by_cases ht : tid = t
  · simp only [ht, if_true, Option.some.injEq, true_and, ne_eq, not_true, false_and, or_false]
    omega
  · simp [ht]

theorem not_sleeping_of_not_live {r : Option Nat} {t : Nat} (h : Wf s r) (hl : stateOf s t = none) :
    s.sleepingThreads[t]? = none := by
  refine Std.ExtTreeMap.getElem?_eq_none fun hs => ?_
  exact ((h.tally t).sleeping hs).1 hl

theorem leave_deadline (hT : 0 ≤ s.totalQuantums) (hl : Leave .unbounded s e s')
    (s'' : Scheduler) (d t : Nat) :
    s'.sleepingThreads[t]? = some d ↔
      ((⟨s, e, s'', true, none⟩ : Entry).slept t = true ∧
        (d : Int) = s.totalQuantums + (⟨s, e, s'', true, none⟩ : Entry).numQuantums + 1) ∨
      ((⟨s, e, s'', true, none⟩ : Entry).slept t = false ∧ s.sleepingThreads[t]? = some d ∧
        s.totalQuantums < d - 1) := by
  cases hl with
  | tick | block | terminate => 
      simp only [Entry.slept, enqueue_sleepingThreads]
      rw [deadline_wake]
      simp
  | @sleep n hn h0 =>
      rw [deadline_wake, deadline_sleep hT hn, sleep_totalQuantums]
      simp only [Entry.slept, Entry.succeeded, Entry.numQuantums, Bool.true_or, Bool.true_and,
        beq_iff_eq, beq_eq_false_iff_ne]
      constructor
      · rintro ⟨⟨ht, hd⟩ | ⟨ht, hd⟩, hlt⟩
        · exact .inl ⟨ht, hd⟩
        · exact .inr ⟨ht, hd, hlt⟩
      · rintro (⟨ht, hd⟩ | ⟨ht, hd, hlt⟩)
        · exact ⟨.inl ⟨ht, hd⟩, by omega⟩
        · exact ⟨.inr ⟨ht, hd⟩, hlt⟩

/-- A deadline is set by going to sleep, and lives until a switch at the end of
the quantum before the last that it names. -/
theorem deadline_step (hi : Inv s) (hT : 0 ≤ s.totalQuantums)
    (hx : operate .unbounded s e = some x) (d t : Nat) :
    x.after.sleepingThreads[t]? = some d ↔
      (x.slept t = true ∧ (d : Int) = s.totalQuantums + x.numQuantums + 1) ∨
      (x.slept t = false ∧ x.terminated t = false ∧ s.sleepingThreads[t]? = some d ∧
        (x.switched = true → s.totalQuantums < d - 1)) := by
  rcases operate_cases .unbounded hi hx with ⟨v, s', hm, rfl⟩ | ⟨i, s', hm, rfl⟩
  · cases hm with
    | @fail c hf => cases c <;> simp [Entry.slept, Entry.terminated, Entry.succeeded]
    | @read c v hr =>
        cases c <;> first
          | exact hr.elim
          | simp [Entry.slept, Entry.terminated]
    | @terminate tid hl h0 hr =>
        have htid := toInt_of_live hi.tables hl
        by_cases ht : index tid = t
        · simp [Entry.slept, Entry.terminated, Entry.succeeded, htid, ht]
        · simp [Entry.slept, Entry.terminated, htid, ht, Std.ExtTreeMap.getElem?_erase]
    | spawn | blockReady | blockBlocked | resumeBlocked | resumeOther =>
        simp [Entry.slept, Entry.terminated]
  · cases hm with
    | @switch _ s₁ tid rest t₀ hl hq ht₀ =>
        rw [dispatch_sleepingThreads, leave_deadline hT hl (dispatch .unbounded s₁ tid rest)]
        cases hl with
        | tick | block | sleep => simp [Entry.terminated]
        | terminate hr h0 =>
            have htid := toInt_of_running hi.tables hr
            by_cases ht : s.runningThreadTid = t
            · have hns := Std.ExtTreeMap.getElem?_eq_none hi.tables.not_sleeping
              simp [Entry.slept, Entry.terminated, Entry.succeeded, htid, ← ht, hns]
            · simp [Entry.slept, Entry.terminated, htid, ht]

theorem operate_before (hx : operate w s e = some x) : x.before = s := by
  rw [operate] at hx
  cases ho : perform (uthreads w) e s <;> simp only [ho] at hx <;> cases hx <;> rfl

theorem operate_event (hx : operate w s e = some x) : x.event = e := by
  rw [operate] at hx
  cases ho : perform (uthreads w) e s <;> simp only [ho] at hx <;> cases hx <;> rfl

theorem total_step (hi : Inv s) (hx : operate .unbounded s e = some x) :
    x.after.totalQuantums = if x.switched then s.totalQuantums + 1 else s.totalQuantums := by
  rcases operate_cases .unbounded hi hx with ⟨v, s', hm, rfl⟩ | ⟨i, s', hm, rfl⟩
  · cases hm <;> rfl
  · cases hm with
    | switch hl hq ht => cases hl <;> rfl

theorem spawned_free (hi : Inv s) (hx : operate w s e = some x) {t : Nat}
    (ht : x.spawned t = true) : stateOf s t = none := by
  rcases operate_cases w hi hx with ⟨v, s', hm, rfl⟩ | ⟨i, s', hm, rfl⟩
  · cases hm with
    | @fail c hf =>
        have hne : (-1 : Int) ≠ t := by omega
        cases c <;> simp [Entry.spawned, hne] at ht
    | @read c v hr =>
        cases c <;> first
          | exact hr.elim
          | simp [Entry.spawned] at ht
    | @spawn entryPoint tid hfree hlt hmin =>
        have heq : tid = t := by simpa [Entry.spawned] using ht
        exact heq ▸ hfree
    | terminate | blockReady | blockBlocked | resumeBlocked | resumeOther =>
        simp [Entry.spawned] at ht
  · cases hm with
    | switch hl hq _ => cases hl <;> simp [Entry.spawned] at ht

theorem event_of_spawned {t : Nat} (ht : x.spawned t = true) :
    x.terminated t = false ∧ x.blocked t = false ∧ x.slept t = false := by
  obtain ⟨before, event, after, switched, value⟩ := x
  cases event with
  | tick => simp [Entry.spawned] at ht
  | call c =>
      cases c with
      | spawn => exact ⟨rfl, rfl, rfl⟩
      | _ => simp [Entry.spawned] at ht

theorem event_of_switched (hi : Inv s) (hx : operate w s e = some x) (hsw : x.switched = true)
    (t : Nat) : x.spawned t = false ∧ x.resumed t = false := by
  rcases operate_cases w hi hx with ⟨v, s', hm, rfl⟩ | ⟨i, s', hm, rfl⟩
  · exact absurd hsw (by simp)
  · cases hm with
    | switch hl hq _ => cases hl <;> exact ⟨rfl, rfl⟩

theorem numQuantums_pos (hi : Inv s) (hx : operate w s e = some x) {t : Nat}
    (ht : x.slept t = true) : x.switched = true ∧ 0 < x.numQuantums := by
  rcases operate_cases w hi hx with ⟨v, s', hm, rfl⟩ | ⟨i, s', hm, rfl⟩
  · cases hm with
    | @fail c hf => cases c <;> simp [Entry.slept, Entry.succeeded] at ht
    | @read c v hr => cases c <;> first | exact hr.elim | simp [Entry.slept] at ht
    | spawn | terminate | blockReady | blockBlocked | resumeBlocked | resumeOther =>
        simp [Entry.slept] at ht
  · cases hm with
    | switch hl hq _ =>
        cases hl with
        | sleep hn h0 => exact ⟨rfl, hn⟩
        | tick | block | terminate => simp [Entry.slept] at ht

theorem total_pos {h : List Entry} (hr : Run .unbounded h s) : 1 ≤ s.totalQuantums := by
  induction hr with
  | init hi =>
      obtain ⟨-, rfl⟩ := eq_initial .unbounded hi
      exact le_refl _
  | step hr hx ih =>
      rw [total_step (hr.inv .unbounded) hx]
      split <;> omega

end Uthreads.Histories
