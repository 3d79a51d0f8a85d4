import Uthreads.Histories

namespace Uthreads.Identifiers

open Program SignalMachine AtomicMachine Tables Source Api Effects Tallies Configs Moves Runs
open Histories

variable {w : Width} {s s' s₁ : Scheduler} {e : Event Call} {x : Entry} {xs : List Entry}

def freeIds (s : Scheduler) : List Nat :=
  (List.range maxThreadNum).filter (fun tid => tid ∉ s.threads)

def created (x : Entry) : Option Int :=
  match x.event with
  | .call (.spawn _) => x.value.filter (fun v => v ≠ failureError)
  | _ => none

/-- The ids that the spawns of a run have returned, in the order of the run. -/
def createdIds (xs : List Entry) : List Int := xs.filterMap created

theorem mem_freeIds {tid : Nat} : tid ∈ freeIds s ↔ tid < maxThreadNum ∧ stateOf s tid = none := by
  rw [freeIds, List.mem_filter, List.mem_range, decide_eq_true_eq, mem_threads, not_not]

theorem freeIds_sorted (s : Scheduler) : (freeIds s).Pairwise (fun a b => a < b) :=
  List.pairwise_lt_range.filter _

theorem freeIds_eq {l : List Nat} (hl : l.Pairwise (fun a b => a < b))
    (h : ∀ tid, tid ∈ l ↔ tid < maxThreadNum ∧ stateOf s tid = none) : freeIds s = l := by
  apply (freeIds_sorted s).eq_of_mem_iff hl
  intro tid
  rw [mem_freeIds, h]

theorem freeIds_congr (h : ∀ tid, stateOf s' tid = none ↔ stateOf s tid = none) :
    freeIds s' = freeIds s := by
  apply freeIds_eq (freeIds_sorted s)
  intro tid
  rw [mem_freeIds, h]

theorem freeIds_spawn {tid : Nat} (hfree : stateOf s tid = none) (hlt : tid < maxThreadNum)
    (hmin : ∀ j < tid, stateOf s j ≠ none) : freeIds s = tid :: freeIds (spawn s tid) := by
  apply freeIds_eq
  · rw [List.pairwise_cons]
    refine ⟨fun j hj => ?_, freeIds_sorted _⟩
    rw [mem_freeIds, stateOf_spawn] at hj
    by_contra hle
    rcases Nat.lt_or_eq_of_le (Nat.not_lt.mp hle) with hjt | rfl
    · rw [if_neg (Nat.ne_of_gt hjt)] at hj
      exact hmin j hjt hj.2
    · simp at hj
  · intro j
    rw [List.mem_cons, mem_freeIds, stateOf_spawn]
    by_cases hj : tid = j
    · subst hj
      simp [hfree, hlt]
    · simp [hj, Ne.symm hj]

theorem freeIds_step (hi : Inv s) (hx : operate w s e = some x)
    (hno : ∀ t, x.terminated t = false) :
    (created x = none ∧ freeIds x.after = freeIds s) ∨
      ∃ tid : Nat, created x = some (tid : Int) ∧ freeIds s = tid :: freeIds x.after := by
  have hlive := live_step w hi hx
  simp only [hno, Bool.false_eq_true, or_false] at hlive
  have hsame : (∀ t, x.spawned t = false) → freeIds x.after = freeIds s := by
    intro hs
    apply freeIds_congr
    intro tid
    rw [hlive, hs]
    simp
  rcases operate_cases w hi hx with ⟨v, s', hm, rfl⟩ | ⟨i, s', hm, rfl⟩
  · cases hm with
    | @fail c hf =>
        refine .inl ⟨?_, rfl⟩
        cases c <;> rfl
    | @read c v hr =>
        refine .inl ⟨?_, rfl⟩
        cases c <;> first | rfl | exact hr.elim
    | @spawn entryPoint tid hfree hlt hmin =>
        have hne : (tid : Int) ≠ failureError := by
          rw [failureError]
          omega
        refine .inr ⟨tid, ?_, freeIds_spawn hfree hlt hmin⟩
        simp [created, Option.filter, hne]
    | terminate | blockReady | blockBlocked | resumeBlocked | resumeOther =>
        exact .inl ⟨rfl, hsame fun _ => rfl⟩
  · cases hm with
    | switch hl hq ht =>
        cases hl <;> exact .inl ⟨rfl, hsame fun _ => rfl⟩

theorem freeIds_trace (hi : Inv s) (ht : Trace w s xs s')
    (hno : ∀ x ∈ xs, ∀ t, x.terminated t = false) :
    ∃ ids : List Nat, createdIds xs = ids.map Nat.cast ∧ freeIds s = ids ++ freeIds s' := by
  induction ht with
  | nil s => exact ⟨[], rfl, rfl⟩
  | @cons s s' e x xs hx ht ih =>
      obtain ⟨ids, hids, hfree⟩ := ih (operate_inv w hi hx) fun y hy => hno y (List.mem_cons_of_mem _ hy)
      rcases freeIds_step hi hx (hno x List.mem_cons_self) with ⟨hc, hstep⟩ | ⟨tid, hc, hstep⟩
      · refine ⟨ids, ?_, ?_⟩
        · rw [createdIds, List.filterMap_cons_none hc]
          exact hids
        · rw [← hstep, hfree]
      · refine ⟨tid :: ids, ?_, ?_⟩
        · rw [createdIds, List.filterMap_cons_some hc, List.map_cons]
          exact congrArg _ hids
        · rw [hstep, hfree, List.cons_append]

theorem createdIds_eq_take (hi : Inv s) (ht : Trace w s xs s')
    (hno : ∀ x ∈ xs, ∀ t, x.terminated t = false) :
    createdIds xs = ((freeIds s).take (createdIds xs).length).map Nat.cast := by
  obtain ⟨ids, hids, hfree⟩ := freeIds_trace hi ht hno
  rw [hfree, hids, List.length_map, List.take_left]

def Spawns (es : List (Event Call)) : Prop :=
  ∀ e ∈ es, e = .tick ∨ ∃ entryPoint : Nat, e = .call (.spawn (some entryPoint))

def spawnCount (es : List (Event Call)) : Nat := es.countP (fun e => e ≠ .tick)

theorem spawnCount_cons (e : Event Call) (es : List (Event Call)) :
    spawnCount (e :: es) = spawnCount es + if e = .tick then 0 else 1 := by
  rw [spawnCount, List.countP_cons]
  by_cases he : e = .tick <;> simp [spawnCount, he]

theorem operate_spawn_free {tid : Nat} {ids : List Nat} (hi : Inv s) (hfree : freeIds s = tid :: ids)
    (entryPoint : Nat) :
    operate w s (.call (.spawn (some entryPoint))) =
      some ⟨s, .call (.spawn (some entryPoint)), spawn s tid, false, some (tid : Int)⟩ := by
  have hmem : tid ∈ freeIds s := by simp [hfree]
  obtain ⟨hlt, hst⟩ := mem_freeIds.mp hmem
  refine operate_spawn w hi entryPoint tid hst hlt fun j hj hnone => ?_
  have hj' : j ∈ tid :: ids := hfree ▸ mem_freeIds.mpr ⟨hj.trans hlt, hnone⟩
  have hsorted := List.pairwise_cons.mp (hfree ▸ freeIds_sorted s)
  rcases List.mem_cons.mp hj' with rfl | hj'
  · exact Nat.lt_irrefl _ hj
  · exact Nat.lt_asymm hj (hsorted.1 j hj')

theorem exists_step (hi : Inv s)
    (he : e = .tick ∨ ∃ entryPoint : Nat, e = .call (.spawn (some entryPoint)))
    (hroom : e ≠ .tick → freeIds s ≠ []) : ∃ x, operate w s e = some x ∧
      (∀ t, x.terminated t = false) ∧ (created x = none ↔ e = .tick) := by
  rcases he with rfl | ⟨entryPoint, rfl⟩
  · obtain ⟨x, hx, -⟩ := operate_tick w hi
    have hevent := operate_event w hx
    refine ⟨x, hx, fun t => ?_, ?_⟩
    · rw [Entry.terminated, hevent]
    · rw [created, hevent]
      simp
  · obtain ⟨tid, ids, hfree⟩ := List.exists_cons_of_ne_nil (hroom (by simp))
    have hne : (tid : Int) ≠ failureError := by
      rw [failureError]
      omega
    refine ⟨_, operate_spawn_free hi hfree entryPoint, fun _ => rfl, ?_⟩
    simp [created, Option.filter, hne]

theorem exists_spawns {es : List (Event Call)} (hi : Inv s) (hes : Spawns es)
    (hlen : spawnCount es ≤ (freeIds s).length) :
    ∃ xs s', Trace w s xs s' ∧ xs.map (fun x => x.event) = es ∧
      (createdIds xs).length = spawnCount es ∧
      ∀ x ∈ xs, ∀ t, x.terminated t = false := by
  induction es generalizing s with
  | nil => exact ⟨[], s, .nil s, rfl, rfl, by simp⟩
  | cons e es ih =>
      have hes' : Spawns es := fun e' he' => hes e' (List.mem_cons_of_mem _ he')
      have hroom : e ≠ .tick → freeIds s ≠ [] := by
        intro he hnil
        rw [spawnCount_cons, if_neg he, hnil] at hlen
        exact absurd hlen (by simp)
      obtain ⟨x, hx, hno, hc⟩ := exists_step (w := w) hi (hes e List.mem_cons_self) hroom
      have hinv := operate_inv w hi hx
      have hmap : ∀ xs : List Entry, xs.map (fun x => x.event) = es →
          (x :: xs).map (fun x => x.event) = e :: es := by
        intro xs h
        rw [List.map_cons, h, operate_event w hx]
      rcases freeIds_step hi hx hno with ⟨hnone, hfree⟩ | ⟨tid, hsome, hfree⟩
      · have hcount : spawnCount (e :: es) = spawnCount es := by
          rw [spawnCount_cons, if_pos (hc.mp hnone), Nat.add_zero]
        rw [hcount, ← hfree] at hlen
        obtain ⟨xs, s', ht, hxs, hids, hall⟩ := ih hinv hes' hlen
        refine ⟨x :: xs, s', .cons hx ht, hmap xs hxs, ?_, List.forall_mem_cons.mpr ⟨hno, hall⟩⟩
        rw [createdIds, List.filterMap_cons_none hnone, hcount]
        exact hids
      · have hne : e ≠ .tick := fun he => absurd (hsome.symm.trans (hc.mpr he)) (by simp)
        have hcount : spawnCount (e :: es) = spawnCount es + 1 := by
          rw [spawnCount_cons, if_neg hne]
        rw [hcount, hfree] at hlen
        obtain ⟨xs, s', ht, hxs, hids, hall⟩ := ih hinv hes' (Nat.le_of_succ_le_succ hlen)
        refine ⟨x :: xs, s', .cons hx ht, hmap xs hxs, ?_, List.forall_mem_cons.mpr ⟨hno, hall⟩⟩
        rw [createdIds, List.filterMap_cons_some hsome, hcount, List.length_cons]
        exact congrArg _ hids

theorem terminated_live (hi : Inv s) (hx : operate w s e = some x) {t : Nat}
    (ht : x.terminated t = true) : stateOf s t ≠ none := by
  rcases operate_cases w hi hx with ⟨v, s', hm, rfl⟩ | ⟨i, s', hm, rfl⟩
  · cases hm with
    | @fail c hf => cases c <;> simp [Entry.terminated, Entry.succeeded] at ht
    | @read c v hr => cases c <;> first | exact hr.elim | simp [Entry.terminated] at ht
    | @terminate tid hl h0 hr =>
        simp only [Entry.terminated, Bool.and_eq_true, beq_iff_eq, toInt_of_live hi.tables hl,
          Nat.cast_inj] at ht
        exact ht.1 ▸ hl
    | spawn | blockReady | blockBlocked | resumeBlocked | resumeOther =>
        simp [Entry.terminated] at ht
  · cases hm with
    | switch hl hq hnext =>
        cases hl with
        | @terminate tid hr h0 =>
            simp only [Entry.terminated, Bool.and_eq_true, beq_iff_eq,
              toInt_of_running hi.tables hr, Nat.cast_inj] at ht
            rw [← ht.1, hi.tables.stateOf_running]
            simp
        | tick | block | sleep => simp [Entry.terminated] at ht

theorem live_trace (hi : Inv s) (ht : Trace w s xs s') (hno : ∀ x ∈ xs, ∀ t, x.spawned t = false)
    (t : Nat) : stateOf s' t = none ↔ stateOf s t = none ∨ ∃ x ∈ xs, x.terminated t = true := by
  induction ht with
  | nil s => simp
  | @cons s s' e x xs hx ht ih =>
      rw [ih (operate_inv w hi hx) fun y hy => hno y (List.mem_cons_of_mem _ hy),
        live_step w hi hx, hno x List.mem_cons_self]
      simp [or_assoc]

theorem terminated_lt (hi : Inv s) (ht : Trace w s xs s') {t : Nat}
    (hterm : ∃ x ∈ xs, x.terminated t = true) : t < maxThreadNum := by
  induction ht with
  | nil s => simp at hterm
  | @cons s s' e x xs hx ht ih =>
      obtain ⟨y, hy, hyt⟩ := hterm
      rcases List.mem_cons.mp hy with rfl | hy
      · exact (hi.tables.tally t).bound (terminated_live hi hx hyt)
      · exact ih (operate_inv w hi hx) ⟨y, hy, hyt⟩

theorem freeIds_terminated (hi : Inv s) (hfull : ∀ tid < maxThreadNum, tid ∈ s.threads)
    (ht : Trace w s xs s') (hno : ∀ x ∈ xs, ∀ t, x.spawned t = false) {D : Finset Nat}
    (hD : ∀ t, t ∈ D ↔ ∃ x ∈ xs, x.terminated t = true) : freeIds s' = D.sort := by
  apply freeIds_eq D.sortedLT_sort.pairwise
  intro tid
  rw [Finset.mem_sort, hD, live_trace hi ht hno]
  constructor
  · exact fun h => ⟨terminated_lt hi ht h, .inr h⟩
  · rintro ⟨hlt, hnone | h⟩
    · exact absurd hnone ((mem_threads s tid).mp (hfull tid hlt))
    · exact h

/-- The table is bounded, and ids are given out from the smallest free one on. -/
structure Allocates (w : Width) (s : Scheduler) : Prop where
  bound : ∀ tid ∈ s.threads, tid < maxThreadNum
  size : s.threads.size ≤ maxThreadNum
  setThread : ∀ s₁ : Scheduler, s₁.threads = s.threads → ∀ tid thread,
    (setThread tid thread).run s₁ = .ret 0 { s₁ with threads := s₁.threads.insert tid thread }
  smallest : ∀ xs s', Trace w s xs s' → (∀ x ∈ xs, ∀ t, x.terminated t = false) →
    createdIds xs = ((freeIds s).take (createdIds xs).length).map Nat.cast
  succeeds : ∀ es, Spawns es → spawnCount es ≤ (freeIds s).length →
    ∃ xs s', Trace w s xs s' ∧ xs.map (fun x => x.event) = es ∧
      createdIds xs = ((freeIds s).take (spawnCount es)).map Nat.cast
  refill : s.threads.size = maxThreadNum → ∀ xs s₁ ys s₂ (D : Finset Nat),
    Trace w s xs s₁ → (∀ x ∈ xs, ∀ t, x.spawned t = false) →
    (∀ t, t ∈ D ↔ ∃ x ∈ xs, x.terminated t = true) →
    Trace w s₁ ys s₂ → (∀ y ∈ ys, ∀ t, y.terminated t = false) →
    (createdIds ys).length = D.card → createdIds ys = D.sort.map Nat.cast

theorem run_setThread {s₁ : Scheduler} (hsize : s₁.threads.size ≤ maxThreadNum) (tid : Nat)
    (thread : Thread) :
    (setThread tid thread).run s₁ = .ret 0 { s₁ with threads := s₁.threads.insert tid thread } := by
  simp [setThread, Nat.not_lt.mpr hsize]

end Uthreads.Identifiers
