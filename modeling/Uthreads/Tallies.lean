import Uthreads.Effects

namespace Uthreads.Tallies

open Tables Effects

variable (w : Width)

theorem threads_mark (s : Scheduler) (tid j : Nat) (st : State) :
    (mark s tid st).threads[j]? =
      if tid = j then s.threads[j]?.map (fun t => { t with state := st }) else s.threads[j]? :=
  Maps.getElem?_modify _ _ _ _

theorem threads_mark_of_ne (s : Scheduler) {tid j : Nat} (hj : j ≠ tid) (st : State) :
    (mark s tid st).threads[j]? = s.threads[j]? := by
  rw [threads_mark, if_neg hj.symm]

@[simp] theorem stateOf_mark (s : Scheduler) (tid j : Nat) (st : State) :
    stateOf (mark s tid st) j = if tid = j then (stateOf s j).map (fun _ => st) else stateOf s j := by
  rw [stateOf, threads_mark, stateOf]
  split
  · rw [Option.map_map, Option.map_map]
    rfl
  · rfl

@[simp] theorem stateOf_drop (s : Scheduler) (tid j : Nat) :
    stateOf (drop s tid) j = if tid = j then none else stateOf s j := by
  simp only [stateOf, drop, Std.ExtTreeMap.getElem?_erase, compare_eq_iff_eq]
  split <;> simp

@[simp] theorem stateOf_spawn (s : Scheduler) (tid j : Nat) :
    stateOf (spawn s tid) j = if tid = j then some .ready else stateOf s j := by
  simp only [stateOf, spawn, Std.ExtTreeMap.getElem?_insert, compare_eq_iff_eq]
  split <;> simp

@[simp] theorem stateOf_dispatch (s : Scheduler) (tid j : Nat) (rest : List Nat) :
    stateOf (dispatch w s tid rest) j =
      if tid = j then (stateOf s j).map (fun _ => .running) else stateOf s j := by
  simp only [stateOf, dispatch, Maps.getElem?_modify]
  split <;> simp [Function.comp_def]

@[simp] theorem stateOf_wake (s : Scheduler) (j : Nat) : stateOf (wake w s) j = stateOf s j := rfl

@[simp] theorem stateOf_enqueue (s : Scheduler) (tid j : Nat) :
    stateOf (enqueue s tid) j = if tid = j then (stateOf s j).map (fun _ => .ready) else stateOf s j :=
  stateOf_mark s tid j .ready

@[simp] theorem stateOf_block (s : Scheduler) (tid j : Nat) :
    stateOf (block s tid) j = if tid = j then (stateOf s j).map (fun _ => .blocked) else stateOf s j :=
  stateOf_mark s tid j .blocked

@[simp] theorem stateOf_unblock (s : Scheduler) (tid j : Nat) :
    stateOf (unblock s tid) j = if tid = j then (stateOf s j).map (fun _ => .ready) else stateOf s j :=
  stateOf_mark s tid j .ready

@[simp] theorem stateOf_sleep (s : Scheduler) (tid n j : Nat) :
    stateOf (sleep w s tid n) j = if tid = j then (stateOf s j).map (fun _ => .ready) else stateOf s j :=
  stateOf_mark s tid j .ready

@[simp] theorem stateOf_unqueue (s : Scheduler) (tid j : Nat) :
    stateOf (unqueue s tid) j = stateOf s j := rfl

@[simp] theorem stateOf_terminate (s : Scheduler) (tid j : Nat) :
    stateOf (terminate s tid) j = if tid = j then none else stateOf s j :=
  stateOf_drop s tid j

theorem mem_threads (s : Scheduler) (tid : Nat) : tid ∈ s.threads ↔ stateOf s tid ≠ none := by
  simp [stateOf]

theorem exists_thread {s : Scheduler} {tid : Nat} {st : State} (h : stateOf s tid = some st) :
    ∃ t, s.threads[tid]? = some t ∧ t.state = st := by
  simpa [stateOf] using h

/-- What the five tables say about one thread agrees. The thread on the
processor is r; it is none between the moment a thread leaves and the dispatch
of the next. -/
structure Tally (s : Scheduler) (r : Option Nat) (tid : Nat) : Prop where
  running : stateOf s tid = some .running ↔ r = some tid
  ready : tid ∈ s.readyThreads ↔ stateOf s tid = some .ready ∧ tid ∉ s.sleepingThreads
  blocked : tid ∈ s.blockedThreads ↔ stateOf s tid = some .blocked
  sleeping : tid ∈ s.sleepingThreads → stateOf s tid ≠ none ∧ r ≠ some tid
  bound : stateOf s tid ≠ none → tid < maxThreadNum

structure Wf (s : Scheduler) (r : Option Nat) : Prop where
  nodup : s.readyThreads.Nodup
  tally : ∀ tid, Tally s r tid
  main : stateOf s 0 ≠ none ∧ stateOf s 0 ≠ some .blocked ∧ 0 ∉ s.sleepingThreads

structure Same (s s' : Scheduler) (tid : Nat) : Prop where
  state : stateOf s' tid = stateOf s tid
  ready : tid ∈ s'.readyThreads ↔ tid ∈ s.readyThreads
  blocked : tid ∈ s'.blockedThreads ↔ tid ∈ s.blockedThreads
  sleeping : tid ∈ s'.sleepingThreads ↔ tid ∈ s.sleepingThreads

variable {s s' : Scheduler} {r r' : Option Nat} {tid : Nat}

theorem Tally.of_same (h : Tally s r tid) (hs : Same s s' tid)
    (hr : r' = some tid ↔ r = some tid) : Tally s' r' tid where
  running := by rw [hs.state, hr, h.running]
  ready := by rw [hs.ready, hs.state, hs.sleeping, h.ready]
  blocked := by rw [hs.blocked, hs.state, h.blocked]
  sleeping := by
    rw [hs.sleeping, hs.state, ne_eq (r' : Option Nat), hr]
    exact h.sleeping
  bound := by
    rw [hs.state]
    exact h.bound

/-- A step that touches the tables at one thread keeps the others in order. -/
theorem Wf.update (h : Wf s r) (tid : Nat) (hs : ∀ j, j ≠ tid → Same s s' j)
    (hr : ∀ j, j ≠ tid → (r' = some j ↔ r = some j)) (ht : Tally s' r' tid)
    (hnd : s'.readyThreads.Nodup)
    (hmain : tid = 0 → stateOf s' 0 ≠ none ∧ stateOf s' 0 ≠ some .blocked ∧ 0 ∉ s'.sleepingThreads) :
    Wf s' r' where
  nodup := hnd
  tally := by
    intro j
    by_cases hj : j = tid
    · exact hj ▸ ht
    · exact (h.tally j).of_same (hs j hj) (hr j hj)
  main := by
    by_cases h0 : tid = 0
    · exact hmain h0
    · have h0 := hs 0 (Ne.symm h0)
      rw [h0.state, h0.sleeping]
      exact h.main

theorem mem_wake_sleeping (tid : Nat) :
    tid ∈ (wake w s).sleepingThreads ↔
      ∃ deadline, s.sleepingThreads[tid]? = some deadline ∧ expired w s deadline = false := by
  rw [Maps.mem_iff]
  simp [wake, Option.filter_eq_some_iff]

theorem mem_wake_ready (tid : Nat) :
    tid ∈ (wake w s).readyThreads ↔ tid ∈ s.readyThreads ∨ stateOf s tid = some .ready ∧
      ∃ deadline, s.sleepingThreads[tid]? = some deadline ∧ expired w s deadline = true := by
  simp only [wake, List.mem_append, Maps.mem_keys_filter, Bool.and_eq_true, decide_eq_true_eq]
  tauto

theorem mem_of_mem_wake (h : tid ∈ (wake w s).sleepingThreads) : tid ∈ s.sleepingThreads := by
  obtain ⟨deadline, hd, -⟩ := (mem_wake_sleeping w tid).mp h
  exact (Maps.mem_iff _).mpr ⟨deadline, hd⟩

theorem Tally.wake (h : Tally s r tid) : Tally (wake w s) r tid where
  running := h.running
  ready := by
    rw [mem_wake_ready, mem_wake_sleeping, stateOf_wake, h.ready, Maps.mem_iff]
    constructor
    · rintro (⟨hst, hs⟩ | ⟨hst, deadline, hd, he⟩)
      · exact ⟨hst, fun ⟨deadline, hd, _⟩ => hs ⟨deadline, hd⟩⟩
      · refine ⟨hst, ?_⟩
        rintro ⟨deadline', hd', he'⟩
        rw [hd, Option.some.injEq] at hd'
        subst hd'
        rw [he] at he'
        exact absurd he' (by simp)
    · rintro ⟨hst, hs⟩
      by_cases hd : ∃ deadline, s.sleepingThreads[tid]? = some deadline
      · obtain ⟨deadline, hd⟩ := hd
        have he : expired w s deadline = true := by
          by_contra he
          exact hs ⟨deadline, hd, by simpa using he⟩
        exact .inr ⟨hst, deadline, hd, he⟩
      · exact .inl ⟨hst, hd⟩
  blocked := h.blocked
  sleeping := fun hs => h.sleeping (mem_of_mem_wake w hs)
  bound := h.bound

theorem Wf.wake (h : Wf s r) : Wf (wake w s) r where
  nodup := by
    refine List.nodup_append.mpr ⟨h.nodup, Maps.keys_filter_nodup _ _, ?_⟩
    rintro a ha b hb rfl
    obtain ⟨deadline, hd, -⟩ := (Maps.mem_keys_filter _ _ _).mp hb
    exact ((h.tally a).ready.mp ha).2 ((Maps.mem_iff _).mpr ⟨deadline, hd⟩)
  tally := fun tid => (h.tally tid).wake w
  main := ⟨h.main.1, h.main.2.1, fun ht => h.main.2.2 (mem_of_mem_wake w ht)⟩

theorem Wf.stateOf_running (h : Wf s (some tid)) : stateOf s tid = some .running :=
  (h.tally tid).running.mpr rfl

theorem Wf.not_sleeping (h : Wf s (some tid)) : tid ∉ s.sleepingThreads :=
  fun hs => ((h.tally tid).sleeping hs).2 rfl

theorem Wf.not_ready (h : Wf s (some tid)) : tid ∉ s.readyThreads := by
  rw [(h.tally tid).ready, h.stateOf_running]
  simp

theorem Wf.not_blocked (h : Wf s (some tid)) : tid ∉ s.blockedThreads := by
  rw [(h.tally tid).blocked, h.stateOf_running]
  simp

theorem Wf.lt_max (h : Wf s (some tid)) : tid < maxThreadNum :=
  (h.tally tid).bound (by simp [h.stateOf_running])

theorem Wf.lt_of_mem (h : Wf s r) {t : Nat} (ht : t ∈ s.threads) : t < maxThreadNum :=
  (h.tally t).bound ((mem_threads s t).mp ht)

theorem Wf.not_live_of_le (h : Wf s r) {t : Nat} (ht : maxThreadNum ≤ t) : stateOf s t = none := by
  by_contra hl
  exact Nat.not_lt.mpr ht ((h.tally t).bound hl)

theorem Wf.length_ready_le (h : Wf s (some tid)) : s.readyThreads.length ≤ 99 := by
  have hsub : s.readyThreads ⊆ (List.range maxThreadNum).erase tid := by
    intro t ht
    have hst := ((h.tally t).ready.mp ht).1
    have hlt := (h.tally t).bound (by rw [hst]; simp)
    have hne : t ≠ tid := ne_of_mem_of_not_mem ht h.not_ready
    exact (List.mem_erase_of_ne hne).mpr (List.mem_range.mpr hlt)
  have hle := (h.nodup.subperm hsub).length_le
  rwa [List.length_erase_of_mem (List.mem_range.mpr h.lt_max), List.length_range] at hle

/-- Leaving, seen from the leaving thread: it is entered in some table, and the
tables at the other threads stay. -/
theorem Wf.leave (h : Wf s (some tid)) (hs : ∀ j, j ≠ tid → Same s s' j)
    (ht : Tally s' none tid) (hnd : s'.readyThreads.Nodup)
    (hmain : tid = 0 → stateOf s' 0 ≠ none ∧ stateOf s' 0 ≠ some .blocked ∧ 0 ∉ s'.sleepingThreads) :
    Wf s' none :=
  h.update tid hs (fun j hj => by simp [Ne.symm hj]) ht hnd hmain

theorem Wf.enqueue (h : Wf s (some tid)) : Wf (enqueue s tid) none := by
  refine h.leave (fun j hj => ?_) ?_ ?_ ?_
  · constructor <;> simp [h.not_sleeping, hj, Ne.symm hj]
  · constructor <;> simp [h.stateOf_running, h.not_sleeping, h.not_blocked, h.lt_max]
  · rw [enqueue_readyThreads, if_neg h.not_sleeping]
    exact List.concat_eq_append ▸ h.nodup.concat h.not_ready
  · rintro rfl
    simp [h.stateOf_running, h.not_sleeping]

theorem Wf.block (h : Wf s (some tid)) (h0 : tid ≠ 0) : Wf (block s tid) none := by
  refine h.leave (fun j hj => ?_) ?_ h.nodup (fun he => absurd he h0)
  · constructor <;> simp [Ne.symm hj]
  · constructor <;> simp [h.stateOf_running, h.not_sleeping, h.not_ready, h.lt_max]

theorem Wf.sleep (h : Wf s (some tid)) (h0 : tid ≠ 0) (n : Nat) : Wf (sleep w s tid n) none := by
  refine h.leave (fun j hj => ?_) ?_ h.nodup (fun he => absurd he h0)
  · constructor <;> simp [Ne.symm hj]
  · constructor <;> simp [h.stateOf_running, h.not_blocked, h.not_ready, h.lt_max]

theorem Wf.drop (h : Wf s (some tid)) (h0 : tid ≠ 0) : Wf (drop s tid) none := by
  refine h.leave (fun j hj => ?_) ?_ h.nodup (fun he => absurd he h0)
  · constructor <;> simp [Ne.symm hj]
  · constructor <;> simp [h.not_sleeping, h.not_blocked, h.not_ready]

theorem Wf.main_ready (h : Wf s none) : 0 ∈ s.readyThreads := by
  obtain ⟨hl, hb, hs⟩ := h.main
  rw [(h.tally 0).ready]
  refine ⟨?_, hs⟩
  cases h0 : stateOf s 0 with
  | none => exact absurd h0 hl
  | some st =>
      cases st with
      | running => exact absurd ((h.tally 0).running.mp h0) (by simp)
      | blocked => exact absurd h0 hb
      | ready => rfl

theorem Wf.exists_next (h : Wf s none) :
    ∃ tid rest t, s.readyThreads = tid :: rest ∧ s.threads[tid]? = some t := by
  obtain ⟨tid, rest, hq⟩ := List.exists_cons_of_ne_nil (List.ne_nil_of_mem h.main_ready)
  have hr : tid ∈ s.readyThreads := by simp [hq]
  obtain ⟨t, ht, -⟩ := exists_thread ((h.tally tid).ready.mp hr).1
  exact ⟨tid, rest, t, hq, ht⟩

theorem Wf.dispatch (h : Wf s none) {rest : List Nat} (hq : s.readyThreads = tid :: rest) :
    Wf (dispatch w s tid rest) (some tid) := by
  obtain ⟨hnt, hnr⟩ := List.nodup_cons.mp (hq ▸ h.nodup)
  obtain ⟨hst, hns⟩ := (h.tally tid).ready.mp (by simp [hq])
  have hnb : tid ∉ s.blockedThreads := by simp [(h.tally tid).blocked, hst]
  have hlt := (h.tally tid).bound (by simp [hst])
  refine h.update tid (fun j hj => ?_) (fun j hj => by simp [Ne.symm hj]) ?_ hnr ?_
  · constructor <;> simp [hq, hj, Ne.symm hj]
  · constructor <;> simp [hst, hnt, hnb, hns, hlt]
  · rintro rfl
    simp [hst, hns]

theorem Wf.ready_tally (h : Wf s r) (hst : stateOf s tid = some .ready) :
    r ≠ some tid ∧ tid ∉ s.blockedThreads ∧ tid < maxThreadNum := by
  refine ⟨fun hr => ?_, ?_, (h.tally tid).bound (by simp [hst])⟩
  · simp [(h.tally tid).running.mpr hr] at hst
  · simp [(h.tally tid).blocked, hst]

theorem Wf.blocked_tally (h : Wf s r) (hst : stateOf s tid = some .blocked) :
    r ≠ some tid ∧ tid ∉ s.readyThreads ∧ tid < maxThreadNum := by
  refine ⟨fun hr => ?_, ?_, (h.tally tid).bound (by simp [hst])⟩
  · simp [(h.tally tid).running.mpr hr] at hst
  · simp [(h.tally tid).ready, hst]

theorem Wf.spawn (h : Wf s r) (hfree : stateOf s tid = none) (hlt : tid < maxThreadNum) :
    Wf (spawn s tid) r := by
  have hnr : tid ∉ s.readyThreads := by simp [(h.tally tid).ready, hfree]
  have hnb : tid ∉ s.blockedThreads := by simp [(h.tally tid).blocked, hfree]
  have hns : tid ∉ s.sleepingThreads := fun hs => ((h.tally tid).sleeping hs).1 hfree
  have hr : r ≠ some tid := fun hr => by simp [(h.tally tid).running.mpr hr] at hfree
  refine h.update tid (fun j hj => ?_) (fun _ _ => Iff.rfl) ?_ ?_ ?_
  · constructor <;> simp [hj, Ne.symm hj]
  · constructor <;> simp [hr, hnb, hns, hlt]
  · rw [spawn_readyThreads]
    exact List.concat_eq_append ▸ h.nodup.concat hnr
  · rintro rfl
    exact absurd hfree h.main.1

theorem Wf.block_other (h : Wf s r) (hst : stateOf s tid = some .ready) (h0 : tid ≠ 0) :
    Wf (unqueue (Effects.block s tid) tid) r := by
  obtain ⟨hr, -, hlt⟩ := h.ready_tally hst
  refine h.update tid (fun j hj => ?_) (fun _ _ => Iff.rfl) ?_ (h.nodup.filter _)
    (fun he => absurd he h0)
  · constructor <;> simp [hj, Ne.symm hj]
  · constructor <;> simp [hst, hr, hlt]

theorem Wf.unblock (h : Wf s r) (hst : stateOf s tid = some .blocked) : Wf (unblock s tid) r := by
  obtain ⟨hr, hnr, hlt⟩ := h.blocked_tally hst
  refine h.update tid (fun j hj => ?_) (fun _ _ => Iff.rfl) ?_ ?_ ?_
  · constructor <;> by_cases hs : tid ∈ s.sleepingThreads <;> simp [hs, hj, Ne.symm hj]
  · constructor <;> by_cases hs : tid ∈ s.sleepingThreads <;> simp [hs, hst, hr, hlt, hnr]
  · rw [unblock_readyThreads, enqueue_readyThreads]
    split
    · exact h.nodup
    · exact List.concat_eq_append ▸ h.nodup.concat hnr
  · rintro rfl
    exact absurd hst h.main.2.1

theorem Wf.terminate (h : Wf s r) (hr : r ≠ some tid) (h0 : tid ≠ 0) : Wf (terminate s tid) r := by
  refine h.update tid (fun j hj => ?_) (fun _ _ => Iff.rfl) ?_ (h.nodup.filter _)
    (fun he => absurd he h0)
  · constructor <;> simp [hj, Ne.symm hj]
  · constructor <;> simp [hr]

end Uthreads.Tallies
