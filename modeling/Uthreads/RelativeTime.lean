import Uthreads.Preparations

namespace Uthreads.RelativeTime

open Program SignalMachine AtomicMachine Tables Source Api Effects Tallies Configs Moves Runs
open Histories Outcomes Preparations

variable {s s' s₁ : Scheduler} {e : Event Call} {x : Entry} {xs : List Entry} {tid : Nat}

/-- The quantums, one more, that a sleeper has still to wait. -/
def remaining (s : Scheduler) (tid : Nat) : Option Int :=
  s.sleepingThreads[tid]?.map (fun d : Nat => (d : Int) - s.totalQuantums)

/-- The tables agree on the states, on the queue and on the times that are left.
They need not agree on the time, nor on the quantums the threads have had. -/
structure Similar (s s' : Scheduler) : Prop where
  running : s'.runningThreadTid = s.runningThreadTid
  ready : s'.readyThreads = s.readyThreads
  state : ∀ tid, stateOf s' tid = stateOf s tid
  remaining : ∀ tid, remaining s' tid = remaining s tid

theorem mem_sleeping (s : Scheduler) (tid : Nat) :
    tid ∈ s.sleepingThreads ↔ remaining s tid ≠ none := by
  rw [remaining, ne_eq, Option.map_eq_none_iff, Std.ExtTreeMap.mem_iff_isSome_getElem?,
    Option.isSome_iff_ne_none]

theorem Similar.mem_sleeping (h : Similar s s') (tid : Nat) :
    tid ∈ s'.sleepingThreads ↔ tid ∈ s.sleepingThreads := by
  rw [RelativeTime.mem_sleeping, RelativeTime.mem_sleeping, h.remaining]

theorem remaining_wake (s : Scheduler) (tid : Nat) :
    remaining (wake .unbounded s) tid = (remaining s tid).filter (fun r => 1 < r) := by
  rw [remaining, wake_sleepingThreads, Maps.getElem?_filter, wake_totalQuantums, remaining]
  cases s.sleepingThreads[tid]? with
  | none => rfl
  | some d =>
      have hexp : (!expired .unbounded s d) = decide (1 < (d : Int) - s.totalQuantums) := by
        rw [Bool.eq_iff_iff, not_expired, decide_eq_true_eq]
        omega
      simp only [Option.map_some, Option.filter_some, hexp]
      split <;> rfl

theorem mem_woken (s : Scheduler) (tid : Nat) :
    tid ∈ (s.sleepingThreads.toList.filter
        (fun e => expired .unbounded s e.2 && decide (stateOf s e.1 = some .ready))).map Prod.fst ↔
      (∃ r, remaining s tid = some r ∧ r ≤ 1) ∧ stateOf s tid = some .ready := by
  rw [Maps.mem_keys_filter]
  simp only [Bool.and_eq_true, decide_eq_true_eq, remaining, Option.map_eq_some_iff]
  constructor
  · rintro ⟨d, hd, hexp, hst⟩
    refine ⟨⟨_, ⟨d, hd, rfl⟩, ?_⟩, hst⟩
    have hlt := mt (not_expired s d).mpr (by simp [hexp])
    omega
  · rintro ⟨⟨r, ⟨d, hd, rfl⟩, hr⟩, hst⟩
    refine ⟨d, hd, ?_, hst⟩
    have hlt := mt (not_expired s d).mp (by omega)
    simpa using hlt

theorem Similar.wake (h : Similar s s') : Similar (wake .unbounded s) (wake .unbounded s') where
  running := h.running
  ready := by
    rw [wake_readyThreads, wake_readyThreads, h.ready]
    congr 1
    apply (Maps.keys_filter_sorted _ _).eq_of_mem_iff (Maps.keys_filter_sorted _ _)
    intro tid
    rw [mem_woken, mem_woken, h.remaining, h.state]
  state := h.state
  remaining := by
    intro tid
    rw [remaining_wake, remaining_wake, h.remaining]

theorem Similar.enqueue (h : Similar s s') (tid : Nat) : Similar (enqueue s tid) (enqueue s' tid) where
  running := h.running
  ready := by
    rw [enqueue_readyThreads, enqueue_readyThreads, h.ready]
    simp only [h.mem_sleeping]
  state := by
    intro j
    rw [stateOf_enqueue, stateOf_enqueue, h.state]
  remaining := h.remaining

theorem Similar.block (h : Similar s s') (tid : Nat) : Similar (block s tid) (block s' tid) where
  running := h.running
  ready := h.ready
  state := by
    intro j
    rw [stateOf_block, stateOf_block, h.state]
  remaining := h.remaining

theorem Similar.unqueue (h : Similar s s') (tid : Nat) : Similar (unqueue s tid) (unqueue s' tid) where
  running := h.running
  ready := by rw [unqueue_readyThreads, unqueue_readyThreads, h.ready]
  state := h.state
  remaining := h.remaining

theorem Similar.unblock (h : Similar s s') (tid : Nat) : Similar (unblock s tid) (unblock s' tid) where
  running := h.running
  ready := (h.enqueue tid).ready
  state := (h.enqueue tid).state
  remaining := h.remaining

theorem Similar.drop (h : Similar s s') (tid : Nat) : Similar (drop s tid) (drop s' tid) where
  running := h.running
  ready := h.ready
  state := by
    intro j
    rw [stateOf_drop, stateOf_drop, h.state]
  remaining := h.remaining

theorem remaining_terminate (s : Scheduler) (tid j : Nat) :
    remaining (terminate s tid) j = if tid = j then none else remaining s j := by
  simp only [remaining, terminate_sleepingThreads, Std.ExtTreeMap.getElem?_erase, compare_eq_iff_eq]
  split <;> rfl

theorem Similar.terminate (h : Similar s s') (tid : Nat) :
    Similar (terminate s tid) (terminate s' tid) where
  running := h.running
  ready := by rw [terminate_readyThreads, terminate_readyThreads, h.ready]
  state := (h.drop tid).state
  remaining := by
    intro j
    rw [remaining_terminate, remaining_terminate, h.remaining]

theorem Similar.spawn (h : Similar s s') (tid : Nat) : Similar (spawn s tid) (spawn s' tid) where
  running := h.running
  ready := by rw [spawn_readyThreads, spawn_readyThreads, h.ready]
  state := by
    intro j
    rw [stateOf_spawn, stateOf_spawn, h.state]
  remaining := h.remaining

theorem remaining_sleep (hT : 0 ≤ s.totalQuantums) {n : Int32} (hn : 0 < n.toInt) (tid j : Nat) :
    remaining (sleep .unbounded s tid (sizeOfInt n.toInt)) j =
      if tid = j then some (n.toInt + 1) else remaining s j := by
  have hsize := sizeOfInt_of_pos hn
  rw [remaining, sleep_sleepingThreads, Std.ExtTreeMap.getElem?_insert, sleep_totalQuantums]
  simp only [compare_eq_iff_eq, Width.unbounded]
  split
  · rw [Option.map_some, Option.some.injEq]
    omega
  · rfl

theorem Similar.sleep (h : Similar s s') (hT : 0 ≤ s.totalQuantums) (hT' : 0 ≤ s'.totalQuantums)
    {n : Int32} (hn : 0 < n.toInt) (tid : Nat) :
    Similar (sleep .unbounded s tid (sizeOfInt n.toInt))
      (sleep .unbounded s' tid (sizeOfInt n.toInt)) where
  running := h.running
  ready := h.ready
  state := by
    intro j
    rw [stateOf_sleep, stateOf_sleep, h.state]
  remaining := by
    intro j
    rw [remaining_sleep hT hn, remaining_sleep hT' hn, h.remaining]

theorem remaining_dispatch (s : Scheduler) (tid : Nat) (rest : List Nat) (j : Nat) :
    remaining (dispatch .unbounded s tid rest) j = (remaining s j).map (fun r => r - 1) := by
  rw [remaining, remaining, dispatch_sleepingThreads, Option.map_map]
  congr 1
  funext d
  simp only [dispatch_totalQuantums, Width.unbounded, id, Function.comp_apply]
  omega

theorem Similar.dispatch (h : Similar s s') (tid : Nat) (rest : List Nat) :
    Similar (dispatch .unbounded s tid rest) (dispatch .unbounded s' tid rest) where
  running := rfl
  ready := rfl
  state := by
    intro j
    rw [stateOf_dispatch, stateOf_dispatch, h.state]
  remaining := by
    intro j
    rw [remaining_dispatch, remaining_dispatch, h.remaining]

def readsClock : Event Call → Bool
  | .call .getTotalQuantums | .call (.getQuantums _) => true
  | .call _ | .tick => false

theorem Similar.leave (h : Similar s s') (hT : 0 ≤ s.totalQuantums) (hT' : 0 ≤ s'.totalQuantums)
    (hl : Leave .unbounded s e s₁) : ∃ s₁', Leave .unbounded s' e s₁' ∧ Similar s₁ s₁' := by
  cases hl with
  | tick => exact ⟨_, .tick, h.running.symm ▸ h.wake.enqueue _⟩
  | block hr h0 =>
      refine ⟨_, .block (hr.trans h.running.symm) (h.running.symm ▸ h0), ?_⟩
      exact h.running.symm ▸ (h.block _).wake
  | sleep hn h0 =>
      refine ⟨_, .sleep hn (h.running.symm ▸ h0), ?_⟩
      exact h.running.symm ▸ (h.sleep hT hT' hn _).wake
  | terminate hr h0 =>
      refine ⟨_, .terminate (hr.trans h.running.symm) (h.running.symm ▸ h0), ?_⟩
      exact h.running.symm ▸ (h.drop _).wake

theorem Similar.fails (h : Similar s s') {c : Call} (hf : Fails s c) : Fails s' c := by
  cases c with
  | spawn entryPoint =>
      simp only [Fails, h.state]
      exact hf
  | terminate c | resume c | getQuantums c => exact (h.state _).trans hf
  | block c => exact hf.imp (h.state _).trans id
  | sleep n => exact hf.imp id h.running.trans
  | getTid | getTotalQuantums => exact hf.elim

theorem Similar.reads (h : Similar s s') {c : Call} {v : Int} (hr : Reads .unbounded s c v) :
    ∃ v', Reads .unbounded s' c v' ∧ (readsClock (.call c) = false → v' = v) := by
  cases c with
  | getTid => exact ⟨_, rfl, fun _ => (congrArg Nat.cast h.running).trans hr.symm⟩
  | getTotalQuantums => exact ⟨_, rfl, by simp [readsClock]⟩
  | getQuantums c =>
      obtain ⟨t, ht, -⟩ := hr
      have hst : stateOf s' (index c) = some t.state := by
        rw [h.state, stateOf, ht, Option.map_some]
      obtain ⟨t', ht', -⟩ := exists_thread hst
      exact ⟨_, ⟨t', ht', rfl⟩, by simp [readsClock]⟩
  | spawn | terminate | block | resume | sleep => exact hr.elim

theorem Similar.move {v : Option Int} (h : Similar s s') (hm : Move .unbounded s e (.ret v s₁)) :
    ∃ v' s₁', Move .unbounded s' e (.ret v' s₁') ∧ (readsClock e = false → v' = v) ∧
      Similar s₁ s₁' := by
  cases hm with
  | fail hf => exact ⟨_, _, .fail (h.fails hf), fun _ => rfl, h⟩
  | read hr =>
      obtain ⟨v', hr', hv⟩ := h.reads hr
      exact ⟨_, _, .read hr', fun hc => congrArg some (hv hc), h⟩
  | spawn hfree hlt hmin =>
      refine ⟨_, _, .spawn ((h.state _).trans hfree) hlt fun j hj => ?_, fun _ => rfl, h.spawn _⟩
      rw [h.state]
      exact hmin j hj
  | terminate hl h0 hr =>
      exact ⟨_, _, .terminate ((h.state _).symm ▸ hl) h0 (h.running.symm ▸ hr), fun _ => rfl,
        h.terminate _⟩
  | blockReady hst h0 =>
      exact ⟨_, _, .blockReady ((h.state _).trans hst) h0, fun _ => rfl, (h.block _).unqueue _⟩
  | blockBlocked hst h0 => exact ⟨_, _, .blockBlocked ((h.state _).trans hst) h0, fun _ => rfl, h⟩
  | resumeBlocked hst =>
      exact ⟨_, _, .resumeBlocked ((h.state _).trans hst), fun _ => rfl, h.unblock _⟩
  | resumeOther hl hst =>
      exact ⟨_, _, .resumeOther ((h.state _).symm ▸ hl) ((h.state _).symm ▸ hst), fun _ => rfl, h⟩

def glimpse (x : Entry) : Event Call × Option Int × Bool × Nat :=
  (x.event, if readsClock x.event then none else x.value, x.switched, x.after.runningThreadTid)

theorem Similar.operate (h : Similar s s') (hr : Reachable .unbounded s)
    (hr' : Reachable .unbounded s') (hx : operate .unbounded s e = some x) :
    ∃ x', operate .unbounded s' e = some x' ∧ glimpse x' = glimpse x ∧ Similar x.after x'.after := by
  have hi := hr.inv .unbounded
  have hi' := hr'.inv .unbounded
  rcases operate_cases .unbounded hi hx with ⟨v, s₁, hm, rfl⟩ | ⟨i, s₁, hm, rfl⟩
  · obtain ⟨v', s₁', hm', hv, h₁⟩ := h.move hm
    refine ⟨_, operate_of_move_ret hi' hm', ?_, h₁⟩
    simp only [glimpse, h₁.running]
    cases hc : readsClock e with
    | true => rfl
    | false => rw [hv hc]
  · cases hm with
    | @switch _ s₂ next rest t hl hq ht =>
        have hT := hr.elim fun _ hrun => Abstraction.run_nonneg hrun
        have hT' := hr'.elim fun _ hrun => Abstraction.run_nonneg hrun
        obtain ⟨s₂', hl', h₂⟩ := h.leave hT hT' hl
        exact ⟨_, operate_of_leave hi' hl' (h₂.ready.trans hq), rfl, h₂.dispatch next rest⟩

/-- What happens next depends on the states of the threads, on the queue and on the
times that sleepers have still to wait, and on nothing else. -/
theorem oblivious (hr : Reachable .unbounded s) (hr' : Reachable .unbounded s') (h : Similar s s')
    (ht : Trace .unbounded s xs s₁) : ∃ xs' s₁', Trace .unbounded s' xs' s₁' ∧
      xs'.map glimpse = xs.map glimpse ∧ Similar s₁ s₁' := by
  obtain ⟨xs', s₁', ht', hmap, -, -, h₁⟩ := trace_simulate glimpse
    (R := fun s s' => Reachable .unbounded s ∧ Reachable .unbounded s' ∧ Similar s s') (by
      rintro s s' e x ⟨hr, hr', h⟩ hx
      obtain ⟨x', hx', hglimpse, h'⟩ := h.operate hr hr' hx
      exact ⟨x', hx', hglimpse, (leads_step hx).reachable hr, (leads_step hx').reachable hr', h'⟩)
    ht ⟨hr, hr', h⟩
  exact ⟨xs', s₁', ht', hmap, h₁⟩

theorem remaining_of_not_live (hi : Inv s) (hl : stateOf s tid = none) : remaining s tid = none := by
  by_contra hs
  exact ((hi.tables.tally tid).sleeping ((mem_sleeping s tid).mpr hs)).1 hl

/-- Similar as far as the identifiers that there can be. -/
def SimilarTables (s s' : Scheduler) : Prop :=
  s'.runningThreadTid = s.runningThreadTid ∧ s'.readyThreads = s.readyThreads ∧
    ∀ tid < maxThreadNum, stateOf s' tid = stateOf s tid ∧ remaining s' tid = remaining s tid

instance (s s' : Scheduler) : Decidable (SimilarTables s s') :=
  inferInstanceAs (Decidable (_ ∧ _))

theorem SimilarTables.similar (h : SimilarTables s s') (hi : Inv s) (hi' : Inv s') :
    Similar s s' := by
  obtain ⟨hrunning, hready, h⟩ := h
  have hall : ∀ tid, stateOf s' tid = stateOf s tid ∧ remaining s' tid = remaining s tid := by
    intro tid
    rcases Nat.lt_or_ge tid maxThreadNum with hlt | hge
    · exact h tid hlt
    · have hl := hi.tables.not_live_of_le hge
      have hl' := hi'.tables.not_live_of_le hge
      exact ⟨hl'.trans hl.symm,
        (remaining_of_not_live hi' hl').trans (remaining_of_not_live hi hl).symm⟩
  exact ⟨hrunning, hready, fun tid => (hall tid).1, fun tid => (hall tid).2⟩

/-- The first thread goes to sleep in its first quantum, or in its second. -/
def doze (es : List (Event Call)) : List (Event Call) :=
  [.call (.spawn (some 7)), .call (.spawn (some 8)), .tick] ++ es ++ [.call (.sleep 3)]

theorem oblivious_doze : ∃ s s', Reachable .unbounded s ∧ Reachable .unbounded s' ∧
    s.totalQuantums = 3 ∧ s'.totalQuantums = 6 ∧
    s.sleepingThreads[1]? = some 6 ∧ s'.sleepingThreads[1]? = some 9 ∧
    ∃ xs' s₁', Trace .unbounded s' xs' s₁' ∧ s₁'.runningThreadTid = 1 ∧ 1 ∉ s₁'.sleepingThreads ∧
      xs'.map (fun x => (glimpse x).2.2.2) = [0, 2, 0, 1] := by
  have hplays : Plays .unbounded (initial .unbounded 1000) (doze []) (fun _ s =>
      (s.totalQuantums = 3 ∧ s.sleepingThreads[1]? = some 6) ∧
      Plays .unbounded (initial .unbounded 1000) (doze [.tick, .tick, .tick]) (fun _ s' =>
        (s'.totalQuantums = 6 ∧ s'.sleepingThreads[1]? = some 9) ∧ SimilarTables s s') ∧
      Plays .unbounded s [.tick, .tick, .tick, .tick] (fun ys s₁ => s₁.runningThreadTid = 1 ∧
        remaining s₁ 1 = none ∧ ys.map (fun x => (glimpse x).2.2.2) = [0, 2, 0, 1])) := by
    decide +kernel
  obtain ⟨xs, s, hr, ⟨htotal, hs⟩, hplays, hnext⟩ := hplays.exists_run (by decide)
  obtain ⟨xs', s', hr', ⟨htotal', hs'⟩, hsame⟩ := hplays.exists_run (by decide)
  obtain ⟨ys, s₁, hys, hrun, hawake, hglimpse⟩ := hnext.exists_trace
  have hr : Reachable .unbounded s := ⟨_, hr⟩
  have hr' : Reachable .unbounded s' := ⟨_, hr'⟩
  have hsim := hsame.similar (hr.inv .unbounded) (hr'.inv .unbounded)
  obtain ⟨ys', s₁', hys', hmap, h₁⟩ := oblivious hr hr' hsim hys
  refine ⟨s, s', hr, hr', htotal, htotal', hs, hs', ys', s₁', hys', h₁.running.trans hrun, ?_, ?_⟩
  · rw [mem_sleeping, h₁.remaining, hawake]
    exact not_not.mpr rfl
  · have hthreads := congrArg (List.map (fun g => g.2.2.2)) hmap
    simpa only [List.map_map, Function.comp_def, hglimpse] using hthreads

end Uthreads.RelativeTime
