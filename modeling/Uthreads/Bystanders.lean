import Uthreads.Handover
import Uthreads.Observations

namespace Uthreads.Bystanders

open Program SignalMachine AtomicMachine Tables Source Api Effects Tallies Configs Moves Runs
open Histories Removal Outcomes Observations

variable {w : Width} {s s' s₁ : Scheduler} {e : Event Call} {x : Entry} {xs : List Entry}
  {t tid : Nat} {c : Int32}

theorem without_of {a b : Scheduler} (hrest : { a with
      threads := b.threads, readyThreads := b.readyThreads
      blockedThreads := b.blockedThreads, sleepingThreads := b.sleepingThreads } = b)
    (hthreads : ∀ j : Nat, b.threads[j]? = if t = j then none else a.threads[j]?)
    (hready : b.readyThreads = a.readyThreads.filter (fun other => other ≠ t))
    (hblocked : ∀ j, j ∈ b.blockedThreads ↔ t ≠ j ∧ j ∈ a.blockedThreads)
    (hsleeping : ∀ j : Nat, b.sleepingThreads[j]? = if t = j then none else a.sleepingThreads[j]?) :
    without a t = b := by
  simp only [Scheduler.ext_iff] at hrest
  obtain ⟨h1, h2, h3, h4, h5, -, -, -, -, h6, h7, h8, h9⟩ := hrest
  refine Scheduler.ext h1 h2 h3 h4 h5 ?_ hready.symm ?_ ?_ h6 h7 h8 h9
  · apply Std.ExtTreeMap.ext_getElem?
    intro j
    rw [without_threads, Std.ExtTreeMap.getElem?_erase, hthreads]
    simp only [compare_eq_iff_eq]
  · apply Std.ExtTreeSet.ext_mem
    intro j
    rw [without_blockedThreads, Std.ExtTreeSet.mem_erase, hblocked]
    simp
  · apply Std.ExtTreeMap.ext_getElem?
    intro j
    rw [without_sleepingThreads, Std.ExtTreeMap.getElem?_erase, hsleeping]
    simp only [compare_eq_iff_eq]

theorem stateOf_without (s : Scheduler) (t j : Nat) :
    stateOf (without s t) j = if t = j then none else stateOf s j :=
  stateOf_drop s t j

theorem without_mark (s : Scheduler) (t tid : Nat) (st : State) (j : Nat) :
    (mark (without s t) tid st).threads[j]? =
      if t = j then none else (mark s tid st).threads[j]? := by
  simp only [threads_mark, without_threads, Std.ExtTreeMap.getElem?_erase, compare_eq_iff_eq]
  by_cases hj : t = j <;> simp [hj]

theorem without_enqueue (hne : tid ≠ t) :
    without (enqueue s tid) t = enqueue (without s t) tid := by
  refine without_of rfl (without_mark s t tid .ready) ?_ (fun j => ?_) (fun j => ?_)
  · have hs : tid ∈ s.sleepingThreads.erase t ↔ tid ∈ s.sleepingThreads := by simp [Ne.symm hne]
    rw [enqueue_readyThreads, enqueue_readyThreads, without_sleepingThreads]
    simp only [hs]
    split <;> simp [hne]
  · simp
  · simp [Std.ExtTreeMap.getElem?_erase]

theorem without_block (hne : tid ≠ t) : without (block s tid) t = block (without s t) tid := by
  refine without_of rfl (without_mark s t tid .blocked) rfl (fun j => ?_) (fun j => ?_)
  · simp only [block_blockedThreads, without_blockedThreads, Std.ExtTreeSet.mem_insert,
      Std.ExtTreeSet.mem_erase, compare_eq_iff_eq]
    by_cases hj : tid = j
    · simp [← hj, Ne.symm hne]
    · simp [hj]
  · simp [Std.ExtTreeMap.getElem?_erase]

theorem without_unblock (hne : tid ≠ t) : without (unblock s tid) t = unblock (without s t) tid := by
  have henqueue := without_enqueue (s := s) hne
  simp only [Scheduler.ext_iff] at henqueue
  obtain ⟨-, -, -, -, -, hthreads, hready, -, hsleeping, -⟩ := henqueue
  refine Scheduler.ext rfl rfl rfl rfl rfl hthreads hready ?_ hsleeping rfl rfl rfl rfl
  apply Std.ExtTreeSet.ext_mem
  intro j
  simp only [without_blockedThreads, unblock_blockedThreads, Std.ExtTreeSet.mem_erase]
  tauto

theorem without_unqueue (s : Scheduler) (t tid : Nat) :
    without (unqueue s tid) t = unqueue (without s t) tid := by
  refine without_of rfl (fun j => ?_) ?_ (fun j => ?_) (fun j => ?_)
  · simp [unqueue, Std.ExtTreeMap.getElem?_erase]
  · rw [unqueue_readyThreads, unqueue_readyThreads, without_readyThreads, List.filter_filter,
      List.filter_filter]
    simp only [Bool.and_comm]
  · simp
  · simp [Std.ExtTreeMap.getElem?_erase]

theorem without_sleep (hne : tid ≠ t) (n : Nat) :
    without (sleep w s tid n) t = sleep w (without s t) tid n := by
  refine without_of rfl (without_mark s t tid .ready) rfl (fun j => ?_) (fun j => ?_)
  · simp
  · simp only [sleep_sleepingThreads, without_sleepingThreads, without_totalQuantums,
      Std.ExtTreeMap.getElem?_insert, Std.ExtTreeMap.getElem?_erase, compare_eq_iff_eq]
    by_cases hj : tid = j
    · simp [← hj, Ne.symm hne]
    · simp [hj]

theorem without_drop (s : Scheduler) (t tid : Nat) : without (drop s tid) t = drop (without s t) tid := by
  refine without_of rfl (fun j => ?_) rfl (fun j => ?_) (fun j => ?_)
  · simp only [drop, without_threads, Std.ExtTreeMap.getElem?_erase, compare_eq_iff_eq]
    by_cases hj : t = j <;> simp [hj]
  · simp
  · simp [Std.ExtTreeMap.getElem?_erase]

theorem without_comm (s : Scheduler) (t tid : Nat) :
    without (without s tid) t = without (without s t) tid := by
  refine without_of rfl (fun j => ?_) ?_ (fun j => ?_) (fun j => ?_)
  · simp only [without_threads, Std.ExtTreeMap.getElem?_erase, compare_eq_iff_eq]
    by_cases hj : t = j <;> simp [hj]
  · simp only [without_readyThreads, List.filter_filter, Bool.and_comm]
  · simp only [without_blockedThreads, Std.ExtTreeSet.mem_erase, ne_eq, compare_eq_iff_eq]
    tauto
  · simp only [without_sleepingThreads, Std.ExtTreeMap.getElem?_erase, compare_eq_iff_eq]
    by_cases hj : t = j <;> simp [hj]

theorem without_spawn (hne : tid ≠ t) : without (spawn s tid) t = spawn (without s t) tid := by
  refine without_of rfl (fun j => ?_) ?_ (fun j => ?_) (fun j => ?_)
  · simp only [spawn, without_threads, Std.ExtTreeMap.getElem?_insert,
      Std.ExtTreeMap.getElem?_erase, compare_eq_iff_eq]
    by_cases hj : tid = j
    · subst hj
      rw [if_pos rfl, if_pos rfl, if_neg (Ne.symm hne)]
      rfl
    · simp [hj]
  · simp [hne]
  · simp
  · simp [Std.ExtTreeMap.getElem?_erase]

theorem without_wake (hst : stateOf s t ≠ some .ready) :
    without (wake w s) t = wake w (without s t) := by
  refine without_of rfl (fun j => ?_) ?_ (fun j => ?_) (fun j => ?_)
  · simp [wake, Std.ExtTreeMap.getElem?_erase]
  · rw [wake_readyThreads, wake_readyThreads, List.filter_append, without_readyThreads]
    congr 1
    have hkept : ((s.sleepingThreads.toList.filter
        (fun e => expired w s e.2 && decide (stateOf s e.1 = some .ready))).map Prod.fst).filter
          (fun other => other ≠ t) = (s.sleepingThreads.toList.filter
        (fun e => expired w s e.2 && decide (stateOf s e.1 = some .ready))).map Prod.fst := by
      rw [List.filter_eq_self]
      intro other hm
      obtain ⟨entry, he, rfl⟩ := List.mem_map.mp hm
      have hready := (List.mem_filter.mp he).2
      simp only [Bool.and_eq_true, decide_eq_true_eq] at hready
      rw [decide_eq_true_eq]
      intro heq
      exact hst (heq ▸ hready.2)
    rw [hkept]
    refine congrArg _ (Maps.filter_toList_congr ?_)
    intro j d
    rw [without_sleepingThreads, Std.ExtTreeMap.getElem?_erase, stateOf_without]
    simp only [compare_eq_iff_eq, expired, without_totalQuantums]
    by_cases hj : t = j
    · subst hj
      simp [hst]
    · simp [hj]
  · simp
  · simp only [wake_sleepingThreads, without_sleepingThreads, Maps.getElem?_filter,
      Std.ExtTreeMap.getElem?_erase, compare_eq_iff_eq, expired, without_totalQuantums]
    by_cases hj : t = j <;> simp [hj]

/-- The operation is not about t, and would not take the id of t if it were free. -/
def Spares (t : Nat) (x : Entry) : Prop :=
  match x.event with
  | .call (.spawn (some _)) => ∃ j < t, x.value = some (j : Int)
  | .call (.terminate c) | .call (.block c) | .call (.resume c) | .call (.getQuantums c) => c.toInt ≠ t
  | .call (.spawn none) | .call (.sleep _) | .call .getTid | .call .getTotalQuantums | .tick => True

/-- The operation as it is when t is not there. -/
def hide (t : Nat) (x : Entry) : Entry :=
  ⟨without x.before t, x.event, without x.after t, x.switched, x.value⟩

theorem inv_without (hi : Inv s) (hst : stateOf s t = some .blocked) : Inv (without s t) where
  tables := hi.tables.terminate (hi.tables.blocked_tally hst).1 fun h0 => hi.tables.main.2.1 (h0 ▸ hst)
  config := hi.config.stays (stays_terminate s t)

theorem leave_without (hrun : s.runningThreadTid ≠ t) (hst : stateOf s t = some .blocked)
    (hl : Leave w s e s₁) : Leave w (without s t) e (without s₁ t) := by
  cases hl with
  | tick =>
      rw [without_enqueue hrun, without_wake (by simp [hst])]
      exact .tick
  | block hr h0 =>
      rw [without_wake (by simp [hrun, hst]), without_block hrun]
      exact .block hr h0
  | sleep hn h0 =>
      rw [without_wake (by simp [hrun, hst]), without_sleep hrun]
      exact .sleep hn h0
  | terminate hr h0 =>
      rw [without_wake (by simp [hrun, hst]), without_drop]
      exact .terminate hr h0

theorem stateOf_without_of_ne (s : Scheduler) {t j : Nat} (hne : j ≠ t) :
    stateOf (without s t) j = stateOf s j := by
  rw [stateOf_without, if_neg hne.symm]

theorem fails_without {c : Call} {v : Option Int} (hlt : t < maxThreadNum) (hf : Fails s c)
    (hsp : Spares t ⟨s, .call c, s', false, v⟩) (hv : v = some (-1)) : Fails (without s t) c := by
  have hne : ∀ c : Int32, c.toInt ≠ t → index c ≠ t := fun c => mt (index_eq_iff hlt).mp
  cases c with
  | spawn entryPoint =>
      cases entryPoint with
      | none => exact .inl rfl
      | some entryPoint =>
          obtain ⟨j, -, hj⟩ := hsp
          rw [hv, Option.some.injEq] at hj
          omega
  | terminate c | resume c | getQuantums c =>
      exact (stateOf_without_of_ne s (hne c hsp)).trans hf
  | block c => exact hf.imp (stateOf_without_of_ne s (hne c hsp)).trans id
  | sleep n => exact hf
  | getTid | getTotalQuantums => exact hf.elim

theorem move_without {v : Option Int} (hi : Inv s) (hst : stateOf s t = some .blocked)
    (hm : Move w s e (.ret v s')) (hsp : Spares t ⟨s, e, s', false, v⟩) :
    Move w (without s t) e (.ret v (without s' t)) := by
  have hlt := (hi.tables.blocked_tally hst).2.2
  have hne : ∀ c : Int32, c.toInt ≠ t → index c ≠ t := fun c => mt (index_eq_iff hlt).mp
  cases hm with
  | fail hf => exact .fail (fails_without hlt hf hsp rfl)
  | @read c v hr =>
      refine .read ?_
      cases c with
      | getQuantums c =>
          obtain ⟨thread, ht, rfl⟩ := hr
          refine ⟨thread, ?_, rfl⟩
          rw [without_threads, Std.ExtTreeMap.getElem?_erase, if_neg]
          · exact ht
          · simpa using (hne c hsp).symm
      | getTid | getTotalQuantums => exact hr
      | spawn | terminate | block | resume | sleep => exact hr.elim
  | @spawn entryPoint tid hfree hlt hmin =>
      obtain ⟨j, hj, hv⟩ := hsp
      obtain rfl : tid = j := by simpa using hv
      rw [without_spawn hj.ne]
      refine .spawn ?_ hlt fun i hi => ?_
      · rwa [stateOf_without_of_ne s hj.ne]
      · rw [stateOf_without_of_ne s (hi.trans hj).ne]
        exact hmin i hi
  | @terminate c hl h0 hr =>
      change Move w _ _ (.ret _ (without (without s (index c)) t))
      rw [without_comm]
      exact .terminate ((stateOf_without_of_ne s (hne c hsp)).symm ▸ hl) h0 hr
  | @blockReady c hst' h0 =>
      rw [without_unqueue, without_block (hne c hsp)]
      exact .blockReady ((stateOf_without_of_ne s (hne c hsp)).trans hst') h0
  | @blockBlocked c hst' h0 =>
      exact .blockBlocked ((stateOf_without_of_ne s (hne c hsp)).trans hst') h0
  | @resumeBlocked c hst' =>
      rw [without_unblock (hne c hsp)]
      exact .resumeBlocked ((stateOf_without_of_ne s (hne c hsp)).trans hst')
  | @resumeOther c hl hst' =>
      have heq := stateOf_without_of_ne s (hne c hsp)
      exact .resumeOther (heq.symm ▸ hl) (heq.symm ▸ hst')

theorem blocked_of_spares (hi : Inv s) (hst : stateOf s t = some .blocked)
    (hx : operate w s e = some x) (hsp : Spares t x) : stateOf x.after t = some .blocked := by
  rw [blocked_step w hi hx]
  cases hev : x.event with
  | tick => simp [Entry.terminated, Entry.resumed, hev, hst]
  | call c => cases c <;> simp_all [Entry.terminated, Entry.resumed, Spares]

theorem operate_without (hi : Inv s) (hst : stateOf s t = some .blocked)
    (hx : operate w s e = some x) (hsp : Spares t x) :
    operate w (without s t) e = some (hide t x) := by
  have hi' := inv_without hi hst
  have hrun : s.runningThreadTid ≠ t := by
    intro he
    exact (hi.tables.blocked_tally hst).1 (congrArg some he)
  rcases operate_cases w hi hx with ⟨v, s', hm, rfl⟩ | ⟨i, s', hm, rfl⟩
  · exact operate_of_move_ret hi' (move_without hi hst hm hsp)
  · cases hm with
    | @switch _ s₁ next rest thread hl hq ht =>
        have hst₁ : stateOf s₁ t = some .blocked := (leave_blocked w hi hl s₁ t).mpr (.inl hst)
        have hout : t ∉ next :: rest := by
          rw [← hq, ((hl.wf w hi.tables).tally t).ready, hst₁]
          simp
        obtain ⟨hne, hrest⟩ := not_or.mp (List.mem_cons.not.mp hout)
        have hq' : (without s₁ t).readyThreads = next :: rest := by
          rw [without_readyThreads, hq, Maps.filter_ne_self hout]
        rw [operate_of_leave hi' (leave_without hrun hst hl) hq', hide,
          Handover.without_dispatch (Ne.symm hne), Maps.filter_ne_self hrest]

theorem trace_without (hi : Inv s) (hst : stateOf s t = some .blocked) (ht : Trace w s xs s')
    (hsp : ∀ x ∈ xs, Spares t x) : Trace w (without s t) (xs.map (hide t)) (without s' t) ∧
      stateOf s' t = some .blocked ∧ Inv s' := by
  induction ht with
  | nil s => exact ⟨.nil _, hst, hi⟩
  | @cons s s' e x xs hx ht ih =>
      have hspare := hsp x List.mem_cons_self
      obtain ⟨ht', hst', hi'⟩ := ih (operate_inv w hi hx) (blocked_of_spares hi hst hx hspare)
        fun y hy => hsp y (List.mem_cons_of_mem _ hy)
      exact ⟨.cons (operate_without hi hst hx hspare) ht', hst', hi'⟩

theorem operate_terminate (hi : Inv s) (hst : stateOf s t = some .blocked) (hc : c.toInt = t) :
    operate w s (.call (.terminate c)) =
      some ⟨s, .call (.terminate c), without s t, false, some 0⟩ := by
  obtain ⟨hrun, -, hlt⟩ := hi.tables.blocked_tally hst
  obtain rfl := (index_eq_iff hlt).mpr hc
  apply operate_of_ret
  apply perform_terminate_other w hi
  · simp [hst]
  · exact fun h0 => hi.tables.main.2.1 (h0 ▸ hst)
  · exact fun he => hrun (congrArg some he.symm)

/-- A BLOCKED thread, asleep or not, is invisible to the others: if no operation of
a run is about it, then terminating it before the run or after it makes no
difference to what the others see, nor to the state at the end. -/
theorem blocked_invisible (hr : Reachable w s) (hst : stateOf s t = some .blocked)
    (hc : c.toInt = t) (ht : Trace w s xs s') (hsp : ∀ x ∈ xs, Spares t x) :
    ∃ s₁ ys s₂, operate w s (.call (.terminate c)) =
        some ⟨s, .call (.terminate c), s₁, false, some 0⟩ ∧
      Trace w s₁ ys s₂ ∧ ys.map seen = xs.map seen ∧
      operate w s' (.call (.terminate c)) =
        some ⟨s', .call (.terminate c), s₂, false, some 0⟩ := by
  obtain ⟨ht', hst', hi'⟩ := trace_without (hr.inv w) hst ht hsp
  refine ⟨_, _, _, operate_terminate (hr.inv w) hst hc, ht', ?_, operate_terminate hi' hst' hc⟩
  rw [List.map_map]
  rfl

/-- Thread 3 is blocked in its sleep. Main terminates thread 1, and its id is used
again while the sleep of thread 3 comes to its end. -/
def napping : List (Event Call) :=
  [.call (.spawn (some 7)), .call (.spawn (some 8)), .call (.spawn (some 9)), .tick, .tick, .tick,
    .call (.sleep 2), .call (.block 3), .call (.terminate 1)]

theorem blocked_invisible_napping : ∃ s xs s' s₁ ys s₂, Reachable .lp64 s ∧
    stateOf s 3 = some .blocked ∧ 3 ∈ s.sleepingThreads ∧ Trace .lp64 s xs s' ∧
    3 ∉ s'.sleepingThreads ∧ operate .lp64 s (.call (.terminate 3)) =
        some ⟨s, .call (.terminate 3), s₁, false, some 0⟩ ∧
      Trace .lp64 s₁ ys s₂ ∧ ys.map seen = [(.call (.spawn (some 10)), some 1, false, 0),
        (.tick, none, true, 2), (.tick, none, true, 1), (.tick, none, true, 0)] ∧
      operate .lp64 s' (.call (.terminate 3)) =
        some ⟨s', .call (.terminate 3), s₂, false, some 0⟩ := by
  have hplays : Plays .lp64 (initial .lp64 1000) napping (fun _ s =>
      (stateOf s 3 = some .blocked ∧ 3 ∈ s.sleepingThreads) ∧
      Plays .lp64 s [.call (.spawn (some 10)), .tick, .tick, .tick] (fun xs s' =>
        3 ∉ s'.sleepingThreads ∧ xs.map seen = [(.call (.spawn (some 10)), some 1, false, 0),
          (.tick, none, true, 2), (.tick, none, true, 1), (.tick, none, true, 0)])) := by
    decide +kernel
  obtain ⟨xs₀, s, hr, ⟨hst, hsleeps⟩, hplays⟩ := hplays.exists_run (by decide)
  obtain ⟨xs, s', ht, hwoken, hseen⟩ := hplays.exists_trace
  have hr : Reachable .lp64 s := ⟨_, hr⟩
  have hsp : ∀ x ∈ xs, Spares 3 x := by
    intro x hx
    have hmem : seen x ∈ xs.map seen := List.mem_map_of_mem hx
    rw [hseen] at hmem
    simp only [seen, List.mem_cons, Prod.mk.injEq, List.not_mem_nil, or_false] at hmem
    rcases hmem with ⟨he, hv, -⟩ | ⟨he, -⟩ | ⟨he, -⟩ | ⟨he, -⟩ <;> rw [Spares, he]
    · exact ⟨1, by decide, hv⟩
    all_goals trivial
  obtain ⟨s₁, ys, s₂, hx, ht', hmap, hx'⟩ :=
    blocked_invisible hr hst (rfl : (3 : Int32).toInt = (3 : Nat)) ht hsp
  exact ⟨s, xs, s', s₁, ys, s₂, hr, hst, hsleeps, ht, hwoken, hx, ht', hmap.trans hseen, hx'⟩

end Uthreads.Bystanders
