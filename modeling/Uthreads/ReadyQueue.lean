import Uthreads.Runs

namespace Uthreads.ReadyQueue

open Program Tables Source Effects Tallies Configs Moves Runs

variable (w : Width)

theorem run_removeThreadFromReady_ne {s : Scheduler} {tid i : Nat}
    (hcount : s.readyThreads.count tid ≤ 1) (hi : s.readyThreads[i]? = some tid)
    (hbig : 2147483648 ≤ i) : (removeThreadFromReady tid).run s ≠ .ret () (unqueue s tid) := by
  obtain ⟨pre, post, hq, rfl, hpre, hpost⟩ := Maps.exists_split_of_count_le_one hcount hi
  rw [run_removeThreadFromReady_found hq hpre hpost]
  rcases eraseReady_cases s pre.length with ⟨k, -, hk, -, hrun⟩ | hrun
  · intro he
    rw [hrun, Outcome.ret.injEq] at he
    have hqueue := congrArg Scheduler.readyThreads he.2
    simp only [unqueue_readyThreads] at hqueue
    have hmem : tid ∈ s.readyThreads.eraseIdx k := by
      rw [hq, List.eraseIdx_append_of_lt_length (by omega)]
      simp
    rw [hqueue] at hmem
    simp at hmem
  · rw [hrun]
    exact fun he => nomatch he

/-- The loop removes tid and nothing else exactly where an int reaches it, as in
the queues that remove_thread and block_thread pass. -/
theorem remove_thread_from_ready_filters (tid : Nat) :
    (∀ s : Scheduler, s.readyThreads.count tid ≤ 1 →
      ((removeThreadFromReady tid).run s = .ret () (unqueue s tid) ↔
        ∀ i : Nat, s.readyThreads[i]? = some tid → i < 2147483648)) ∧
    (∀ s s' : Scheduler, Reachable w s → s'.readyThreads = s.readyThreads →
      (removeThreadFromReady tid).run s' = .ret () (unqueue s' tid)) := by
  constructor
  · intro s hcount
    constructor
    · intro hrun i hi
      by_contra hbig
      exact run_removeThreadFromReady_ne hcount hi (Nat.le_of_not_lt hbig) hrun
    · exact run_removeThreadFromReady tid hcount
  · intro s s' hr hq
    exact run_removeThreadFromReady_of_wf tid hr.inv.tables hq

theorem remove_thread_from_ready_filters_spawned :
    (removeThreadFromReady 1).run { Scheduler.blank with readyThreads := [3, 1, 2] } =
      .ret () { Scheduler.blank with readyThreads := [3, 2] } ∧
    (removeThreadFromReady 1).run (drop (spawn (initial .lp64 1000) 1) 1) =
      .ret () (unqueue (drop (spawn (initial .lp64 1000) 1) 1) 1) := by
  constructor
  · apply ((remove_thread_from_ready_filters .lp64 1).1 _ (by simp)).mpr
    intro i hi
    have hlt := (List.getElem?_eq_some_iff.mp hi).1
    simp only [List.length_cons, List.length_nil] at hlt
    omega
  · exact (remove_thread_from_ready_filters .lp64 1).2 _ _
      (reachable_spawn_initial .lp64 (by decide)) rfl

theorem run_removeThreadFromReady_last {tid : Nat} (hneg : intOfSize tid < 0) :
    (removeThreadFromReady tid).run
      { Scheduler.blank with readyThreads := List.range (tid + 1) } =
        .fault "erase out of the range of a deque" := by
  rw [run_removeThreadFromReady_found List.range_succ (by simp) (by simp), List.length_range,
    run_eraseReady, if_neg (fun h => absurd h.1 (Int.not_le.mpr hneg))]

theorem remove_thread_from_ready_two_pow_31 :
    (List.range (2147483648 + 1)).count 2147483648 ≤ 1 ∧
    (removeThreadFromReady 2147483648).run
      { Scheduler.blank with readyThreads := List.range (2147483648 + 1) } =
        .fault "erase out of the range of a deque" := by
  constructor
  · exact List.nodup_iff_count_le_one.mp List.nodup_range 2147483648
  · apply run_removeThreadFromReady_last
    decide

end Uthreads.ReadyQueue
