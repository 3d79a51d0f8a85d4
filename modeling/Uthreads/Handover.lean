import Uthreads.Removal

namespace Uthreads.Handover

open Program SignalMachine AtomicMachine Tables Source Api Effects Tallies Configs Moves Runs
open Histories Removal

variable {w : Width} {s s₁ : Scheduler} {tid : Int32} {e : Event Call}

def woken (w : Width) (s : Scheduler) : List Nat :=
  (s.sleepingThreads.toList.filter
    (fun e => expired w s e.2 && decide (stateOf s e.1 ≠ some .blocked))).map Prod.fst

theorem wake_readyThreads_eq (hi : Inv s) :
    (wake w s).readyThreads = s.readyThreads ++ woken w s := by
  rw [wake_readyThreads, woken]
  congr 2
  apply Maps.filter_toList_congr
  intro k d
  refine and_congr_right fun hk => ?_
  have hs : k ∈ s.sleepingThreads := (Maps.mem_iff _).mpr ⟨d, hk⟩
  have hready : stateOf s k = some .ready ↔ stateOf s k ≠ some .blocked := by
    have hlive := (hi.tables.tally k).sleeping hs
    have hnr : stateOf s k ≠ some .running := fun hst => hlive.2 ((hi.tables.tally k).running.mp hst)
    obtain ⟨st, hst⟩ := Option.ne_none_iff_exists'.mp hlive.1
    cases st <;> simp_all
  simp [hready]

theorem wake_ready_congr {r : Nat} (htotal : s₁.totalQuantums = s.totalQuantums)
    (hstate : ∀ j, j ≠ r → stateOf s₁ j = stateOf s j)
    (hsleep : ∀ j, j ≠ r → s₁.sleepingThreads[j]? = s.sleepingThreads[j]?)
    (hr : r ∉ s.sleepingThreads)
    (hr₁ : ∀ d, s₁.sleepingThreads[r]? = some d → expired w s d = false)
    (hready : s₁.readyThreads = s.readyThreads) :
    (wake w s₁).readyThreads = (wake w s).readyThreads := by
  rw [wake_readyThreads, wake_readyThreads, hready]
  congr 2
  apply Maps.filter_toList_congr
  intro k d
  have hexp : expired w s₁ d = expired w s d := by rw [expired, expired, htotal]
  by_cases hk : k = r
  · subst hk
    have hnone : s.sleepingThreads[k]? = none := by simpa using hr
    constructor
    · rintro ⟨hd, hp⟩
      simp [hexp, hr₁ d hd] at hp
    · rintro ⟨hd, -⟩
      simp [hnone] at hd
  · rw [hsleep k hk, hexp, hstate k hk]

theorem wake_ready_congr_state {r : Nat} (htotal : s₁.totalQuantums = s.totalQuantums)
    (hstate : ∀ j, j ≠ r → stateOf s₁ j = stateOf s j)
    (hsleep : s₁.sleepingThreads = s.sleepingThreads) (hr : r ∉ s.sleepingThreads)
    (hready : s₁.readyThreads = s.readyThreads) :
    (wake w s₁).readyThreads = (wake w s).readyThreads := by
  apply wake_ready_congr htotal hstate (fun j _ => by rw [hsleep]) hr _ hready
  intro d hd
  rw [hsleep] at hd
  exact absurd ((Maps.mem_iff _).mpr ⟨d, hd⟩) hr

theorem without_ext {r : Nat} {a b : Scheduler} (hrest : { a with
      threads := b.threads, readyThreads := b.readyThreads
      blockedThreads := b.blockedThreads, sleepingThreads := b.sleepingThreads } = b)
    (hthreads : ∀ j, j ≠ r → a.threads[j]? = b.threads[j]?)
    (hready : a.readyThreads.filter (fun other => other ≠ r) =
      b.readyThreads.filter (fun other => other ≠ r))
    (hblocked : ∀ j, j ≠ r → (j ∈ a.blockedThreads ↔ j ∈ b.blockedThreads))
    (hsleeping : ∀ j, j ≠ r → a.sleepingThreads[j]? = b.sleepingThreads[j]?) :
    without a r = without b r := by
  simp only [Scheduler.ext_iff] at hrest
  obtain ⟨h1, h2, h3, h4, h5, -, -, -, -, h6, h7, h8, h9⟩ := hrest
  exact AgreeOff.without ⟨h1, h2, h3, h4, h5, hthreads, hready, hblocked, hsleeping, h6, h7, h8, h9⟩

theorem without_leave (hi : Inv s) (hT : 0 ≤ s.totalQuantums) (hl : Leave .unbounded s e s₁) :
    without s₁ s.runningThreadTid = without (wake .unbounded s) s.runningThreadTid := by
  have hns := hi.tables.not_sleeping
  cases hl with
  | tick =>
      refine without_ext rfl (fun j hj => ?_) ?_ (fun _ _ => Iff.rfl) (fun _ _ => rfl)
      · exact threads_mark_of_ne (wake .unbounded s) hj .ready
      · rw [enqueue_readyThreads]
        split
        · rfl
        · simp [List.filter_append]
  | block hr h0 =>
      have hready : (wake .unbounded (block s s.runningThreadTid)).readyThreads =
          (wake .unbounded s).readyThreads := by
        refine wake_ready_congr_state rfl (fun j hj => ?_) rfl hns rfl
        simp [Ne.symm hj]
      refine without_ext rfl (fun j hj => ?_) ?_ (fun j hj => ?_) (fun _ _ => rfl)
      · exact threads_mark_of_ne s hj .blocked
      · rw [hready]
      · simp [Ne.symm hj]
  | @sleep n hn h0 =>
      have hdeadline := deadline_sleep hT hn
      have hready : (wake .unbounded (sleep .unbounded s s.runningThreadTid
          (sizeOfInt n.toInt))).readyThreads = (wake .unbounded s).readyThreads := by
        refine wake_ready_congr (r := s.runningThreadTid) rfl (fun j hj => ?_) (fun j hj => ?_) hns
          (fun d hd => ?_) rfl
        · simp [Ne.symm hj]
        · simp [sleep, Std.ExtTreeMap.getElem?_insert, Ne.symm hj]
        · have hd : (d : Int) = s.totalQuantums + n.toInt + 1 := by
            simpa [hns] using (hdeadline d _ _).mp hd
          simpa using (not_expired s d).mpr (by omega)
      refine without_ext rfl (fun j hj => ?_) ?_ (fun _ _ => Iff.rfl) (fun j hj => ?_)
      · exact threads_mark_of_ne s hj .ready
      · rw [hready]
      · apply Option.ext
        intro d
        rw [deadline_wake, deadline_wake, hdeadline, sleep_totalQuantums]
        simp [Ne.symm hj]
  | terminate hr h0 =>
      have hready : (wake .unbounded (drop s s.runningThreadTid)).readyThreads =
          (wake .unbounded s).readyThreads := by
        refine wake_ready_congr_state rfl (fun j hj => ?_) rfl hns rfl
        simp [Ne.symm hj]
      refine without_ext rfl (fun j hj => ?_) ?_ (fun _ _ => Iff.rfl) (fun _ _ => rfl)
      · simp [drop, Std.ExtTreeMap.getElem?_erase, Ne.symm hj, wake]
      · rw [hready]

theorem leave_ready_prefix (hl : Leave w s e s₁) : s.readyThreads <+: s₁.readyThreads := by
  cases hl with
  | tick =>
      rw [enqueue_readyThreads, wake_readyThreads]
      split
      · exact List.prefix_append _ _
      · rw [List.append_assoc]
        exact List.prefix_append _ _
  | block | sleep | terminate => exact List.prefix_append _ _

theorem without_dispatch {next r : Nat} {rest : List Nat} (hne : next ≠ r) :
    without (dispatch w s next rest) r =
      dispatch w (without s r) next (rest.filter (fun other => other ≠ r)) := by
  refine Scheduler.ext rfl rfl rfl rfl rfl ?_ rfl rfl rfl rfl rfl rfl rfl
  apply Std.ExtTreeMap.ext_getElem?
  intro j
  simp only [without_threads, dispatch, Std.ExtTreeMap.getElem?_erase, Maps.getElem?_modify,
    compare_eq_iff_eq]
  by_cases hr : r = j
  · have hnj : next ≠ j := fun he => hne (he.trans hr.symm)
    simp [hr, hnj]
  · simp [hr]

/-- Each of the ways to leave ends in the dispatch of the head of the queue. -/
theorem perform_leave (hi : Inv s) (hl : Leave w s e s₁) : ∃ next rest t,
    s₁.readyThreads = next :: rest ∧ s₁.threads[next]? = some t ∧
      perform (uthreads w) e s = .jump t.id (dispatch w s₁ next rest) := by
  have hm := perform_move w hi e
  generalize perform (uthreads w) e s = o at hm
  have hrun := hi.tables.stateOf_running
  cases hm with
  | @switch _ s₂ next rest t hl' hq ht =>
      have heq : s₂ = s₁ := by
        cases hl <;> cases hl' <;> rfl
      subst heq
      exact ⟨next, rest, t, hq, ht, rfl⟩
  | fail hf => exact absurd hf (hl.not_fails w hi.tables)
  | read hr => cases hl <;> exact hr.elim
  | spawn | resumeBlocked | resumeOther => cases hl
  | terminate hlive h0 hr =>
      cases hl with
      | terminate hr' => exact absurd hr' hr
  | blockReady hst =>
      cases hl with
      | block hr => simp [hr, hrun] at hst
  | blockBlocked hst =>
      cases hl with
      | block hr => simp [hr, hrun] at hst
  | exit =>
      cases hl with
      | terminate hr h0 => exact absurd (hr.symm.trans (index_eq_zero.mpr rfl)) h0

theorem exists_queued (hi : Inv s) (h0 : s.runningThreadTid ≠ 0) :
    ∃ next rest, s.readyThreads = next :: rest := by
  have hm := hi.tables.main
  obtain ⟨st, hst⟩ := Option.ne_none_iff_exists'.mp hm.1
  have hready : 0 ∈ s.readyThreads := by
    cases st with
    | running => exact absurd (Option.some.inj ((hi.tables.tally 0).running.mp hst)) h0
    | blocked => exact absurd hst hm.2.1
    | ready => exact (hi.tables.tally 0).ready.mpr ⟨hst, hm.2.2⟩
  exact List.exists_cons_of_ne_nil (List.ne_nil_of_mem hready)

theorem leave_agrees (hi : Inv s) (hT : 0 ≤ s.totalQuantums) {next : Nat} {rest : List Nat}
    (hq : s.readyThreads = next :: rest) (hl : Leave .unbounded s e s₁) : ∃ i s',
      perform (uthreads .unbounded) e s = .jump i s' ∧ idOf s next = some i ∧
      s'.runningThreadTid = next ∧ s'.totalQuantums = s.totalQuantums + 1 ∧
      without s' s.runningThreadTid =
        dispatch .unbounded (without (wake .unbounded s) s.runningThreadTid) next
          ((rest ++ woken .unbounded s).filter (fun other => other ≠ s.runningThreadTid)) := by
  obtain ⟨next₁, rest₁, t, hq₁, ht, hp⟩ := perform_leave hi hl
  obtain rfl : next₁ = next := by
    obtain ⟨post, hpost⟩ := leave_ready_prefix hl
    rw [hq, hq₁] at hpost
    exact (List.cons.inj hpost).1.symm
  have hne : next₁ ≠ s.runningThreadTid := by
    rintro rfl
    exact hi.tables.not_ready (hq ▸ List.mem_cons_self)
  have hwithout := without_leave hi hT hl
  have hrest : rest₁.filter (fun other => other ≠ s.runningThreadTid) =
      (rest ++ woken .unbounded s).filter (fun other => other ≠ s.runningThreadTid) := by
    have hready := congrArg Scheduler.readyThreads hwithout
    rw [without_readyThreads, without_readyThreads, wake_readyThreads_eq hi, hq, hq₁,
      List.cons_append, List.filter_cons_of_pos (by simpa using hne),
      List.filter_cons_of_pos (by simpa using hne)] at hready
    exact (List.cons.inj hready).2
  refine ⟨t.id, _, hp, ?_, rfl, ?_, ?_⟩
  · exact (hl.stays .unbounded).ids next₁ t.id (by simp [idOf, ht])
  · cases hl <;> rfl
  · rw [without_dispatch hne, hwithout, hrest]

/-- A tick, a block, a sleep and a termination of the running thread make the
same scheduling decision, and leave the same tables but for its own entries. -/
theorem same_decision (hr : Reachable .unbounded s) (h0 : s.runningThreadTid ≠ 0)
    (ht : tid.toInt = s.runningThreadTid) {n : Int32} (hn : 0 < n.toInt) : ∃ next i s₀,
      (s.readyThreads ++ woken .unbounded s).head? = some next ∧
      ∀ e ∈ [Event.tick, .call (.block tid), .call (.sleep n), .call (.terminate tid)],
        ∃ s', perform (uthreads .unbounded) e s = .jump i s' ∧ s'.runningThreadTid = next ∧
          s'.totalQuantums = s.totalQuantums + 1 ∧ without s' s.runningThreadTid = s₀ := by
  obtain ⟨h, hrun⟩ := hr
  have hi := hrun.inv .unbounded
  have hT : 0 ≤ s.totalQuantums := by
    have hpos := total_pos hrun
    omega
  have hindex := (index_eq_iff hi.tables.lt_max).mpr ht
  obtain ⟨next, rest, hq⟩ := exists_queued hi h0
  obtain ⟨i, s₀, -, hid, -, -, hs₀⟩ := leave_agrees hi hT hq .tick
  refine ⟨next, i, without s₀ s.runningThreadTid,
    by rw [hq, List.cons_append, List.head?_cons], fun e he => ?_⟩
  have hleave : ∃ s₁, Leave .unbounded s e s₁ := by
    simp only [List.mem_cons, List.not_mem_nil, or_false] at he
    rcases he with rfl | rfl | rfl | rfl
    · exact ⟨_, .tick⟩
    · exact ⟨_, .block hindex h0⟩
    · exact ⟨_, .sleep hn h0⟩
    · exact ⟨_, .terminate hindex h0⟩
  obtain ⟨s₁, hl⟩ := hleave
  obtain ⟨i', s', hp, hid', hrun', htotal, hwithout⟩ := leave_agrees hi hT hq hl
  obtain rfl : i' = i := Option.some.inj (hid'.symm.trans hid)
  exact ⟨s', hp, hrun', htotal, hwithout.trans hs₀.symm⟩

/-- Main is queued, and the first thread wakes with the decision. -/
theorem same_decision_woken : ∃ s i s₀, Reachable .unbounded s ∧ s.runningThreadTid = 2 ∧
    s.readyThreads = [0] ∧ woken .unbounded s = [1] ∧
    ∀ e ∈ [Event.tick, .call (.block 2), .call (.sleep 3), .call (.terminate 2)],
      ∃ s', perform (uthreads .unbounded) e s = .jump i s' ∧ s'.runningThreadTid = 0 ∧
        s'.totalQuantums = 4 ∧ without s' 2 = s₀ := by
  have hplays : Plays .unbounded (initial .unbounded 1000)
      [.call (.spawn (some 7)), .call (.spawn (some 8)), .tick, .call (.sleep 1)]
      (fun _ s => s.runningThreadTid = 2 ∧ s.readyThreads = [0] ∧ s.totalQuantums = 3 ∧
        woken .unbounded s = [1]) := by decide +kernel
  obtain ⟨xs, s, hr, hrun, hq, htotal, hwoken⟩ := hplays.exists_run (by decide)
  have hr : Reachable .unbounded s := ⟨_, hr⟩
  obtain ⟨next, i, s₀, hnext, hall⟩ := same_decision hr (by rw [hrun]; decide)
    (show (2 : Int32).toInt = s.runningThreadTid by rw [hrun]; rfl) (n := 3) (by decide)
  rw [hq] at hnext
  obtain rfl := Option.some.inj hnext
  rw [htotal, hrun] at hall
  exact ⟨s, i, s₀, hr, hrun, hq, hwoken, hall⟩

end Uthreads.Handover
