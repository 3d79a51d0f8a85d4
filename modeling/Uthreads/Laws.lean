import Uthreads.Outcomes

namespace Uthreads.Laws

open Program SignalMachine AtomicMachine Tables Source Api Effects Tallies Configs Moves Runs
open Outcomes

variable (w : Width) {s s' : Scheduler} {tid : Int32} {t : Nat} {r : Option Nat}

def after (c : Call) (s : Scheduler) : Option Scheduler :=
  match perform (uthreads w) (.call c) s with
  | .ret _ s' => some s'
  | _ => none

def compose (c c' : Call) (s : Scheduler) : Option Scheduler := (after w c s).bind (after w c')

theorem after_inv (hi : Inv s) {c : Call} (ha : after w c s = some s') : Inv s' := by
  rw [after] at ha
  cases ho : perform (uthreads w) (.call c) s with
  | ret v s₁ =>
      simp only [ho, Option.some.injEq] at ha
      subst ha
      exact operate_inv w hi (operate_of_ret w ho)
  | jump | exit | fault => simp [ho] at ha

theorem after_of_move {c : Call} {v : Option Int} (hi : Inv s) (hm : Move w s (.call c) (.ret v s')) :
    after w c s = some s' := by
  rw [after, move_ret_unique hi hm (perform_move w hi (.call c))]

theorem after_block (hi : Inv s) (hst : stateOf s (index tid) = some .ready) (h0 : tid ≠ 0) :
    after w (.block tid) s = some (unqueue (block s (index tid)) (index tid)) :=
  after_of_move w hi (.blockReady hst h0)

theorem after_block_blocked (hi : Inv s) (hst : stateOf s (index tid) = some .blocked)
    (h0 : tid ≠ 0) : after w (.block tid) s = some s :=
  after_of_move w hi (.blockBlocked hst h0)

theorem after_resume (hi : Inv s) (hst : stateOf s (index tid) = some .blocked) :
    after w (.resume tid) s = some (unblock s (index tid)) :=
  after_of_move w hi (.resumeBlocked hst)

theorem after_resume_other (hi : Inv s) (hst : stateOf s (index tid) ≠ some .blocked) :
    after w (.resume tid) s = some s := by
  by_cases hl : stateOf s (index tid) = none
  · exact after_of_move w hi (.fail hl)
  · exact after_of_move w hi (.resumeOther hl hst)

theorem mark_mark (s : Scheduler) (t : Nat) (st st' : State) :
    (mark (mark s t st) t st').threads = (mark s t st').threads :=
  Maps.modify_modify _ _ _ _

theorem mark_eq_self {st : State} (hst : stateOf s t = some st) : (mark s t st).threads = s.threads := by
  obtain ⟨thread, ht, rfl⟩ := exists_thread hst
  apply Std.ExtTreeMap.ext_getElem?
  intro j
  rw [threads_mark]
  split
  · rename_i hj
    rw [← hj, ht]
    rfl
  · rfl

theorem unqueue_block_unblock (h : Wf s r) (hst : stateOf s t = some .blocked) :
    unqueue (block (unblock s t) t) t = s := by
  have hmem : t ∈ s.blockedThreads := (h.tally t).blocked.mpr hst
  have hready : t ∉ s.readyThreads := by simp [(h.tally t).ready, hst]
  refine Scheduler.ext rfl rfl rfl rfl rfl ?_ ?_ ?_ rfl rfl rfl rfl rfl
  · exact (mark_mark s t .ready .blocked).trans (mark_eq_self hst)
  · rw [unqueue_readyThreads, block_readyThreads, unblock_readyThreads, enqueue_readyThreads]
    have hfilter := Maps.filter_ne_self hready
    split
    · exact hfilter
    · rw [List.filter_append, hfilter]
      simp
  · apply Std.ExtTreeSet.ext_mem
    intro j
    simp only [unqueue_blockedThreads, block_blockedThreads, unblock_blockedThreads,
      Std.ExtTreeSet.mem_insert, Std.ExtTreeSet.mem_erase, compare_eq_iff_eq]
    by_cases hj : t = j
    · simp [← hj, hmem]
    · simp [hj]

theorem unblock_unqueue_block (h : Wf s r) (hst : stateOf s t = some .ready) :
    unblock (unqueue (block s t) t) t =
      { s with readyThreads :=
          if t ∈ s.sleepingThreads then s.readyThreads
          else s.readyThreads.filter (fun other => other ≠ t) ++ [t] } := by
  have hmem : t ∉ s.blockedThreads := by simp [(h.tally t).blocked, hst]
  refine Scheduler.ext rfl rfl rfl rfl rfl ?_ ?_ ?_ rfl rfl rfl rfl rfl
  · exact (mark_mark s t .blocked .ready).trans (mark_eq_self hst)
  · rw [unblock_readyThreads, enqueue_readyThreads]
    simp only [unqueue_sleepingThreads, block_sleepingThreads, unqueue_readyThreads,
      block_readyThreads]
    split
    · rename_i hs
      exact Maps.filter_ne_self (by simp [(h.tally t).ready, hst, hs])
    · rfl
  · apply Std.ExtTreeSet.ext_mem
    intro j
    simp only [unblock_blockedThreads, unqueue_blockedThreads, block_blockedThreads,
      Std.ExtTreeSet.mem_insert, Std.ExtTreeSet.mem_erase, compare_eq_iff_eq]
    by_cases hj : t = j
    · simp [← hj, hmem]
    · simp [hj]

theorem state_cases (hi : Inv s) (hl : t ∈ s.threads) (hr : t ≠ s.runningThreadTid) :
    stateOf s t = some .ready ∨ stateOf s t = some .blocked := by
  obtain ⟨st, hst⟩ := Option.ne_none_iff_exists'.mp ((mem_threads s t).mp hl)
  cases st with
  | running => exact absurd (Option.some.inj ((hi.tables.tally t).running.mp hst)).symm hr
  | ready => exact .inl hst
  | blocked => exact .inr hst

theorem compose_block_block (hi : Inv s) (hst : stateOf s (index tid) = some .ready) (h0 : tid ≠ 0) :
    compose w (.block tid) (.block tid) s = after w (.block tid) s := by
  have ha := after_block w hi hst h0
  have hst' : stateOf (unqueue (block s (index tid)) (index tid)) (index tid) = some .blocked := by
    simp [hst]
  rw [compose, ha, Option.bind_some, after_block_blocked w (after_inv w hi ha) hst' h0]

theorem compose_resume_resume (hi : Inv s) (hst : stateOf s (index tid) = some .blocked) :
    compose w (.resume tid) (.resume tid) s = after w (.resume tid) s := by
  have ha := after_resume w hi hst
  have hst' : stateOf (unblock s (index tid)) (index tid) ≠ some .blocked := by simp [hst]
  rw [compose, ha, Option.bind_some, after_resume_other w (after_inv w hi ha) hst']

theorem compose_resume_block (hi : Inv s) (hst : stateOf s (index tid) = some .blocked) (h0 : tid ≠ 0) :
    compose w (.resume tid) (.block tid) s = some s := by
  have ha := after_resume w hi hst
  have hst' : stateOf (unblock s (index tid)) (index tid) = some .ready := by simp [hst]
  rw [compose, ha, Option.bind_some, after_block w (after_inv w hi ha) hst' h0,
    unqueue_block_unblock hi.tables hst]

theorem compose_block_resume (hi : Inv s) (hst : stateOf s (index tid) = some .ready) (h0 : tid ≠ 0) :
    compose w (.block tid) (.resume tid) s =
      some { s with
        readyThreads := if index tid ∈ s.sleepingThreads then s.readyThreads
          else s.readyThreads.filter (fun other => other ≠ index tid) ++ [index tid] } := by
  have ha := after_block w hi hst h0
  have hst' : stateOf (unqueue (block s (index tid)) (index tid)) (index tid) = some .blocked := by
    simp [hst]
  rw [compose, ha, Option.bind_some, after_resume w (after_inv w hi ha) hst',
    unblock_unqueue_block hi.tables hst]

/-- The algebra of block and resume on a live thread t that is not main and not
running. -/
theorem block_resume_laws (hr : Reachable w s) (ht : tid.toInt = t) (hl : t ∈ s.threads)
    (h0 : t ≠ 0) (hrun : t ≠ s.runningThreadTid) :
    (after w (.block tid) s ≠ none ∧ after w (.resume tid) s ≠ none) ∧
    compose w (.block tid) (.block tid) s = after w (.block tid) s ∧
    compose w (.resume tid) (.resume tid) s = after w (.resume tid) s ∧
    (stateOf s t ≠ some .blocked → after w (.resume tid) s = some s) ∧
    (stateOf s t = some .blocked → compose w (.resume tid) (.block tid) s = some s) ∧
    (stateOf s t = some .ready → t ∈ s.sleepingThreads →
      compose w (.block tid) (.resume tid) s = some s) ∧
    (stateOf s t = some .ready → t ∉ s.sleepingThreads →
      compose w (.block tid) (.resume tid) s =
        some { s with readyThreads := s.readyThreads.filter (fun other => other ≠ t) ++ [t] }) := by
  have hi := hr.inv w
  obtain rfl : index tid = t := (index_eq_iff (hi.tables.lt_of_mem hl)).mpr ht
  have h0' : tid ≠ 0 := fun he => h0 (index_eq_zero.mpr he)
  rcases state_cases hi hl hrun with hst | hst
  · have hnb : stateOf s (index tid) ≠ some .blocked := by simp [hst]
    have hres := after_resume_other w hi hnb
    have hblock := after_block w hi hst h0'
    have hcomp := compose_block_resume w hi hst h0'
    refine ⟨⟨by simp [hblock], by simp [hres]⟩, compose_block_block w hi hst h0', ?_, fun _ => hres,
      fun hb => absurd hb hnb, fun _ hs => ?_, fun _ hs => ?_⟩
    · rw [compose, hres, Option.bind_some, hres]
    · rw [hcomp, if_pos hs]
    · rw [hcomp, if_neg hs]
  · have hblock := after_block_blocked w hi hst h0'
    have hres := after_resume w hi hst
    have hnr : stateOf s (index tid) ≠ some .ready := by simp [hst]
    refine ⟨⟨by simp [hblock], by simp [hres]⟩, ?_, compose_resume_resume w hi hst,
      fun hb => absurd hst hb, fun _ => compose_resume_block w hi hst h0',
      fun hb => absurd hb hnr, fun hb => absurd hb hnr⟩
    rw [compose, hblock, Option.bind_some, hblock]

/-- Thread 1 is asleep, thread 3 is blocked, and thread 4 is first in the queue. -/
theorem block_resume_laws_mixed : ∃ s, Reachable .lp64 s ∧ s.readyThreads = [4, 0] ∧
    compose .lp64 (.block 1) (.resume 1) s = some s ∧
    compose .lp64 (.resume 3) (.block 3) s = some s ∧
    compose .lp64 (.block 4) (.resume 4) s = some { s with readyThreads := [0, 4] } := by
  have hplays : Plays .lp64 (initial .lp64 1000)
      [.call (.spawn (some 7)), .call (.spawn (some 8)), .call (.spawn (some 9)),
        .call (.spawn (some 10)), .tick, .call (.sleep 5), .call (.block 3)]
      (fun _ s => s.runningThreadTid = 2 ∧ s.readyThreads = [4, 0] ∧
        (stateOf s 1 = some .ready ∧ 1 ∈ s.sleepingThreads) ∧ stateOf s 3 = some .blocked ∧
        stateOf s 4 = some .ready ∧ 4 ∉ s.sleepingThreads) := by decide +kernel
  obtain ⟨xs, s, hr, hrun, hq, ⟨h1, hs1⟩, h3, h4, hs4⟩ := hplays.exists_run (by decide)
  have hr : Reachable .lp64 s := ⟨_, hr⟩
  have hlive : ∀ {t : Nat} {st : State}, stateOf s t = some st → t ∈ s.threads := by
    intro t st hst
    simp [mem_threads, hst]
  obtain ⟨-, -, -, -, -, hasleep, -⟩ := block_resume_laws .lp64 hr (rfl : (1 : Int32).toInt = (1 : Nat))
    (hlive h1) (by decide) (by rw [hrun]; decide)
  obtain ⟨-, -, -, -, hblocked, -⟩ := block_resume_laws .lp64 hr (rfl : (3 : Int32).toInt = (3 : Nat))
    (hlive h3) (by decide) (by rw [hrun]; decide)
  obtain ⟨-, -, -, -, -, -, hready⟩ := block_resume_laws .lp64 hr (rfl : (4 : Int32).toInt = (4 : Nat))
    (hlive h4) (by decide) (by rw [hrun]; decide)
  refine ⟨s, hr, hq, hasleep h1 hs1, hblocked h3, (hready h4 hs4).trans ?_⟩
  rw [hq]
  rfl

end Uthreads.Laws
