import Uthreads.Histories

namespace Uthreads.Frames

open Program SignalMachine AtomicMachine Tables Source Api Effects Tallies Configs Moves Runs
open Histories

variable {w : Width} {s s' : Scheduler} {tid : Int32} {c : Call} {v : Option Int}

def GivesUp (s : Scheduler) : Call → Prop
  | .terminate tid => tid = 0 ∨ tid.toInt = s.runningThreadTid
  | .block tid => tid ≠ 0 ∧ tid.toInt = s.runningThreadTid
  | .sleep numQuantums => 0 < numQuantums.toInt ∧ s.runningThreadTid ≠ 0
  | _ => False

theorem running_iff (hi : Inv s) (tid : Int32) :
    tid.toInt = s.runningThreadTid ↔ index tid = s.runningThreadTid :=
  (index_eq_iff hi.tables.lt_max).symm

theorem returns_of_not_givesUp (hi : Inv s) (hg : ¬ GivesUp s c) :
    ∃ v s', perform (uthreads w) (.call c) s = .ret v s' := by
  have hm := perform_move w hi (.call c)
  cases ho : perform (uthreads w) (.call c) s with
  | ret v s' => exact ⟨v, s', rfl⟩
  | jump i s' =>
      rw [ho] at hm
      cases hm with
      | switch hl hq ht =>
          cases hl with
          | @block tid hr h0 =>
              exact absurd ⟨fun he => h0 (hr ▸ index_eq_zero.mpr he), (running_iff hi tid).mpr hr⟩ hg
          | sleep hn h0 => exact absurd ⟨hn, h0⟩ hg
          | @terminate tid hr h0 => exact absurd (.inr ((running_iff hi tid).mpr hr)) hg
  | exit code s' =>
      rw [ho] at hm
      cases hm with
      | exit => exact absurd (.inl rfl) hg
  | fault why =>
      rw [ho] at hm
      cases hm

def Targets (c : Call) (v : Option Int) (u : Nat) : Prop :=
  match c with
  | .spawn _ => v = some (u : Int)
  | .terminate tid | .block tid | .resume tid => tid.toInt = u
  | _ => False

/-- Nothing about the threads of p has changed, nor their order in the queue. -/
structure Undisturbed (s s' : Scheduler) (p : Nat → Prop) : Prop where
  running : s'.runningThreadTid = s.runningThreadTid
  total : s'.totalQuantums = s.totalQuantums
  threads : ∀ u, p u → s'.threads[u]? = s.threads[u]?
  blocked : ∀ u, p u → (u ∈ s'.blockedThreads ↔ u ∈ s.blockedThreads)
  sleeping : ∀ u, p u → s'.sleepingThreads[u]? = s.sleepingThreads[u]?
  ready : ∀ u, p u → (u ∈ s'.readyThreads ↔ u ∈ s.readyThreads)
  order : ∀ u u', p u → p u' → ([u, u'].Sublist s'.readyThreads ↔ [u, u'].Sublist s.readyThreads)

theorem Undisturbed.refl (s : Scheduler) (p : Nat → Prop) : Undisturbed s s p :=
  ⟨rfl, rfl, fun _ _ => rfl, fun _ _ => Iff.rfl, fun _ _ => rfl, fun _ _ => Iff.rfl,
    fun _ _ _ _ => Iff.rfl⟩

theorem pair_sublist_filter {l : List Nat} {t u u' : Nat} (hu : u ≠ t) (hu' : u' ≠ t) :
    [u, u'].Sublist (l.filter (fun other => other ≠ t)) ↔ [u, u'].Sublist l := by
  refine ⟨fun h => h.trans List.filter_sublist, fun h => ?_⟩
  have hf := h.filter (fun other => decide (other ≠ t))
  simpa [hu, hu'] using hf

theorem undisturbed_of_filter (t : Nat) {p : Nat → Prop} (hp : ∀ u, p u → u ≠ t)
    (hrunning : s'.runningThreadTid = s.runningThreadTid)
    (htotal : s'.totalQuantums = s.totalQuantums)
    (hthreads : ∀ u ≠ t, s'.threads[u]? = s.threads[u]?)
    (hblocked : ∀ u ≠ t, (u ∈ s'.blockedThreads ↔ u ∈ s.blockedThreads))
    (hsleeping : ∀ u ≠ t, s'.sleepingThreads[u]? = s.sleepingThreads[u]?)
    (hready : s'.readyThreads.filter (fun other => other ≠ t) =
      s.readyThreads.filter (fun other => other ≠ t)) : Undisturbed s s' p := by
  refine ⟨hrunning, htotal, fun u hu => hthreads u (hp u hu), fun u hu => hblocked u (hp u hu),
    fun u hu => hsleeping u (hp u hu), fun u hu => ?_, fun u u' hu hu' => ?_⟩
  · have hmem : ∀ l : List Nat, u ∈ l.filter (fun other => other ≠ t) ↔ u ∈ l := by
      simp [hp u hu]
    rw [← hmem s'.readyThreads, hready, hmem]
  · rw [← pair_sublist_filter (hp u hu) (hp u' hu'), hready,
      pair_sublist_filter (hp u hu) (hp u' hu')]

theorem undisturbed_of_move (hi : Inv s) (hm : Move w s (.call c) (.ret v s')) {p : Nat → Prop}
    (hp : ∀ u, p u → stateOf s u ≠ none ∧ ¬ Targets c v u) : Undisturbed s s' p := by
  generalize ho : Outcome.ret v s' = o at hm
  cases hm with
  | fail | read | blockBlocked | resumeOther =>
      cases ho
      exact .refl _ _
  | switch | exit => simp at ho
  | @spawn _ tid hfree hlt hmin =>
      cases ho
      have hne : ∀ u, p u → u ≠ tid := fun u hu he => (hp u hu).1 (he ▸ hfree)
      refine undisturbed_of_filter tid hne rfl rfl (fun u hu => ?_) (fun u hu => Iff.rfl)
        (fun u hu => rfl) ?_
      · simp [spawn, Std.ExtTreeMap.getElem?_insert, Ne.symm hu]
      · simp [List.filter_append]
  | @terminate tid hl h0 hr =>
      cases ho
      have hne : ∀ u, p u → u ≠ index tid := fun u hu he =>
        (hp u hu).2 (he ▸ toInt_of_live hi.tables hl)
      refine undisturbed_of_filter (index tid) hne rfl rfl (fun u hu => ?_) (fun u hu => ?_)
        (fun u hu => ?_) ?_
      · simp [terminate, Std.ExtTreeMap.getElem?_erase, Ne.symm hu]
      · simp [Ne.symm hu]
      · simp [Std.ExtTreeMap.getElem?_erase, Ne.symm hu]
      · simp
  | @blockReady tid hst h0 =>
      cases ho
      have hne : ∀ u, p u → u ≠ index tid := fun u hu he =>
        (hp u hu).2 (he ▸ toInt_of_state hi.tables hst)
      refine undisturbed_of_filter (index tid) hne rfl rfl (fun u hu => ?_) (fun u hu => ?_)
        (fun u hu => rfl) ?_
      · exact threads_mark_of_ne s hu .blocked
      · simp [Ne.symm hu]
      · simp
  | @resumeBlocked tid hst =>
      cases ho
      have hne : ∀ u, p u → u ≠ index tid := fun u hu he =>
        (hp u hu).2 (he ▸ toInt_of_state hi.tables hst)
      refine undisturbed_of_filter (index tid) hne rfl rfl (fun u hu => ?_) (fun u hu => ?_)
        (fun u hu => rfl) ?_
      · exact threads_mark_of_ne s hu .ready
      · simp [Ne.symm hu]
      · rw [unblock_readyThreads, enqueue_readyThreads]
        split
        · rfl
        · simp [List.filter_append]

/-- A call that does not give up the processor returns, and disturbs no live
thread but the one it spawns or is about. -/
theorem others_undisturbed (hr : Reachable w s) (hg : ¬ GivesUp s c) :
    ∃ v s', perform (uthreads w) (.call c) s = .ret v s' ∧
      Undisturbed s s' (fun u => u ∈ s.threads ∧ ¬ Targets c v u) := by
  have hi := hr.inv w
  obtain ⟨v, s', ho⟩ := returns_of_not_givesUp (w := w) hi hg
  have hm := perform_move w hi (.call c)
  rw [ho] at hm
  exact ⟨v, s', ho, undisturbed_of_move hi hm fun u hu => ⟨(mem_threads s u).mp hu.1, hu.2⟩⟩

theorem others_undisturbed_block : ∃ s v s', Reachable .lp64 s ∧ s.readyThreads = [1, 2, 3] ∧
    perform (uthreads .lp64) (.call (.block 2)) s = .ret v s' ∧ s'.runningThreadTid = 0 ∧
    s'.threads[1]? = s.threads[1]? ∧ [1, 3].Sublist s'.readyThreads := by
  have hplays : Plays .lp64 (initial .lp64 1000)
      [.call (.spawn (some 7)), .call (.spawn (some 8)), .call (.spawn (some 9))]
      (fun _ s => s.runningThreadTid = 0 ∧ s.readyThreads = [1, 2, 3] ∧ 1 ∈ s.threads ∧
        3 ∈ s.threads) := by decide +kernel
  obtain ⟨xs, s, hr, hrun, hq, h1, h3⟩ := hplays.exists_run (by decide)
  have hr : Reachable .lp64 s := ⟨_, hr⟩
  have h2 : (2 : Int32).toInt = 2 := rfl
  obtain ⟨v, s', ho, hu⟩ := others_undisturbed (c := .block 2) hr (by simp [GivesUp, hrun, h2])
  refine ⟨s, v, s', hr, hq, ho, hu.running.trans hrun, hu.threads 1 ⟨h1, by simp [Targets, h2]⟩, ?_⟩
  rw [hu.order 1 3 ⟨h1, by simp [Targets, h2]⟩ ⟨h3, by simp [Targets, h2]⟩, hq]
  decide

end Uthreads.Frames
