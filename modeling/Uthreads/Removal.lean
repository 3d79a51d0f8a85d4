import Uthreads.Histories

namespace Uthreads.Removal

open Program SignalMachine AtomicMachine Tables Source Api Effects Tallies Configs Moves Runs
open Histories

variable (w : Width) {s s' : Scheduler} {tid : Int32} {t : Nat} {r : Option Nat} {e : Event Call}

@[simps threads readyThreads blockedThreads sleepingThreads runningThreadTid totalQuantums]
def without (s : Scheduler) (tid : Nat) : Scheduler :=
  { s with
    threads := s.threads.erase tid
    readyThreads := s.readyThreads.filter (fun other => other ≠ tid)
    blockedThreads := s.blockedThreads.erase tid
    sleepingThreads := s.sleepingThreads.erase tid }

structure Absent (s : Scheduler) (tid : Nat) : Prop where
  threads : tid ∉ s.threads
  ready : tid ∉ s.readyThreads
  blocked : tid ∉ s.blockedThreads
  sleeping : tid ∉ s.sleepingThreads

theorem absent_without (s : Scheduler) (tid : Nat) : Absent (without s tid) tid := by
  constructor <;> simp

theorem absent_of_not_live (h : Wf s r) (hl : stateOf s t = none) : Absent s t where
  threads := by simp [mem_threads, hl]
  ready := by simp [(h.tally t).ready, hl]
  blocked := by simp [(h.tally t).blocked, hl]
  sleeping := fun hs => ((h.tally t).sleeping hs).1 hl

/-- The states agree on everything but the entries of one thread. -/
structure AgreeOff (t : Nat) (s s' : Scheduler) : Prop where
  timer : s'.timer = s.timer
  set : s'.set = s.set
  total : s'.totalQuantums = s.totalQuantums
  quantumUsecs : s'.quantumUsecs = s.quantumUsecs
  running : s'.runningThreadTid = s.runningThreadTid
  threads : ∀ j, j ≠ t → s'.threads[j]? = s.threads[j]?
  ready : s'.readyThreads.filter (fun other => other ≠ t) =
    s.readyThreads.filter (fun other => other ≠ t)
  blocked : ∀ j, j ≠ t → (j ∈ s'.blockedThreads ↔ j ∈ s.blockedThreads)
  sleeping : ∀ j, j ≠ t → s'.sleepingThreads[j]? = s.sleepingThreads[j]?
  action : s'.sigaction = s.sigaction
  itimer : s'.itimer = s.itimer
  objects : s'.objects = s.objects
  nextObject : s'.nextObject = s.nextObject

theorem AgreeOff.without (h : AgreeOff t s s') : without s' t = without s t := by
  refine Scheduler.ext h.timer h.set h.total h.quantumUsecs h.running ?_ h.ready ?_ ?_ h.action
    h.itimer h.objects h.nextObject
  · apply Std.ExtTreeMap.ext_getElem?
    intro j
    simp only [without_threads, Std.ExtTreeMap.getElem?_erase, compare_eq_iff_eq]
    split
    · rfl
    · exact h.threads j (Ne.symm ‹_›)
  · apply Std.ExtTreeSet.ext_mem
    intro j
    simp only [without_blockedThreads, Std.ExtTreeSet.mem_erase]
    exact and_congr_right fun hj => h.blocked j (by simpa using Ne.symm (by simpa using hj))
  · apply Std.ExtTreeMap.ext_getElem?
    intro j
    simp only [without_sleepingThreads, Std.ExtTreeMap.getElem?_erase, compare_eq_iff_eq]
    split
    · rfl
    · exact h.sleeping j (Ne.symm ‹_›)

theorem perform_terminate_other (hi : Inv s) (hl : stateOf s (index tid) ≠ none)
    (h0 : index tid ≠ 0) (hr : index tid ≠ s.runningThreadTid) :
    perform (uthreads w) (.call (.terminate tid)) s = .ret (some 0) (without s (index tid)) := by
  have hm := perform_move w hi (.call (.terminate tid))
  generalize perform (uthreads w) (.call (.terminate tid)) s = o at hm
  cases hm with
  | fail hf => exact absurd hf hl
  | read hr => exact hr.elim
  | terminate => rfl
  | switch hl' =>
      cases hl' with
      | terminate hr' => exact absurd hr' hr
  | exit => exact absurd (index_eq_zero.mpr rfl) h0

theorem perform_terminate_self (hi : Inv s) (h0 : s.runningThreadTid ≠ 0)
    (hr : index tid = s.runningThreadTid) : ∃ i s',
      perform (uthreads w) (.call (.terminate tid)) s = .jump i s' ∧
        stateOf s' s.runningThreadTid = none ∧ Inv s' := by
  have hm := perform_move w hi (.call (.terminate tid))
  cases ho : perform (uthreads w) (.call (.terminate tid)) s with
  | jump i s' =>
      have hx := operate_of_jump w ho
      refine ⟨i, s', rfl, ?_, operate_inv w hi hx⟩
      rw [ho] at hm
      cases hm with
      | switch hl =>
          cases hl with
          | terminate => simp
  | ret v s' =>
      rw [ho] at hm
      cases hm with
      | fail hf =>
          rw [Fails, hr, hi.tables.stateOf_running] at hf
          simp at hf
      | read hr => exact hr.elim
      | terminate _ _ hr' => exact absurd hr hr'
  | exit code s' =>
      rw [ho] at hm
      cases hm with
      | exit => exact absurd (hr.symm.trans (index_eq_zero.mpr rfl)) h0
  | fault why =>
      rw [ho] at hm
      cases hm

theorem spawn_fresh (hi : Inv s) {entryPoint : Option Nat}
    (ho : perform (uthreads w) (.call (.spawn entryPoint)) s = .ret (some (t : Int)) s') :
    Absent s t ∧ s'.threads[t]? = some ⟨s.nextObject, .ready, 0⟩ ∧
      s'.readyThreads = s.readyThreads ++ [t] ∧ t ∉ s'.blockedThreads ∧ t ∉ s'.sleepingThreads := by
  have hm := perform_move w hi (.call (.spawn entryPoint))
  rw [ho] at hm
  generalize hv : some (t : Int) = v at hm
  cases hm with
  | fail hf =>
      simp only [Option.some.injEq] at hv
      omega
  | read hr => exact hr.elim
  | spawn hfree hlt hmin =>
      simp only [Option.some.injEq, Nat.cast_inj] at hv
      subst hv
      have ha := absent_of_not_live hi.tables hfree
      exact ⟨ha, by simp [spawn], rfl, ha.blocked, ha.sleeping⟩

/-- Terminating t leaves the same tables whatever the entries of t were, and none
of t; a spawn that takes the id again starts from nothing. -/
theorem no_residue (h0 : t ≠ 0) (ht : tid.toInt = t) :
    (∀ s s', Reachable w s → Reachable w s' → t ∈ s.threads → t ∈ s'.threads →
      t ≠ s.runningThreadTid → t ≠ s'.runningThreadTid → AgreeOff t s s' →
      ∃ s₁, perform (uthreads w) (.call (.terminate tid)) s = .ret (some 0) s₁ ∧
        perform (uthreads w) (.call (.terminate tid)) s' = .ret (some 0) s₁ ∧ Absent s₁ t) ∧
    (∀ s, Reachable w s → t = s.runningThreadTid →
      ∃ i s₁, perform (uthreads w) (.call (.terminate tid)) s = .jump i s₁ ∧ Absent s₁ t) ∧
    (∀ s entryPoint s', Reachable w s →
      perform (uthreads w) (.call (.spawn entryPoint)) s = .ret (some (t : Int)) s' →
      Absent s t ∧ s'.threads[t]? = some ⟨s.nextObject, .ready, 0⟩ ∧
        s'.readyThreads = s.readyThreads ++ [t] ∧ t ∉ s'.blockedThreads ∧ t ∉ s'.sleepingThreads) := by
  refine ⟨fun s s' hr hr' hl hl' hrun hrun' hagree => ?_, fun s hr hrun => ?_,
    fun s entryPoint s' hr ho => spawn_fresh w (hr.inv w) ho⟩
  · have hl := (mem_threads s t).mp hl
    have hl' := (mem_threads s' t).mp hl'
    obtain rfl : index tid = t := (index_eq_iff (((hr.inv w).tables.tally t).bound hl)).mpr ht
    have hp := perform_terminate_other w (hr.inv w) hl h0 hrun
    have hp' := perform_terminate_other w (hr'.inv w) hl' h0 hrun'
    exact ⟨_, hp, hagree.without ▸ hp', absent_without s _⟩
  · subst hrun
    have hi := hr.inv w
    obtain ⟨i, s₁, hp, hnone, hi₁⟩ := perform_terminate_self w hi h0
      ((index_eq_iff hi.tables.lt_max).mpr ht)
    exact ⟨i, s₁, hp, absent_of_not_live hi₁.tables hnone⟩

theorem agreeOff_block (s : Scheduler) (tid : Nat) : AgreeOff tid s (unqueue (block s tid) tid) where
  timer := rfl
  set := rfl
  total := rfl
  quantumUsecs := rfl
  running := rfl
  threads := fun j hj => threads_mark_of_ne s hj .blocked
  ready := by simp
  blocked := fun j hj => by simp [Ne.symm hj]
  sleeping := fun _ _ => rfl
  action := rfl
  itimer := rfl
  objects := rfl
  nextObject := rfl

theorem operate_block_ready (hi : Inv s) (hst : stateOf s (index tid) = some .ready)
    (h0 : index tid ≠ 0) : operate w s (.call (.block tid)) = some
      ⟨s, .call (.block tid), unqueue (block s (index tid)) (index tid), false, some 0⟩ := by
  have hm := perform_move w hi (.call (.block tid))
  rw [operate]
  generalize perform (uthreads w) (.call (.block tid)) s = o at hm
  cases hm with
  | fail hf =>
      rcases hf with hl | h
      · simp [hst] at hl
      · exact absurd (index_eq_zero.mpr h) h0
  | read hr => exact hr.elim
  | blockReady => rfl
  | blockBlocked hst' => simp [hst] at hst'
  | switch hl =>
      cases hl with
      | block hr =>
          rw [hr, hi.tables.stateOf_running] at hst
          cases hst

theorem no_residue_blocked : ∃ s s' s₁, Reachable .lp64 s ∧ stateOf s 1 = some .ready ∧
    Reachable .lp64 s' ∧ stateOf s' 1 = some .blocked ∧
    perform (uthreads .lp64) (.call (.terminate 1)) s = .ret (some 0) s₁ ∧
    perform (uthreads .lp64) (.call (.terminate 1)) s' = .ret (some 0) s₁ ∧ Absent s₁ 1 := by
  have hplays : Plays .lp64 (initial .lp64 1000) [.call (.spawn (some 7)), .call (.spawn (some 8))]
      (fun _ s => stateOf s 1 = some .ready ∧ s.runningThreadTid = 0) := by decide +kernel
  obtain ⟨xs, s, hr, hst, hrun⟩ := hplays.exists_run (by decide)
  have hx : operate .lp64 s (.call (.block 1)) =
      some ⟨s, .call (.block 1), unqueue (block s 1) 1, false, some 0⟩ :=
    operate_block_ready .lp64 (hr.inv .lp64) hst (by decide)
  have hst' : stateOf (unqueue (block s 1) 1) 1 = some .blocked := by simp [hst]
  obtain ⟨hboth, -⟩ := no_residue .lp64 (t := 1) (by decide) (rfl : (1 : Int32).toInt = 1)
  obtain ⟨s₁, hp, hp', ha⟩ := hboth s _ ⟨_, hr⟩ ⟨_, hr.step hx⟩
    ((mem_threads s 1).mpr (by simp [hst])) ((mem_threads _ 1).mpr (by simp [hst']))
    (by simp [hrun]) (by simp [hrun]) (agreeOff_block s 1)
  exact ⟨s, _, s₁, ⟨_, hr⟩, hst, ⟨_, hr.step hx⟩, hst', hp, hp', ha⟩

end Uthreads.Removal
