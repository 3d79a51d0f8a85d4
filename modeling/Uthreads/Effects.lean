import Uthreads.Api
import Uthreads.Maps

namespace Uthreads.Effects

open Program Tables Source
open Program.Prog (state modify print call)

variable (w : Width)

def stateOf (s : Scheduler) (tid : Nat) : Option State := s.threads[tid]?.map (fun t => t.state)

@[simps! readyThreads blockedThreads sleepingThreads runningThreadTid totalQuantums]
def mark (s : Scheduler) (tid : Nat) (state : State) : Scheduler :=
  s.modifyThread tid (fun thread => { thread with state := state })

@[simps readyThreads blockedThreads sleepingThreads runningThreadTid totalQuantums]
def rearm (s : Scheduler) : Scheduler := { s with itimer := s.timer }

def expired (s : Scheduler) (deadline : Nat) : Bool :=
  w.int (w.int deadline - 1) ≤ s.totalQuantums

/-- The sleepers whose deadline has passed leave the map; those that are READY
go to the back of the queue, in the order of their ids. -/
@[simps readyThreads blockedThreads sleepingThreads runningThreadTid totalQuantums]
def wake (s : Scheduler) : Scheduler :=
  { s with
    readyThreads := s.readyThreads ++
      (s.sleepingThreads.toList.filter
        (fun e => expired w s e.2 && decide (stateOf s e.1 = some .ready))).map Prod.fst
    sleepingThreads := s.sleepingThreads.filter (fun _ deadline => !expired w s deadline) }

@[simps readyThreads blockedThreads sleepingThreads runningThreadTid totalQuantums]
def enqueue (s : Scheduler) (tid : Nat) : Scheduler :=
  { s with
    threads := (mark s tid .ready).threads
    readyThreads := if tid ∈ s.sleepingThreads then s.readyThreads else s.readyThreads ++ [tid] }

@[simps readyThreads blockedThreads sleepingThreads runningThreadTid totalQuantums]
def unqueue (s : Scheduler) (tid : Nat) : Scheduler :=
  { s with readyThreads := s.readyThreads.filter (fun other => other ≠ tid) }

@[simps readyThreads blockedThreads sleepingThreads runningThreadTid totalQuantums]
def block (s : Scheduler) (tid : Nat) : Scheduler :=
  { s with
    threads := (mark s tid .blocked).threads
    blockedThreads := s.blockedThreads.insert tid }

@[simps readyThreads blockedThreads sleepingThreads runningThreadTid totalQuantums]
def unblock (s : Scheduler) (tid : Nat) : Scheduler :=
  { enqueue s tid with blockedThreads := s.blockedThreads.erase tid }

@[simps readyThreads blockedThreads sleepingThreads runningThreadTid totalQuantums]
def sleep (s : Scheduler) (tid n : Nat) : Scheduler :=
  { s with
    threads := (mark s tid .ready).threads
    sleepingThreads := s.sleepingThreads.insert tid
      (w.sizeT (w.sizeT (w.sizeT s.totalQuantums + n) + 1)) }

@[simps readyThreads blockedThreads sleepingThreads runningThreadTid totalQuantums]
def drop (s : Scheduler) (tid : Nat) : Scheduler := { s with threads := s.threads.erase tid }

@[simps readyThreads blockedThreads sleepingThreads runningThreadTid totalQuantums]
def terminate (s : Scheduler) (tid : Nat) : Scheduler :=
  { s with
    threads := s.threads.erase tid
    readyThreads := s.readyThreads.filter (fun other => other ≠ tid)
    blockedThreads := s.blockedThreads.erase tid
    sleepingThreads := s.sleepingThreads.erase tid }

@[simps readyThreads blockedThreads sleepingThreads runningThreadTid totalQuantums]
def spawn (s : Scheduler) (tid : Nat) : Scheduler :=
  { s with
    nextObject := s.nextObject + 1
    objects := s.nextObject :: s.objects
    threads := s.threads.insert tid ⟨s.nextObject, .ready, 0⟩
    readyThreads := s.readyThreads ++ [tid] }

@[simps readyThreads blockedThreads sleepingThreads runningThreadTid totalQuantums]
def dispatch (s : Scheduler) (tid : Nat) (rest : List Nat) : Scheduler :=
  { s with
    totalQuantums := w.int (s.totalQuantums + 1)
    runningThreadTid := tid
    readyThreads := rest
    threads := s.threads.modify tid
      (fun t => { t with state := .running, quantumT := w.sizeT (t.quantumT + 1) }) }

/-- The end of all threads: their objects are deleted. -/
def clear (s : Scheduler) : Scheduler :=
  { s with
    objects := s.objects.diff (s.threads.toList.map (fun e => e.2.id))
    threads := ∅ }

@[simp] theorem run_handleErrorLibrary (errorMsg : String) (s : Scheduler) :
    (handleErrorLibrary errorMsg).run s = .ret (-1) s := by
  simp [handleErrorLibrary, failureError]

@[simp] theorem run_blockSignals (s : Scheduler) : blockSignals.run s = .ret 0 s := by
  simp [blockSignals, Source.sigprocmask, failureError]

@[simp] theorem run_unblockSignals (s : Scheduler) : unblockSignals.run s = .ret 0 s := by
  simp [unblockSignals, Source.sigprocmask, failureError]

@[simp] theorem run_setState (s : Scheduler) (tid : Nat) (st : State) :
    (setState tid st).run s = .ret () (mark s tid st) := rfl

@[simp] theorem run_checkThread (s : Scheduler) (i : Nat) :
    (checkThread i).run s = .ret (decide (i ∈ s.threads)) s := by
  simp [checkThread]

theorem run_getThread {s : Scheduler} {i : Nat} {t : Thread} (h : s.threads[i]? = some t) :
    (getThread i).run s = .ret t s := by
  simp [getThread, h]

theorem run_readyThread {s : Scheduler} {tid : Nat} {t : Thread} (h : s.threads[tid]? = some t) :
    (readyThread tid).run s = .ret () (enqueue s tid) := by
  simp only [readyThread, Prog.run_call, Prog.run_bind, run_getThread h, Outcome.ret_bind,
    run_setState, Prog.run_state, Prog.run_ite, pushReady, Prog.run_modify, Prog.run_pure]
  by_cases hs : tid ∈ s.sleepingThreads <;> simp [enqueue, mark, Scheduler.modifyThread, hs]

theorem run_saveCurrentExecutionContext {s : Scheduler} {t : Thread}
    (h : s.threads[s.runningThreadTid]? = some t) :
    saveCurrentExecutionContext.run s = .ret 0 s := by
  simp [saveCurrentExecutionContext, run_getThread h, Source.sigsetjmp]

theorem run_setitimer {s : Scheduler} (h : s.timer.valid = true) :
    setitimer.run s = .ret 0 (rearm s) := by
  simp [setitimer, h, rearm]

theorem run_resetTime {s : Scheduler} (h : s.timer.valid = true) :
    resetTime.run s = .ret () (rearm s) := by
  simp [resetTime, run_setitimer h, failureError]

theorem run_collectAwake (entries : List (Nat × Nat)) (awake : List Nat) (s : Scheduler)
    (h : ∀ e ∈ entries, e.1 ∈ s.threads) :
    (collectAwake w entries awake).run s =
      .ret (awake ++ (entries.filter (fun e => expired w s e.2)).map Prod.fst)
        { s with readyThreads := s.readyThreads ++
            (entries.filter (fun e => expired w s e.2 &&
              decide (stateOf s e.1 = some .ready))).map Prod.fst } := by
  induction entries generalizing awake s with
  | nil => simp [collectAwake]
  | cons e entries ih =>
      obtain ⟨tid, deadline⟩ := e
      obtain ⟨t, ht⟩ : ∃ t, s.threads[tid]? = some t :=
        Option.isSome_iff_exists.mp (by simpa using h (tid, deadline) (by simp))
      have hrest : ∀ e ∈ entries, e.1 ∈ s.threads := fun e he => h e (List.mem_cons_of_mem _ he)
      simp only [collectAwake, Prog.run_bind, run_getThread ht, Outcome.ret_bind, Prog.run_state,
        Prog.run_ite]
      have hst : stateOf s tid = some t.state := by simp [stateOf, ht]
      by_cases he : w.int (w.int deadline - 1) ≤ s.totalQuantums
      · by_cases hr : t.state = .ready
        · simp only [he, hr, if_true, pushReady, Prog.run_modify, Outcome.ret_bind]
          rw [ih _ { s with readyThreads := s.readyThreads ++ [tid] } hrest]
          simp [expired, stateOf, ht, he, hr]
        · simp only [he, hr, if_true, if_false]
          rw [ih _ _ hrest]
          simp [expired, hst, he, hr]
      · simp only [he, if_false]
        rw [ih _ _ hrest]
        simp [expired, he]

theorem run_eraseAwake (awake : List Nat) (s : Scheduler) :
    (eraseAwake awake).run s = .ret ()
      { s with sleepingThreads := awake.foldl (fun m tid => m.erase tid) s.sleepingThreads } := by
  induction awake generalizing s with
  | nil => rfl
  | cons tid awake ih => simp [eraseAwake, ih]

theorem run_handleSleepThreads {s : Scheduler}
    (h : ∀ tid ∈ s.sleepingThreads, tid ∈ s.threads) :
    (handleSleepThreads w).run s = .ret () (wake w s) := by
  have hentries : ∀ e ∈ s.sleepingThreads.toList, e.1 ∈ s.threads := by
    intro e he
    exact h e.1 ((Maps.mem_iff _).mpr ⟨e.2, Std.ExtTreeMap.mem_toList_iff_getElem?_eq_some.mp he⟩)
  simp only [handleSleepThreads, Prog.run_call, Prog.run_bind, Prog.run_state, Outcome.ret_bind,
    run_collectAwake w _ _ s hentries, run_eraseAwake, List.nil_append,
    Maps.foldl_erase_filter _ (expired w s)]
  rfl

theorem run_runNextThread {s : Scheduler} {tid : Nat} {rest : List Nat} {t : Thread}
    (hq : s.readyThreads = tid :: rest) (ht : s.threads[tid]? = some t) :
    (runNextThread w).run s = .jump t.id (dispatch w s tid rest) := by
  simp only [runNextThread, Prog.run_call, Prog.run_bind, Prog.run_modify, Outcome.ret_bind,
    Prog.run_state, hq]
  rw [run_getThread (t := t) (by exact ht)]
  simp only [Outcome.ret_bind, run_setState, Prog.run_siglongjmp, mark, Scheduler.modifyThread,
    Maps.modify_modify, dispatch]

theorem run_readyAt {s : Scheduler} {i other : Nat} (h : s.readyThreads[i]? = some other) :
    (readyAt i).run s = .ret other s := by
  rw [readyAt, Prog.run_bind, Prog.run_state, Outcome.ret_bind, h]
  rfl

theorem run_eraseReady (s : Scheduler) (i : Nat) :
    (eraseReady i).run s = if 0 ≤ intOfSize i ∧ intOfSize i < s.readyThreads.length then
      .ret () { s with readyThreads := s.readyThreads.eraseIdx (intOfSize i).toNat }
    else .fault "erase out of the range of a deque" := by
  unfold eraseReady
  rw [Prog.run_bind, Prog.run_state, Outcome.ret_bind, Prog.run_ite, Prog.run_modify,
    Prog.run_fault]

theorem run_eraseReady_of_lt {s : Scheduler} {i : Nat} (hlt : i < s.readyThreads.length)
    (hi : i < 2147483648) :
    (eraseReady i).run s = .ret () { s with readyThreads := s.readyThreads.eraseIdx i } := by
  rw [run_eraseReady, intOfSize_of_small hi, if_pos (by omega), Int.toNat_natCast]

/-- An erasure takes out an entry at its index or before it, where an int
reaches, or fails. -/
theorem eraseReady_cases (s : Scheduler) (i : Nat) :
    (∃ k ≤ i, k < 2147483648 ∧ k < s.readyThreads.length ∧ (eraseReady i).run s =
      .ret () { s with readyThreads := s.readyThreads.eraseIdx k }) ∨
    (eraseReady i).run s = .fault "erase out of the range of a deque" := by
  rw [run_eraseReady]
  by_cases h : 0 ≤ intOfSize i ∧ intOfSize i < s.readyThreads.length
  · have hle := intOfSize_le i
    have hlt := intOfSize_lt i
    exact .inl ⟨(intOfSize i).toNat, by omega, by omega, by omega, if_pos h⟩
  · exact .inr (if_neg h)

theorem run_removeFromReadyLoop_skip {tid fuel i other : Nat} {s : Scheduler}
    (hget : s.readyThreads[i]? = some other) (hne : other ≠ tid) :
    (removeFromReadyLoop tid (fuel + 1) i).run s = (removeFromReadyLoop tid fuel (i + 1)).run s := by
  obtain ⟨hlt, -⟩ := List.getElem?_eq_some_iff.mp hget
  rw [removeFromReadyLoop, Prog.run_bind, Prog.run_state, Outcome.ret_bind, Prog.run_ite,
    if_pos hlt, Prog.run_bind, run_readyAt hget, Outcome.ret_bind, if_neg hne]

theorem run_removeFromReadyLoop_absent (tid fuel i : Nat) (s : Scheduler)
    (hfuel : s.readyThreads.length - i < fuel) (h : ∀ j ≥ i, s.readyThreads[j]? ≠ some tid) :
    (removeFromReadyLoop tid fuel i).run s = .ret () s := by
  induction fuel generalizing i with
  | zero => omega
  | succ fuel ih =>
      by_cases hlt : i < s.readyThreads.length
      · have hget := List.getElem?_eq_getElem hlt
        have hne : s.readyThreads[i] ≠ tid := fun he => h i (Nat.le_refl i) (he ▸ hget)
        rw [run_removeFromReadyLoop_skip hget hne]
        exact ih (i + 1) (by omega) fun j hj => h j (Nat.le_of_succ_le hj)
      · rw [removeFromReadyLoop, Prog.run_bind, Prog.run_state, Outcome.ret_bind, Prog.run_ite,
          if_neg hlt]
        rfl

/-- The loop before the one occurrence of tid is the erasure of that occurrence.
After it the loop skips one entry, and tid does not occur again. -/
theorem run_removeFromReadyLoop_found (tid fuel i : Nat) (s : Scheduler) (pre post : List Nat)
    (hq : s.readyThreads = pre ++ tid :: post) (hpre : tid ∉ pre) (hpost : tid ∉ post)
    (hi : i ≤ pre.length) (hfuel : s.readyThreads.length - i < fuel) :
    (removeFromReadyLoop tid fuel i).run s = (eraseReady pre.length).run s := by
  induction fuel generalizing i with
  | zero => omega
  | succ fuel ih =>
      have hlen : s.readyThreads.length = pre.length + post.length + 1 := by
        rw [hq, List.length_append, List.length_cons]
        omega
      rcases Nat.lt_or_eq_of_le hi with hlt | rfl
      · have hget : s.readyThreads[i]? = some pre[i] := by
          rw [hq, List.getElem?_append_left hlt, List.getElem?_eq_getElem hlt]
        have hne : pre[i] ≠ tid := ne_of_mem_of_not_mem (List.getElem_mem hlt) hpre
        rw [run_removeFromReadyLoop_skip hget hne]
        exact ih (i + 1) hlt (by omega)
      · have hget : s.readyThreads[pre.length]? = some tid := by simp [hq]
        rw [removeFromReadyLoop, Prog.run_bind, Prog.run_state, Outcome.ret_bind, Prog.run_ite,
          if_pos (by omega), Prog.run_bind, run_readyAt hget, Outcome.ret_bind, if_pos rfl,
          Prog.run_bind]
        rcases eraseReady_cases s pre.length with ⟨k, hk, -, hlt, hrun⟩ | hrun
        · rw [hrun, Outcome.ret_bind]
          apply run_removeFromReadyLoop_absent
          · simp only [List.length_eraseIdx_of_lt hlt]
            omega
          · intro j hj
            simp only [hq]
            exact Maps.getElem?_eraseIdx_split_ne hpost hk hj
        · rw [hrun]
          rfl

theorem run_addNewThreadLoop (entryPoint : Option Nat) (tids : List Nat) (s : Scheduler)
    (hsize : s.threads.size ≤ maxThreadNum) :
    (addNewThreadLoop .ready 0 entryPoint tids).run s =
      match tids.find? (fun tid => decide (tid ∉ s.threads)) with
      | some tid => .ret tid (spawn s tid)
      | none => .ret (-1) s := by
  induction tids with
  | nil => rfl
  | cons tid tids ih =>
      by_cases hl : tid ∈ s.threads
      · simp [addNewThreadLoop, hl, ih]
      · simp [addNewThreadLoop, hl, newThread, setThread, pushReady, spawn,
          Nat.not_lt.mpr hsize]

theorem run_deleteAll (entries : List (Nat × Thread)) (s : Scheduler)
    (hids : (entries.map (fun e => e.2.id)).Nodup) (h : ∀ e ∈ entries, e.2.id ∈ s.objects) :
    (deleteAll entries).run s =
      .ret () { s with objects := s.objects.diff (entries.map (fun e => e.2.id)) } := by
  induction entries generalizing s with
  | nil => rfl
  | cons e entries ih =>
      obtain ⟨tid, t⟩ := e
      obtain ⟨hnew, hids⟩ := List.nodup_cons.mp hids
      have hrest : ∀ e ∈ entries, e.2.id ∈ s.objects.erase t.id := by
        intro e he
        have hne : e.2.id ≠ t.id := fun heq => hnew (List.mem_map.mpr ⟨e, he, heq⟩)
        exact (List.mem_erase_of_ne hne).mpr (h e (List.mem_cons_of_mem _ he))
      have hrun := ih { s with objects := s.objects.erase t.id } hids hrest
      simp [deleteAll, deleteThread, h (tid, t) (by simp), hrun, List.diff_cons]

end Uthreads.Effects
