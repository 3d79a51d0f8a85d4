import Uthreads.Moves
import Uthreads.Sections

namespace Uthreads.Stores

open Program SignalMachine Tables Source Api Effects Tallies Configs Moves Sections
open Program.Prog (state modify print call Plain Saves)

variable {α β : Type} {s : Scheduler} (w : Width)

@[simp] theorem writes_handleErrorLibrary (errorMsg : String) (s : Scheduler) :
    (handleErrorLibrary errorMsg).writes s = [] := (steady_handleErrorLibrary errorMsg).plain s

@[simp] theorem writes_blockSignals (s : Scheduler) : blockSignals.writes s = [] := rfl

@[simp] theorem writes_unblockSignals (s : Scheduler) : unblockSignals.writes s = [] := rfl

@[simp] theorem writes_checkThread (i : Nat) (s : Scheduler) : (checkThread i).writes s = [] :=
  (steady_checkThread i).plain s

@[simp] theorem writes_getThread (i : Nat) (s : Scheduler) : (getThread i).writes s = [] :=
  (steady_getThread i).plain s

@[simp] theorem writes_setState (tid : Nat) (st : State) (s : Scheduler) :
    (setState tid st).writes s = [] := (steady_setState tid st).plain s

theorem plain_ite {c : Prop} [Decidable c] {p q : Code α} (hp : Plain p) (hq : Plain q) :
    Plain (if c then p else q) := by
  split
  · exact hp
  · exact hq

theorem plain_pure (a : α) : Plain (pure a : Code α) := fun _ => rfl

theorem plain_end {p : Code α} (hp : Plain p) : Plain (unblockSignals >>= fun _ => p) :=
  Plain.bind writes_unblockSignals fun _ => hp

theorem plain_uthreadTerminate (tid : Int32) : Plain (uthreadTerminate w tid) := by
  have hrest : Plain (do
      if (← removeThread w (sizeOfInt tid.toInt)) = failureError then
        let _ ← unblockSignals
        return failureError
      else
        let _ ← unblockSignals
        return 0 : Code Int) :=
    (steady_removeThread w _).plain.bind fun _ =>
      plain_ite (plain_end (plain_pure _)) (plain_end (plain_pure _))
  refine .call (Plain.bind writes_blockSignals fun _ => plain_ite ?_ hrest)
  exact steady_removeAll.plain.bind fun _ => steady_handleForcedExit.plain.bind fun _ => hrest

theorem plain_uthreadResume (tid : Int32) : Plain (uthreadResume tid) := by
  refine .call (Plain.bind writes_blockSignals fun _ => (steady_checkThread _).plain.bind fun _ => ?_)
  apply plain_ite (plain_end (steady_handleErrorLibrary _).plain)
  exact (steady_unblockThread _).plain.bind fun _ => plain_end (plain_pure _)

theorem plain_uthreadGetTotalQuantums : Plain uthreadGetTotalQuantums := by
  refine .call (Plain.bind writes_blockSignals fun _ => Plain.bind ?_ fun _ => plain_end (plain_pure _))
  exact .call (Plain.bind (fun _ => rfl) fun _ => plain_pure _)

theorem plain_uthreadGetQuantums (tid : Int32) : Plain (uthreadGetQuantums w tid) := by
  refine .call (Plain.bind writes_blockSignals fun _ => (steady_checkThread _).plain.bind fun _ => ?_)
  apply plain_ite (plain_end (steady_handleErrorLibrary _).plain)
  exact (steady_getThread _).plain.bind fun _ => plain_end (plain_pure _)

theorem writes_addNewThreadLoop (entryPoint : Option Nat) (tids : List Nat) (s : Scheduler) :
    (addNewThreadLoop .ready 0 entryPoint tids).writes s =
      match tids.find? (fun tid => decide (tid ∉ s.threads)) with
      | some _ => [.make s.nextObject (entryPoint.getD 0) false]
      | none => [] := by
  induction tids with
  | nil => rfl
  | cons tid tids ih =>
      by_cases hl : tid ∈ s.threads
      · simp [addNewThreadLoop, hl, ih]
      · have hrest : ∀ t, Plain (do
            let _ ← setThread tid t
            pushReady tid
            return (tid : Int) : Code Int) := fun t =>
          (steady_setThread _ _).plain.bind fun _ => (steady_pushReady _).plain.bind fun _ => plain_pure _
        have hmake := Prog.writes_bind_plain hrest (newThread .ready 0 entryPoint) s
        rw [addNewThreadLoop, Prog.writes_bind, writes_checkThread, run_checkThread,
          Outcome.ret_writesThen, decide_eq_false hl]
        rw [List.find?_cons_of_pos (by simpa using hl)]
        exact hmake

theorem writes_uthreadSpawn (entryPoint : Nat) (s : Scheduler) :
    (uthreadSpawn (some entryPoint)).writes s =
      if ∃ tid < maxThreadNum, stateOf s tid = none then [.make s.nextObject entryPoint false]
      else [] := by
  have hrest : ∀ tid : Int, Plain (do
      if tid = failureError then
        let _ ← handleErrorLibrary "Maximum number of threads delimited"
      let _ ← unblockSignals
      return tid : Code Int) := by
    intro tid
    dsimp only
    split
    · exact (steady_handleErrorLibrary _).plain.bind fun _ => plain_end (plain_pure _)
    · exact plain_end (plain_pure _)
  have hloop := writes_addNewThreadLoop (some entryPoint) (List.range maxThreadNum) s
  have hadd : (addNewThread .ready 0 (some entryPoint)).writes s =
      if ∃ tid < maxThreadNum, stateOf s tid = none then [.make s.nextObject entryPoint false]
      else [] := by
    rw [addNewThread, Prog.writes_call, hloop]
    cases hfind : (List.range maxThreadNum).find? (fun tid => decide (tid ∉ s.threads)) with
    | none =>
        rw [if_neg]
        · rfl
        · rintro ⟨tid, hlt, hfree⟩
          have hm := List.find?_eq_none.mp hfind tid (List.mem_range.mpr hlt)
          exact hm (by simp [mem_threads, hfree])
    | some tid =>
        rw [if_pos]
        · rfl
        · refine ⟨tid, List.mem_range.mp (List.mem_of_find?_eq_some hfind), ?_⟩
          simpa [mem_threads] using List.find?_some hfind
  rw [uthreadSpawn, Prog.writes_call, Prog.writes_bind, writes_blockSignals, run_blockSignals,
    Outcome.ret_writesThen, if_neg (by simp), Prog.writes_bind_plain hrest, hadd]
  split <;> rfl

theorem saves_saveCurrentExecutionContext {t : Thread}
    (ht : s.threads[s.runningThreadTid]? = some t) : Saves saveCurrentExecutionContext s t.id 1 := by
  refine .call (.after rfl (Prog.run_state s) (.after (writes_getThread _ s) (run_getThread ht) ?_))
  exact ⟨_, rfl, fun _ => rfl⟩

theorem plain_leave : Plain (do resetTime; handleSleepThreads w; runNextThread w : Code Unit) :=
  steady_resetTime.plain.bind fun _ => (steady_handleSleepThreads w).plain.bind fun _ =>
    (steady_runNextThread w).plain

theorem saves_changeThread {t : Thread} (hc : Config s)
    (ht : s.threads[s.runningThreadTid]? = some t) : Saves (changeThread w) s t.id () := by
  refine .call (.after rfl (run_blockSignals s) ?_)
  have hset := run_setitimer hc.valid
  rw [hc.rearm] at hset
  refine .after (steady_setitimer.plain s) hset ?_
  simp only [failureError, show ¬ (0 : Int) = -1 by decide, if_false]
  refine (saves_saveCurrentExecutionContext ht).bind (fun _ => ?_) fun _ => rfl
  refine plain_ite (plain_pure _) ((steady_handleSleepThreads w).plain.bind fun _ => ?_)
  refine Plain.bind (fun _ => rfl) fun s => (steady_readyThread _).plain.bind fun _ => ?_
  exact (steady_runNextThread w).plain.bind fun _ => plain_end (plain_pure _)

theorem saves_sigvtalrm {t : Thread} (hc : Config s)
    (ht : s.threads[s.runningThreadTid]? = some t) : Saves (sigvtalrm w) s t.id () := by
  refine .after rfl (Prog.run_state s) ?_
  rw [if_pos hc.action]
  exact .call (saves_changeThread w hc ht)

theorem saves_blockThread {t : Thread} (ht : s.threads[s.runningThreadTid]? = some t)
    (hst : t.state = .running) : Saves (blockThread w s.runningThreadTid) s t.id () := by
  refine .call (.after (writes_getThread _ s) (run_getThread ht) ?_)
  simp only [hst]
  refine .after rfl (Prog.run_modify _ s) (.after rfl (run_setState _ _ _) ?_)
  have hsave : Saves saveCurrentExecutionContext (block s s.runningThreadTid) t.id 1 := by
    apply saves_saveCurrentExecutionContext (t := { t with state := .blocked })
    simp [block, mark, Scheduler.modifyThread, ht]
  refine hsave.bind (fun _ => ?_) fun _ => rfl
  exact plain_ite (plain_pure _) (plain_leave w)

theorem saves_uthreadBlock {tid : Int32} {t : Thread}
    (ht : s.threads[s.runningThreadTid]? = some t) (hst : t.state = .running)
    (hr : index tid = s.runningThreadTid) (h0 : tid ≠ 0) : Saves (uthreadBlock w tid) s t.id 0 := by
  have hm : index tid ∈ s.threads := hr ▸ (Maps.mem_iff _).mpr ⟨t, ht⟩
  refine .call (.after rfl (run_blockSignals s) ?_)
  refine .after (writes_checkThread _ s) (run_checkThread s _) ?_
  rw [if_neg (by simpa [hm] using h0), show sizeOfInt tid.toInt = s.runningThreadTid from hr]
  exact (saves_blockThread w ht hst).bind (fun _ => plain_end (plain_pure _)) fun _ => by simp

theorem writes_blockThread (h : Wf s (some s.runningThreadTid)) {tid : Nat} (hm : tid ∈ s.threads)
    (hr : tid ≠ s.runningThreadTid) : (blockThread w tid).writes s = [] := by
  obtain ⟨t, ht⟩ := (Maps.mem_iff _).mp hm
  have hst : stateOf s tid = some t.state := by simp [stateOf, ht]
  rw [blockThread, Prog.writes_call, Prog.writes_after (writes_getThread _ s) (run_getThread ht)]
  cases hts : t.state with
  | running => exact absurd (Option.some.inj ((h.tally tid).running.mp (hst.trans (by rw [hts])))).symm hr
  | ready =>
      have hplain := (steady_setState tid .blocked).plain.bind fun _ =>
        (steady_removeThreadFromReady tid).plain
      simp only [Prog.writes_after (Prog.writes_modify _ s) (Prog.run_modify _ s), hplain _, List.map_nil]
  | blocked => rfl

theorem writes_uthreadBlock (h : Wf s (some s.runningThreadTid)) {tid : Int32}
    (hn : index tid = s.runningThreadTid → tid = 0) : (uthreadBlock w tid).writes s = [] := by
  rw [uthreadBlock, Prog.writes_call, Prog.writes_after rfl (run_blockSignals s),
    Prog.writes_after (writes_checkThread _ s) (run_checkThread s _)]
  split
  · rw [plain_end (steady_handleErrorLibrary _).plain s, List.map_nil]
  · rename_i hb
    have hb : index tid ∈ s.threads ∧ ¬ tid = 0 := by simpa using hb
    rw [Prog.writes_bind_plain (fun _ => plain_end (plain_pure _)),
      writes_blockThread w h hb.1 (fun hr => hb.2 (hn hr))]
    rfl

theorem saves_sleepRunningThread {n : Nat} {t : Thread} (h : Wf s (some s.runningThreadTid))
    (ht : s.threads[s.runningThreadTid]? = some t) : Saves (sleepRunningThread w n) s t.id () := by
  have hget : getRunningThreadTid.run s = .ret (s.runningThreadTid : Int) s := by
    simp [getRunningThreadTid, intOfSize_of_lt h.lt_max]
  refine .call (.after rfl hget (.after rfl (Prog.run_modify _ s) ?_))
  refine Saves.bind (saves_saveCurrentExecutionContext (t := t) (by exact ht)) (fun _ => ?_) fun _ => rfl
  refine plain_ite (plain_pure _) ((steady_getThread _).plain.bind fun _ => ?_)
  exact (steady_setState _ _).plain.bind fun _ => plain_leave w

theorem saves_uthreadSleep {n : Int32} {t : Thread} (h : Inv s) (hn : 0 < n.toInt)
    (h0 : s.runningThreadTid ≠ 0) (ht : s.threads[s.runningThreadTid]? = some t) :
    Saves (uthreadSleep w n) s t.id 0 := by
  refine .call (.after rfl (run_blockSignals s) ?_)
  rw [if_neg (Int.not_le.mpr hn)]
  refine .after (steady_uthreadGetTid.plain s) (run_uthreadGetTid h) ?_
  rw [if_neg (by simpa using h0)]
  exact (saves_sleepRunningThread w h.tables ht).bind (fun _ => plain_end (plain_pure _)) fun _ => by simp

theorem writes_uthreadSleep {n : Int32} (h : Inv s) (hn : 0 < n.toInt → s.runningThreadTid = 0) :
    (uthreadSleep w n).writes s = [] := by
  rw [uthreadSleep, Prog.writes_call, Prog.writes_after rfl (run_blockSignals s)]
  by_cases hpos : n.toInt ≤ 0
  · rw [if_pos hpos, writes_handleErrorLibrary, List.map_nil]
  · have h0 := hn (Int.not_le.mp hpos)
    rw [if_neg hpos, Prog.writes_after (steady_uthreadGetTid.plain s) (run_uthreadGetTid h),
      if_pos (by simp [h0]), plain_end (steady_handleErrorLibrary _).plain s, List.map_nil]

theorem exists_running_of_id (h : Inv s) {i : Nat} (hi : idOf s s.runningThreadTid = some i) :
    ∃ t, s.threads[s.runningThreadTid]? = some t ∧ t.state = .running ∧ t.id = i := by
  obtain ⟨t, ht, hst, hid⟩ := exists_running h
  exact ⟨t, ht, hst, Option.some.inj (hid.symm.trans hi)⟩

theorem writes_api (h : Inv s) {i : Nat} (hi : idOf s s.runningThreadTid = some i) (c : Call) :
    (api w c).writes s = [] ∨ (∃ e, (api w c).writes s = [.make s.nextObject e false]) ∨
      Saves (api w c) s i 0 := by
  obtain ⟨t, ht, hst, rfl⟩ := exists_running_of_id h hi
  cases c with
  | spawn entryPoint =>
      cases entryPoint with
      | none => exact .inl rfl
      | some e =>
          have hw := writes_uthreadSpawn e s
          split at hw
          · exact .inr (.inl ⟨e, hw⟩)
          · exact .inl hw
  | terminate tid => exact .inl (plain_uthreadTerminate w tid s)
  | block tid =>
      by_cases hn : index tid = s.runningThreadTid → tid = 0
      · exact .inl (writes_uthreadBlock w h.tables hn)
      · obtain ⟨hr, h0⟩ := Classical.not_imp.mp hn
        exact .inr (.inr (saves_uthreadBlock w ht hst hr h0))
  | resume tid => exact .inl (plain_uthreadResume tid s)
  | sleep n =>
      by_cases hn : 0 < n.toInt → s.runningThreadTid = 0
      · exact .inl (writes_uthreadSleep w h hn)
      · obtain ⟨hpos, h0⟩ := Classical.not_imp.mp hn
        exact .inr (.inr (saves_uthreadSleep w h hpos h0 ht))
  | getTid => exact .inl (steady_uthreadGetTid.plain s)
  | getTotalQuantums => exact .inl (plain_uthreadGetTotalQuantums s)
  | getQuantums tid => exact .inl (plain_uthreadGetQuantums w tid s)

/-- A thread that leaves the processor and stays in the tables saves its context. -/
theorem saves_of_leave (h : Inv s) {i : Nat} (hi : idOf s s.runningThreadTid = some i) {c : Call}
    {s' : Scheduler} (hl : Leave w s (.call c) s') (hs : idOf s' s.runningThreadTid ≠ none) :
    Saves (api w c) s i 0 := by
  obtain ⟨t, ht, hst, rfl⟩ := exists_running_of_id h hi
  cases hl with
  | block hr h0 =>
      exact saves_uthreadBlock w ht hst hr fun he => h0 (hr ▸ index_eq_zero.mpr he)
  | sleep hn h0 => exact saves_uthreadSleep w h hn h0 ht
  | terminate hr h0 =>
      refine absurd ?_ hs
      have hid := idOf_erase s s.runningThreadTid s.runningThreadTid
      rwa [if_pos rfl] at hid

end Uthreads.Stores
