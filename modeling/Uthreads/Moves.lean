import Uthreads.AtomicMachine
import Uthreads.Configs

namespace Uthreads.Moves

open Program SignalMachine AtomicMachine Tables Source Api Effects Tallies Configs

variable (w : Width)

def Fails (s : Scheduler) : Call → Prop
  | .spawn entryPoint => entryPoint = none ∨ ∀ tid < maxThreadNum, stateOf s tid ≠ none
  | .terminate tid | .resume tid | .getQuantums tid => stateOf s (index tid) = none
  | .block tid => stateOf s (index tid) = none ∨ tid = 0
  | .sleep numQuantums => numQuantums.toInt ≤ 0 ∨ s.runningThreadTid = 0
  | .getTid | .getTotalQuantums => False

def Reads (s : Scheduler) : Call → Int → Prop
  | .getTid, v => v = s.runningThreadTid
  | .getTotalQuantums, v => v = s.totalQuantums
  | .getQuantums tid, v => ∃ t, s.threads[index tid]? = some t ∧ v = w.int t.quantumT
  | _, _ => False

/-- The ways the running thread leaves the processor, with the tables between
its leaving and the dispatch of the next thread. -/
inductive Leave (s : Scheduler) : Event Call → Scheduler → Prop
  | tick : Leave s .tick (enqueue (wake w s) s.runningThreadTid)
  | block {tid : Int32} (hr : index tid = s.runningThreadTid) (h0 : s.runningThreadTid ≠ 0) :
      Leave s (.call (.block tid)) (wake w (block s s.runningThreadTid))
  | sleep {n : Int32} (hn : 0 < n.toInt) (h0 : s.runningThreadTid ≠ 0) :
      Leave s (.call (.sleep n)) (wake w (sleep w s s.runningThreadTid (sizeOfInt n.toInt)))
  | terminate {tid : Int32} (hr : index tid = s.runningThreadTid) (h0 : s.runningThreadTid ≠ 0) :
      Leave s (.call (.terminate tid)) (wake w (drop s s.runningThreadTid))

/-- What one operation can do, one case for each branch that the tables select. -/
inductive Move (s : Scheduler) : Event Call → Outcome Scheduler (Option Int) → Prop
  | fail {c : Call} (h : Fails s c) : Move s (.call c) (.ret (some (-1)) s)
  | read {c : Call} {v : Int} (h : Reads w s c v) : Move s (.call c) (.ret (some v) s)
  | spawn {entryPoint tid : Nat} (hfree : stateOf s tid = none) (hlt : tid < maxThreadNum)
      (hmin : ∀ j < tid, stateOf s j ≠ none) :
      Move s (.call (.spawn (some entryPoint))) (.ret (some (tid : Int)) (spawn s tid))
  | terminate {tid : Int32} (hl : stateOf s (index tid) ≠ none) (h0 : tid ≠ 0)
      (hr : index tid ≠ s.runningThreadTid) :
      Move s (.call (.terminate tid)) (.ret (some 0) (terminate s (index tid)))
  | blockReady {tid : Int32} (hst : stateOf s (index tid) = some .ready) (h0 : tid ≠ 0) :
      Move s (.call (.block tid)) (.ret (some 0) (unqueue (block s (index tid)) (index tid)))
  | blockBlocked {tid : Int32} (hst : stateOf s (index tid) = some .blocked) (h0 : tid ≠ 0) :
      Move s (.call (.block tid)) (.ret (some 0) s)
  | resumeBlocked {tid : Int32} (hst : stateOf s (index tid) = some .blocked) :
      Move s (.call (.resume tid)) (.ret (some 0) (unblock s (index tid)))
  | resumeOther {tid : Int32} (hl : stateOf s (index tid) ≠ none)
      (hst : stateOf s (index tid) ≠ some .blocked) :
      Move s (.call (.resume tid)) (.ret (some 0) s)
  | switch {e : Event Call} {s' : Scheduler} {tid : Nat} {rest : List Nat} {t : Thread}
      (h : Leave w s e s') (hq : s'.readyThreads = tid :: rest) (ht : s'.threads[tid]? = some t) :
      Move s e (.jump t.id (dispatch w s' tid rest))
  | exit (s' : Scheduler) : Move s (.call (.terminate 0)) (.exit 0 s')

variable {s s' : Scheduler} {e : Event Call}

theorem Leave.wf (h : Wf s (some s.runningThreadTid)) (hl : Leave w s e s') : Wf s' none := by
  cases hl with
  | tick => exact (h.wake w).enqueue
  | block hr h0 => exact (h.block h0).wake w
  | sleep hn h0 => exact (h.sleep w h0 _).wake w
  | terminate hr h0 => exact (h.drop h0).wake w

theorem Leave.stays (hl : Leave w s e s') : Stays s s' := by
  cases hl with
  | tick => exact (stays_wake w s).trans (stays_enqueue _ _)
  | block hr h0 => exact (stays_block s _).trans (stays_wake w _)
  | sleep hn h0 => exact (stays_sleep w s _ _).trans (stays_wake w _)
  | terminate hr h0 => exact (stays_drop s _).trans (stays_wake w _)

theorem Leave.not_fails {c : Call} (h : Wf s (some s.runningThreadTid))
    (hl : Leave w s (.call c) s') : ¬ Fails s c := by
  have hrun : stateOf s s.runningThreadTid ≠ none := by simp [h.stateOf_running]
  cases hl with
  | @block tid hr h0 =>
      rintro (hf | rfl)
      · exact hrun (hr ▸ hf)
      · exact h0 hr.symm
  | sleep hn h0 =>
      rintro (hf | hf)
      · exact Int.not_le.mpr hn hf
      · exact h0 hf
  | terminate hr h0 => exact fun hf => hrun (hr ▸ hf)

theorem sleepers {r : Option Nat} (h : Wf s r) (tid : Nat) (hs : tid ∈ s.sleepingThreads) :
    tid ∈ s.threads :=
  (mem_threads s tid).mpr ((h.tally tid).sleeping hs).1

theorem run_running {r : Nat} (h : Wf s (some r)) :
    ∃ t, s.threads[r]? = some t ∧ t.state = .running :=
  exists_thread h.stateOf_running

theorem exists_running (hi : Inv s) : ∃ t : Thread, s.threads[s.runningThreadTid]? = some t ∧
    t.state = .running ∧ idOf s s.runningThreadTid = some t.id := by
  obtain ⟨t, ht, hst⟩ := run_running hi.tables
  exact ⟨t, ht, hst, by rw [idOf, ht, Option.map_some]⟩

theorem perform_tick (h : Inv s) : Move w s .tick (perform (uthreads w) .tick s) := by
  have hrun := run_running h.tables
  obtain ⟨r, hr, -⟩ := hrun
  have hw := h.tables.wake w
  obtain ⟨tid, rest, t, hq, ht⟩ := hw.enqueue.exists_next
  have hjump : (sigvtalrm w).run s = .jump t.id
      (dispatch w (enqueue (wake w s) s.runningThreadTid) tid rest) := by
    simp only [sigvtalrm, callbackHandler, changeThread, Prog.run_bind, Prog.run_state,
      Outcome.ret_bind, Prog.run_ite, h.config.action, if_true, Prog.run_call, run_blockSignals,
      run_setitimer h.config.valid, h.config.rearm, failureError]
    simp [run_saveCurrentExecutionContext hr, run_handleSleepThreads w (sleepers h.tables),
      run_readyThread (s := wake w s) hr, run_runNextThread w hq ht]
  simp only [perform, uthreads, hjump, Outcome.jump_bind]
  exact .switch .tick hq ht

theorem size_threads_le (h : Inv s) : s.threads.size ≤ maxThreadNum :=
  Maps.size_le_of_lt _ fun _ => h.tables.lt_of_mem

theorem run_uthreadSpawn (h : Inv s) (entryPoint : Nat) :
    (uthreadSpawn (some entryPoint)).run s =
      match (List.range maxThreadNum).find? (fun tid => decide (tid ∉ s.threads)) with
      | some tid => .ret (tid : Int) (Effects.spawn s tid)
      | none => .ret (-1) s := by
  have hloop := run_addNewThreadLoop (some entryPoint) (List.range maxThreadNum) s
    (size_threads_le h)
  cases hfind : (List.range maxThreadNum).find? (fun tid => decide (tid ∉ s.threads)) with
  | none =>
      rw [hfind] at hloop
      simp [uthreadSpawn, addNewThread, hloop, failureError]
  | some tid =>
      rw [hfind] at hloop
      simp [uthreadSpawn, addNewThread, hloop, failureError]

theorem perform_spawn (h : Inv s) (entryPoint : Option Nat) :
    Move w s (.call (.spawn entryPoint)) (perform (uthreads w) (.call (.spawn entryPoint)) s) := by
  cases entryPoint with
  | none =>
      have hrun : (uthreadSpawn none).run s = .ret (-1) s := by simp [uthreadSpawn]
      simp only [perform, uthreads, api, hrun, Outcome.ret_bind]
      exact .fail (.inl rfl)
  | some entryPoint =>
      have hrun := run_uthreadSpawn h entryPoint
      cases hfind : (List.range maxThreadNum).find? (fun tid => decide (tid ∉ s.threads)) with
      | none =>
          rw [hfind] at hrun
          simp only [perform, uthreads, api, hrun, Outcome.ret_bind]
          refine .fail (.inr fun tid hlt => (mem_threads s tid).mp ?_)
          simpa using List.find?_eq_none.mp hfind tid (List.mem_range.mpr hlt)
      | some tid =>
          rw [hfind] at hrun
          simp only [perform, uthreads, api, hrun, Outcome.ret_bind]
          obtain ⟨hfree, hlt, hmin⟩ := List.find?_range_eq_some.mp hfind
          refine .spawn ?_ (List.mem_range.mp hlt) fun j hj => (mem_threads s j).mp ?_
          · simpa [mem_threads] using hfree
          · simpa using hmin j hj

theorem run_removeThreadFromReady_loop (tid : Nat) : (removeThreadFromReady tid).run s =
    (removeFromReadyLoop tid (s.readyThreads.length + 1) 0).run s := by
  rw [removeThreadFromReady, Prog.run_call, Prog.run_bind, Prog.run_state, Outcome.ret_bind]

theorem run_removeThreadFromReady_found {tid : Nat} {pre post : List Nat}
    (hq : s.readyThreads = pre ++ tid :: post) (hpre : tid ∉ pre) (hpost : tid ∉ post) :
    (removeThreadFromReady tid).run s = (eraseReady pre.length).run s := by
  rw [run_removeThreadFromReady_loop]
  apply run_removeFromReadyLoop_found tid _ 0 s pre post hq hpre hpost (Nat.zero_le _)
  exact Nat.lt_succ_of_le (Nat.sub_le _ _)

/-- A queue that holds tid at most once, where an int reaches it, loses tid. -/
theorem run_removeThreadFromReady (tid : Nat) (hcount : s.readyThreads.count tid ≤ 1)
    (hpos : ∀ i : Nat, s.readyThreads[i]? = some tid → i < 2147483648) :
    (removeThreadFromReady tid).run s = .ret () (unqueue s tid) := by
  by_cases hm : tid ∈ s.readyThreads
  · obtain ⟨i, hi⟩ := List.getElem?_of_mem hm
    obtain ⟨pre, post, hq, rfl, hpre, hpost⟩ := Maps.exists_split_of_count_le_one hcount hi
    have hlt := (List.getElem?_eq_some_iff.mp hi).1
    rw [run_removeThreadFromReady_found hq hpre hpost, run_eraseReady_of_lt hlt (hpos _ hi),
      unqueue, hq, Maps.eraseIdx_split hpre hpost]
  · rw [run_removeThreadFromReady_loop, run_removeFromReadyLoop_absent, unqueue,
      Maps.filter_ne_self hm]
    · exact Nat.lt_succ_of_le (Nat.sub_le _ _)
    · exact fun j _ hj => hm (List.mem_of_getElem? hj)

theorem run_removeThreadFromReady_of_wf {s' : Scheduler} {r : Nat} (tid : Nat)
    (h : Wf s (some r)) (hq : s'.readyThreads = s.readyThreads) :
    (removeThreadFromReady tid).run s' = .ret () (unqueue s' tid) := by
  apply run_removeThreadFromReady
  · exact hq ▸ List.nodup_iff_count_le_one.mp h.nodup tid
  · intro i hi
    have hle := h.length_ready_le
    have hlt := (List.getElem?_eq_some_iff.mp hi).1
    rw [hq] at hlt
    omega

theorem run_removeThread_other {tid : Nat} (h : Inv s) (hl : stateOf s tid ≠ none)
    (hr : tid ≠ s.runningThreadTid) :
    (removeThread w tid).run s = .ret 0 (terminate s tid) := by
  obtain ⟨st, hst⟩ := Option.ne_none_iff_exists'.mp hl
  obtain ⟨t, ht, hts⟩ := exists_thread hst
  have hm : tid ∈ s.threads := (mem_threads s tid).mpr hl
  have htally := h.tables.tally tid
  cases st with
  | running => exact absurd (Option.some.inj (htally.running.mp hst)).symm hr
  | ready =>
      have hnb : tid ∉ s.blockedThreads := by simp [htally.blocked, hst]
      have hqueue : (removeThreadFromReady tid).run (drop s tid) =
          .ret () (unqueue (drop s tid) tid) := run_removeThreadFromReady_of_wf tid h.tables rfl
      simp only [drop] at hqueue
      by_cases hs : tid ∈ s.sleepingThreads <;>
        simp [removeThread, hm, run_getThread ht, hts, hqueue, hs, terminate, unqueue,
          Maps.set_erase_of_not_mem hnb, Maps.erase_of_not_mem]
  | blocked =>
      have hnr : tid ∉ s.readyThreads := by simp [htally.ready, hst]
      have hqueue : s.readyThreads.filter (fun other => !decide (other = tid)) = s.readyThreads := by
        simpa using Maps.filter_ne_self hnr
      by_cases hs : tid ∈ s.sleepingThreads <;>
        simp [removeThread, hm, run_getThread ht, hts, hs, terminate, hqueue,
          Maps.erase_of_not_mem]

theorem run_removeThread_running {tid : Nat} {s' : Scheduler} {next : Nat} {rest : List Nat}
    {t : Thread} (h : Inv s) (h0 : s.runningThreadTid ≠ 0) (hr : tid = s.runningThreadTid)
    (hs' : s' = wake w (drop s tid)) (hq : s'.readyThreads = next :: rest)
    (ht : s'.threads[next]? = some t) :
    (removeThread w tid).run s = .jump t.id (dispatch w s' next rest) := by
  subst hr hs'
  obtain ⟨r, hrun, hst⟩ := run_running h.tables
  have hm : s.runningThreadTid ∈ s.threads := (Maps.mem_iff _).mpr ⟨r, hrun⟩
  have hc := h.config.stays (stays_drop s s.runningThreadTid)
  have hsleep := run_handleSleepThreads w (sleepers (h.tables.drop h0))
  have hreset := run_resetTime hc.valid
  rw [hc.rearm] at hreset
  have hnext := run_runNextThread w hq ht
  simp only [drop] at hreset hsleep hnext ⊢
  simp [removeThread, hm, run_getThread hrun, hst, hreset, hsleep, hnext]

theorem nodup_ids (h : Config s) : (s.threads.toList.map (fun e => e.2.id)).Nodup := by
  refine List.pairwise_map.mpr (Std.ExtTreeMap.distinct_keys_toList.imp_of_mem ?_)
  intro a b ha hb hne heq
  rw [Std.ExtTreeMap.mem_toList_iff_getElem?_eq_some] at ha hb
  refine hne (compare_eq_iff_eq.mpr (h.unique a.1 b.1 a.2.id ?_ ?_))
  · simp [idOf, ha]
  · simp [idOf, hb, heq]

theorem run_removeAll (h : Config s) : removeAll.run s = .ret () (clear s) := by
  have hall : ∀ e ∈ s.threads.toList, e.2.id ∈ s.objects := by
    intro e he
    rw [Std.ExtTreeMap.mem_toList_iff_getElem?_eq_some] at he
    exact h.allocated e.1 e.2.id (by simp [idOf, he])
  simp only [removeAll, Prog.run_call, Prog.run_bind, Prog.run_state, Outcome.ret_bind,
    run_deleteAll s.threads.toList s (nodup_ids h) hall, Prog.run_modify, clear]

theorem perform_terminate_main (h : Config s) :
    perform (uthreads w) (.call (.terminate 0)) s = .exit 0 (clear s) := by
  have hrun : (uthreadTerminate w 0).run s = .exit 0 (clear s) := by
    simp [uthreadTerminate, run_removeAll h, handleForcedExit]
  simp only [perform, uthreads, api, hrun, Outcome.exit_bind]

theorem perform_terminate (h : Inv s) (tid : Int32) :
    Move w s (.call (.terminate tid)) (perform (uthreads w) (.call (.terminate tid)) s) := by
  by_cases h0 : tid = 0
  · subst h0
    rw [perform_terminate_main w h.config]
    exact .exit _
  simp only [perform, uthreads, api]
  have hi0 : index tid ≠ 0 := fun hi => h0 (index_eq_zero.mp hi)
  by_cases hl : stateOf s (index tid) = none
  · have hm : index tid ∉ s.threads := by simpa [mem_threads] using hl
    have hrun : (uthreadTerminate w tid).run s = .ret (-1) s := by
      simp [uthreadTerminate, h0, removeThread, hm, failureError]
    rw [hrun, Outcome.ret_bind]
    exact .fail hl
  by_cases hr : index tid = s.runningThreadTid
  · have hr0 : s.runningThreadTid ≠ 0 := hr ▸ hi0
    obtain ⟨next, rest, t, hq, ht⟩ := ((h.tables.drop hr0).wake w).exists_next
    have hremove := run_removeThread_running w h hr0 hr (by rw [hr]) hq ht
    have hrun : (uthreadTerminate w tid).run s = .jump t.id
        (dispatch w (wake w (drop s s.runningThreadTid)) next rest) := by
      simp [uthreadTerminate, h0, hremove]
    rw [hrun, Outcome.jump_bind]
    exact .switch (.terminate hr hr0) hq ht
  · have hremove := run_removeThread_other w h hl hr
    have hrun : (uthreadTerminate w tid).run s = .ret 0 (terminate s (index tid)) := by
      simp [uthreadTerminate, h0, hremove, failureError]
    rw [hrun, Outcome.ret_bind]
    exact .terminate hl h0 hr

theorem mark_blocked (s : Scheduler) (tid : Nat) :
    mark { s with blockedThreads := s.blockedThreads.insert tid } tid .blocked = block s tid := rfl

theorem run_blockThread_running {r next : Nat} {rest : List Nat} {t : Thread} (h : Inv s)
    (hr : r = s.runningThreadTid) (h0 : r ≠ 0)
    (hq : (wake w (block s r)).readyThreads = next :: rest)
    (ht : (wake w (block s r)).threads[next]? = some t) :
    (blockThread w r).run s = .jump t.id (dispatch w (wake w (block s r)) next rest) := by
  subst hr
  obtain ⟨old, hold, hst⟩ := run_running h.tables
  have hblock := h.tables.block h0
  have hc := h.config.stays (stays_block s s.runningThreadTid)
  have hsave : saveCurrentExecutionContext.run (block s s.runningThreadTid) =
      .ret 0 (block s s.runningThreadTid) := by
    apply run_saveCurrentExecutionContext (t := { old with state := .blocked })
    simp [block, mark, Scheduler.modifyThread, hold]
  have hreset := run_resetTime hc.valid
  rw [hc.rearm] at hreset
  have hsleep := run_handleSleepThreads w (sleepers hblock)
  have hnext := run_runNextThread w hq ht
  simp only [blockThread, Prog.run_call, Prog.run_bind, run_getThread hold, Outcome.ret_bind, hst,
    Prog.run_modify, run_setState, mark_blocked, hsave, Prog.run_ite, zero_ne_one, if_false, hreset,
    hsleep, hnext]

theorem perform_block (h : Inv s) (tid : Int32) :
    Move w s (.call (.block tid)) (perform (uthreads w) (.call (.block tid)) s) := by
  simp only [perform, uthreads, api]
  by_cases hf : Fails s (.block tid)
  · have hrun : (uthreadBlock w tid).run s = .ret (-1) s := by
      rcases hf with hl | h0
      · have hm : index tid ∉ s.threads := by simpa [mem_threads] using hl
        simp [uthreadBlock, hm]
      · simp [uthreadBlock, h0]
    rw [hrun, Outcome.ret_bind]
    exact .fail hf
  obtain ⟨hl, h0⟩ := not_or.mp hf
  have hm : index tid ∈ s.threads := (mem_threads s _).mpr hl
  obtain ⟨st, hst⟩ := Option.ne_none_iff_exists'.mp hl
  obtain ⟨t, ht, hts⟩ := exists_thread hst
  cases st with
  | blocked =>
      have hrun : (uthreadBlock w tid).run s = .ret 0 s := by
        simp [uthreadBlock, hm, h0, blockThread, run_getThread ht, hts]
      rw [hrun, Outcome.ret_bind]
      exact .blockBlocked hst h0
  | ready =>
      have hqueue : (removeThreadFromReady (index tid)).run (block s (index tid)) =
          .ret () (unqueue (block s (index tid)) (index tid)) :=
        run_removeThreadFromReady_of_wf (index tid) h.tables rfl
      have hrun : (uthreadBlock w tid).run s =
          .ret 0 (unqueue (block s (index tid)) (index tid)) := by
        simp [uthreadBlock, hm, h0, blockThread, run_getThread ht, hts, mark_blocked, hqueue]
      rw [hrun, Outcome.ret_bind]
      exact .blockReady hst h0
  | running =>
      have hr : index tid = s.runningThreadTid :=
        (Option.some.inj ((h.tables.tally _).running.mp hst)).symm
      have hr0 : s.runningThreadTid ≠ 0 := fun he => h0 (index_eq_zero.mp (hr.trans he))
      obtain ⟨next, rest, t, hq, htn⟩ := ((h.tables.block hr0).wake w).exists_next
      have hself := run_blockThread_running w h hr (hr ▸ hr0) (hr.symm ▸ hq) (hr.symm ▸ htn)
      have hrun : (uthreadBlock w tid).run s = .jump t.id
          (dispatch w (wake w (block s s.runningThreadTid)) next rest) := by
        rw [hr] at hm hself
        simp [uthreadBlock, hr, hm, h0, hself]
      rw [hrun, Outcome.jump_bind]
      exact .switch (.block hr hr0) hq htn

theorem perform_resume (tid : Int32) :
    Move w s (.call (.resume tid)) (perform (uthreads w) (.call (.resume tid)) s) := by
  simp only [perform, uthreads, api]
  by_cases hl : stateOf s (index tid) = none
  · have hm : index tid ∉ s.threads := by simpa [mem_threads] using hl
    have hrun : (uthreadResume tid).run s = .ret (-1) s := by simp [uthreadResume, hm]
    rw [hrun, Outcome.ret_bind]
    exact .fail hl
  have hm : index tid ∈ s.threads := (mem_threads s _).mpr hl
  obtain ⟨st, hst⟩ := Option.ne_none_iff_exists'.mp hl
  obtain ⟨t, ht, hts⟩ := exists_thread hst
  by_cases hb : st = .blocked
  · subst hb
    have hrun : (uthreadResume tid).run s = .ret 0 (unblock s (index tid)) := by
      simp [uthreadResume, hm, unblockThread, run_getThread ht, hts, run_readyThread ht, unblock,
        enqueue]
    rw [hrun, Outcome.ret_bind]
    exact .resumeBlocked hst
  · have hrun : (uthreadResume tid).run s = .ret 0 s := by
      cases st with
      | blocked => exact absurd rfl hb
      | running | ready => simp [uthreadResume, hm, unblockThread, run_getThread ht, hts]
    rw [hrun, Outcome.ret_bind]
    exact .resumeOther hl (by simpa [hst] using hb)

theorem run_uthreadGetTid (h : Inv s) : uthreadGetTid.run s = .ret (s.runningThreadTid : Int) s := by
  simp [uthreadGetTid, getRunningThreadTid, intOfSize_of_lt h.tables.lt_max]

theorem run_sleepRunningThread {n next : Nat} {rest : List Nat} {t : Thread} (h : Inv s)
    (h0 : s.runningThreadTid ≠ 0)
    (hq : (wake w (sleep w s s.runningThreadTid n)).readyThreads = next :: rest)
    (ht : (wake w (sleep w s s.runningThreadTid n)).threads[next]? = some t) :
    (sleepRunningThread w n).run s =
      .jump t.id (dispatch w (wake w (sleep w s s.runningThreadTid n)) next rest) := by
  obtain ⟨old, hold, hst⟩ := run_running h.tables
  have hget : getRunningThreadTid.run s = .ret (s.runningThreadTid : Int) s := by
    simp [getRunningThreadTid, intOfSize_of_lt h.tables.lt_max]
  have hc := h.config.stays (stays_sleep w s s.runningThreadTid n)
  have hreset := run_resetTime hc.valid
  rw [hc.rearm] at hreset
  have hsleep := run_handleSleepThreads w (sleepers (h.tables.sleep w h0 n))
  have hnext := run_runNextThread w hq ht
  simp only [sleepRunningThread, Prog.run_call, Prog.run_bind, hget, Outcome.ret_bind,
    sizeOfInt_natCast h.tables.lt_max, Prog.run_modify]
  rw [run_saveCurrentExecutionContext (t := old) (by exact hold)]
  simp only [Outcome.ret_bind, Prog.run_ite, zero_ne_one, if_false, Prog.run_bind]
  rw [run_getThread (t := old) (by exact hold)]
  simp only [Outcome.ret_bind, run_setState]
  change ((resetTime.run (sleep w s s.runningThreadTid n)).bind _) = _
  simp only [hreset, Outcome.ret_bind, hsleep, hnext]

theorem run_uthreadSleep {n : Int32} (hn : ¬ n.toInt ≤ 0) (h : Inv s) :
    (uthreadSleep w n).run s =
      if s.runningThreadTid = 0 then .ret (-1) s
      else ((sleepRunningThread w (sizeOfInt n.toInt)).run s).bind (fun _ s => .ret 0 s) := by
  simp only [uthreadSleep, Prog.run_call, Prog.run_bind, run_blockSignals, Outcome.ret_bind]
  rw [if_neg hn]
  simp [run_uthreadGetTid h]

theorem perform_sleep (h : Inv s) (n : Int32) :
    Move w s (.call (.sleep n)) (perform (uthreads w) (.call (.sleep n)) s) := by
  simp only [perform, uthreads, api]
  by_cases hn : n.toInt ≤ 0
  · have hrun : (uthreadSleep w n).run s = .ret (-1) s := by
      simp only [uthreadSleep, Prog.run_call, Prog.run_bind, run_blockSignals, Outcome.ret_bind]
      rw [if_pos hn, run_handleErrorLibrary]
    rw [hrun, Outcome.ret_bind]
    exact .fail (.inl hn)
  rw [run_uthreadSleep w hn h]
  by_cases h0 : s.runningThreadTid = 0
  · rw [if_pos h0, Outcome.ret_bind]
    exact .fail (.inr h0)
  · obtain ⟨next, rest, t, hq, ht⟩ :=
      ((h.tables.sleep w h0 (sizeOfInt n.toInt)).wake w).exists_next
    rw [if_neg h0, run_sleepRunningThread w h h0 hq ht, Outcome.jump_bind, Outcome.jump_bind]
    exact .switch (.sleep (Int.not_le.mp hn) h0) hq ht

theorem perform_getQuantums (tid : Int32) :
    Move w s (.call (.getQuantums tid)) (perform (uthreads w) (.call (.getQuantums tid)) s) := by
  simp only [perform, uthreads, api]
  cases ht : s.threads[index tid]? with
  | none =>
      have hl : stateOf s (index tid) = none := by simp [stateOf, ht]
      have hm : index tid ∉ s.threads := by simpa [mem_threads] using hl
      have hrun : (uthreadGetQuantums w tid).run s = .ret (-1) s := by simp [uthreadGetQuantums, hm]
      rw [hrun, Outcome.ret_bind]
      exact .fail hl
  | some t =>
      have hm : index tid ∈ s.threads := (Maps.mem_iff _).mpr ⟨t, ht⟩
      have hrun : (uthreadGetQuantums w tid).run s = .ret (w.int t.quantumT) s := by
        simp [uthreadGetQuantums, hm, run_getThread ht]
      rw [hrun, Outcome.ret_bind]
      exact .read ⟨t, ht, rfl⟩

/-- Every operation is one of the moves. -/
theorem perform_move (h : Inv s) (e : Event Call) : Move w s e (perform (uthreads w) e s) := by
  cases e with
  | tick => exact perform_tick w h
  | call c =>
      cases c with
      | spawn entryPoint => exact perform_spawn w h entryPoint
      | terminate tid => exact perform_terminate w h tid
      | block tid => exact perform_block w h tid
      | resume tid => exact perform_resume w tid
      | sleep n => exact perform_sleep w h n
      | getTid =>
          simp only [perform, uthreads, api, run_uthreadGetTid h, Outcome.ret_bind]
          exact .read rfl
      | getTotalQuantums =>
          have hrun : uthreadGetTotalQuantums.run s = .ret s.totalQuantums s := by
            simp [uthreadGetTotalQuantums, getTotalQuantums]
          simp only [perform, uthreads, api, hrun, Outcome.ret_bind]
          exact .read rfl
      | getQuantums tid => exact perform_getQuantums w tid

end Uthreads.Moves
