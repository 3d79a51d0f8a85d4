import Uthreads.ThreadPool
import Uthreads.RoundRobin

namespace Uthreads.Abstraction

open Program AtomicMachine Tables Source Api Effects Tallies Configs Moves Runs
open Histories Refinement ThreadPool

variable {s s' : Scheduler} {e : Event Call} {x : Entry} {r : Option Nat}

def taskOf (t : Thread) (deadline : Option Nat) : Task :=
  ⟨t.id, t.state = .blocked, deadline.map (fun d => d - 1), t.quantumT⟩

def taskAt (s : Scheduler) (tid : Nat) : Option Task :=
  s.threads[tid]?.map (fun t => taskOf t s.sleepingThreads[tid]?)

theorem taskAt_eq_none {tid : Nat} : taskAt s tid = none ↔ stateOf s tid = none := by
  simp [taskAt, stateOf]

theorem ready_iff (h : Wf s r) (tid : Nat) :
    (r = some tid ∨ tid ∈ s.readyThreads) ↔ ∃ t, taskAt s tid = some t ∧ t.Ready := by
  have htally := h.tally tid
  rw [← htally.running, htally.ready]
  constructor
  · intro hst
    have hns : tid ∉ s.sleepingThreads := by
      rcases hst with hst | ⟨-, hns⟩
      · exact fun hs => (htally.sleeping hs).2 (htally.running.mp hst)
      · exact hns
    have hnone : s.sleepingThreads[tid]? = none := Std.ExtTreeMap.getElem?_eq_none hns
    have hlive : ∃ st, stateOf s tid = some st ∧ st ≠ .blocked := by
      rcases hst with hst | ⟨hst, -⟩
      · exact ⟨_, hst, by simp⟩
      · exact ⟨_, hst, by simp⟩
    obtain ⟨st, hst, hne⟩ := hlive
    obtain ⟨t, ht, rfl⟩ := exists_thread hst
    exact ⟨_, by rw [taskAt, ht, Option.map_some], by simp [taskOf, hne], by simp [taskOf, hnone]⟩
  · rintro ⟨task, ht, hstopped, hwake⟩
    obtain ⟨t, hmem, rfl⟩ := Option.map_eq_some_iff.mp ht
    have hst : stateOf s tid = some t.state := by rw [stateOf, hmem, Option.map_some]
    have hns : tid ∉ s.sleepingThreads := by
      simpa [taskOf] using hwake
    cases hstate : t.state with
    | running => exact .inl (hst.trans (congrArg some hstate))
    | ready => exact .inr ⟨hst.trans (congrArg some hstate), hns⟩
    | blocked => simp [taskOf, hstate] at hstopped

def pool (s : Scheduler) (hi : Inv s) : Pool (Finset.range maxThreadNum) where
  running := s.runningThreadTid
  queue := s.readyThreads
  task := taskAt s
  now := s.totalQuantums.toNat
  made := s.nextObject
  nodup := List.nodup_cons.mpr ⟨hi.tables.not_ready, hi.tables.nodup⟩
  ready := by
    intro tid
    rw [← ready_iff hi.tables, List.mem_cons, Option.some.injEq, eq_comm]
  named := by
    intro tid t ht
    rw [Finset.mem_range]
    apply (hi.tables.tally tid).bound
    rw [ne_eq, ← taskAt_eq_none, ht]
    simp

def request : Call → Request Nat
  | .spawn none => .invalid
  | .spawn (some _) => .spawn
  | .terminate tid => .terminate (index tid)
  | .block tid => .block (index tid)
  | .resume tid => .resume (index tid)
  | .sleep n => if n.toInt ≤ 0 then .invalid else .sleep (sizeOfInt n.toInt)
  | .getTid => .self
  | .getTotalQuantums => .now
  | .getQuantums tid => .quantums (index tid)

def answer (r : Request Nat) (v : Int) : Answer Nat :=
  if v = -1 then .failed else
    match r with
    | .spawn | .self => .name v.toNat
    | .now | .quantums _ => .number v.toNat
    | _ => .done

def reply : Answer Nat → Int
  | .failed => -1
  | .done => 0
  | .name tid => tid
  | .number n => n

def label (x : Entry) : Label Nat :=
  match x.event, x.value with
  | .tick, _ => .tick x.after.runningThreadTid
  | .call c, none => .leave (request c) x.after.runningThreadTid
  | .call c, some v => .answer (request c) (answer (request c) v)

theorem taskAt_wake (hT : 0 ≤ s.totalQuantums) (tid : Nat) :
    taskAt (wake .unbounded s) tid = (taskAt s tid).map (Task.wake s.totalQuantums.toNat) := by
  have hdeadline : ((wake .unbounded s).sleepingThreads[tid]?).map (fun d => d - 1) =
      ((s.sleepingThreads[tid]?).map (fun d => d - 1)).filter
        (fun d => s.totalQuantums.toNat < d) := by
    rw [wake_sleepingThreads, Maps.getElem?_filter]
    cases s.sleepingThreads[tid]? with
    | none => rfl
    | some d =>
        have hexp : (!expired .unbounded s d) = decide (s.totalQuantums.toNat < d - 1) := by
          rw [Bool.eq_iff_iff, not_expired, decide_eq_true_eq]
          omega
        simp only [Option.map_some, Option.filter_some, hexp]
        split <;> rfl
  simp only [taskAt, Option.map_map]
  congr 1
  funext t
  simp only [Function.comp_apply, taskOf, Task.wake, hdeadline]

theorem taskAt_mark {tid : Nat} {st st' : State} (hst : stateOf s tid = some st)
    (hb : st' = .blocked ↔ st = .blocked) (j : Nat)
    (hs : s'.threads = (mark s tid st').threads) (hd : s'.sleepingThreads = s.sleepingThreads) :
    taskAt s' j = taskAt s j := by
  rw [taskAt, taskAt, hs, hd, threads_mark]
  split
  · rename_i heq
    subst heq
    obtain ⟨t, ht, rfl⟩ := exists_thread hst
    rw [ht]
    simp [taskOf, hb]
  · rfl

theorem taskAt_block (s : Scheduler) (tid : Nat) : taskAt (block s tid) =
    Function.update (taskAt s) tid ((taskAt s tid).map (fun t => { t with stopped := true })) := by
  funext j
  by_cases hj : j = tid
  · subst hj
    rw [Function.update_self, taskAt, taskAt, block_sleepingThreads, block, threads_mark, if_pos rfl,
      Option.map_map, Option.map_map]
    rfl
  · rw [Function.update_of_ne hj, taskAt, taskAt, block_sleepingThreads, block,
      threads_mark_of_ne s hj]

theorem taskAt_unblock (s : Scheduler) (tid : Nat) : taskAt (unblock s tid) =
    Function.update (taskAt s) tid ((taskAt s tid).map (fun t => { t with stopped := false })) := by
  funext j
  by_cases hj : j = tid
  · subst hj
    rw [Function.update_self, taskAt, taskAt, unblock_sleepingThreads, enqueue_sleepingThreads,
      unblock, enqueue, threads_mark, if_pos rfl, Option.map_map, Option.map_map]
    rfl
  · rw [Function.update_of_ne hj, taskAt, taskAt, unblock_sleepingThreads,
      enqueue_sleepingThreads, unblock, enqueue, threads_mark_of_ne s hj]

theorem taskAt_sleep {tid : Nat} (hst : stateOf s tid = some .running)
    {n : Int32} : taskAt (sleep .unbounded s tid (sizeOfInt n.toInt)) =
      Function.update (taskAt s) tid ((taskAt s tid).map (fun t =>
        { t with wakeAt := some (s.totalQuantums.toNat + sizeOfInt n.toInt) })) := by
  funext j
  by_cases hj : j = tid
  · subst hj
    obtain ⟨t, ht, hstate⟩ := exists_thread hst
    rw [Function.update_self, taskAt, taskAt, sleep_sleepingThreads, sleep, threads_mark, if_pos rfl,
      ht, Std.ExtTreeMap.getElem?_insert_self]
    simp only [taskOf, hstate, Width.unbounded, Option.map_some]
    congr 2
  · have hd : (sleep .unbounded s tid (sizeOfInt n.toInt)).sleepingThreads[j]? =
        s.sleepingThreads[j]? := by
      simp [sleep, Std.ExtTreeMap.getElem?_insert, Ne.symm hj]
    rw [Function.update_of_ne hj, taskAt, taskAt, hd, sleep, threads_mark_of_ne s hj]

theorem taskAt_drop (s : Scheduler) (tid : Nat) :
    taskAt (drop s tid) = Function.update (taskAt s) tid none := by
  funext j
  by_cases hj : j = tid
  · subst hj
    simp [taskAt, drop]
  · rw [Function.update_of_ne hj, taskAt, taskAt, drop_sleepingThreads, drop,
      Std.ExtTreeMap.getElem?_erase]
    simp [Ne.symm hj]

theorem taskAt_terminate (s : Scheduler) (tid : Nat) :
    taskAt (terminate s tid) = Function.update (taskAt s) tid none := by
  funext j
  by_cases hj : j = tid
  · subst hj
    simp [taskAt, terminate]
  · rw [Function.update_of_ne hj, taskAt, taskAt, terminate]
    simp [Std.ExtTreeMap.getElem?_erase, Ne.symm hj]

theorem taskAt_spawn {tid : Nat} (h : Wf s r) (hfree : stateOf s tid = none) :
    taskAt (spawn s tid) =
      Function.update (taskAt s) tid (some ⟨s.nextObject, false, none, 0⟩) := by
  funext j
  by_cases hj : j = tid
  · subst hj
    have hnone := not_sleeping_of_not_live h hfree
    simp [taskAt, spawn, taskOf, hnone]
  · rw [Function.update_of_ne hj, taskAt, taskAt, spawn_sleepingThreads, spawn]
    simp [Std.ExtTreeMap.getElem?_insert, Ne.symm hj]

theorem taskAt_dispatch {tid : Nat} (hst : stateOf s tid = some .ready) (rest : List Nat) (j : Nat) :
    taskAt (dispatch .unbounded s tid rest) j =
      (taskAt s j).map (fun t => if j = tid then t.start else t) := by
  rw [taskAt, taskAt, dispatch_sleepingThreads, dispatch, Maps.getElem?_modify]
  by_cases hj : j = tid
  · subst hj
    obtain ⟨t, ht, hstate⟩ := exists_thread hst
    simp [ht, taskOf, hstate, Task.start, Width.unbounded]
  · simp [hj, Ne.symm hj, Function.comp_def]

variable {t : Task} {s₁ : Scheduler}

theorem exists_running_task (hi : Inv s) : ∃ t, taskAt s s.runningThreadTid = some t := by
  obtain ⟨t, ht, -⟩ := exists_running hi
  exact ⟨_, by rw [taskAt, ht, Option.map_some]⟩

theorem leave_tasks (hi : Inv s) (hT : 0 ≤ s.totalQuantums) (hl : Leave .unbounded s e s₁) :
    ∃ task, (∀ c, e = .call c → Leaves 0 (pool s hi) (request c) task) ∧
      (e = .tick → task = taskAt s) ∧
      ∀ tid, taskAt s₁ tid = (task tid).map (Task.wake s.totalQuantums.toNat) := by
  have hrun := hi.tables.stateOf_running
  obtain ⟨t, ht⟩ := exists_running_task hi
  cases hl with
  | tick =>
      refine ⟨taskAt s, by simp, fun _ => rfl, fun tid => ?_⟩
      rw [← taskAt_wake hT]
      exact taskAt_mark (s := wake .unbounded s) hrun (by simp) tid rfl rfl
  | block hr h0 =>
      refine ⟨taskAt (block s s.runningThreadTid), ?_, by simp,
        fun tid => taskAt_wake (s := block s s.runningThreadTid) hT tid⟩
      rintro c hc
      obtain rfl := Event.call.inj hc
      rw [taskAt_block, ht, request, hr]
      exact .block h0 ht
  | @sleep n hn h0 =>
      refine ⟨taskAt (sleep .unbounded s s.runningThreadTid (sizeOfInt n.toInt)), ?_, by simp,
        fun tid => taskAt_wake (s := sleep .unbounded s s.runningThreadTid (sizeOfInt n.toInt)) hT tid⟩
      rintro c hc
      obtain rfl := Event.call.inj hc
      have hsize := sizeOfInt_of_pos hn
      rw [taskAt_sleep hrun, ht, request, if_neg (by omega)]
      exact .sleep (by omega) h0 ht
  | terminate hr h0 =>
      refine ⟨taskAt (drop s s.runningThreadTid), ?_, by simp,
        fun tid => taskAt_wake (s := drop s s.runningThreadTid) hT tid⟩
      rintro c hc
      obtain rfl := Event.call.inj hc
      rw [taskAt_drop, request, hr]
      exact .terminate h0

theorem switch_of_leave (hi : Inv s) (hT : 0 ≤ s.totalQuantums) (hl : Leave .unbounded s e s₁)
    {task : Nat → Option Task}
    (htask : ∀ tid, taskAt s₁ tid = (task tid).map (Task.wake s.totalQuantums.toNat)) {next : Nat}
    {rest : List Nat} (hq : s₁.readyThreads = next :: rest)
    (hi' : Inv (dispatch .unbounded s₁ next rest)) :
    Switch (pool s hi) task next (pool (dispatch .unbounded s₁ next rest) hi') where
  queue := by
    have hw := hl.wf .unbounded hi.tables
    obtain ⟨new, hnew⟩ := RoundRobin.queue_leave .unbounded hl
    have hnd := List.nodup_append.mp (hnew ▸ hw.nodup)
    refine ⟨new, hnd.2.1, fun tid => ?_, by rw [pool, ← hnew, hq]; rfl⟩
    have hready := ready_iff hw tid
    simp only [reduceCtorEq, false_or, hnew, List.mem_append, htask, Option.map_eq_some_iff] at hready
    constructor
    · intro hm
      obtain ⟨_, ⟨t, ht, rfl⟩, hr⟩ := hready.mp (.inr hm)
      exact ⟨fun hq => hnd.2.2 tid hq tid hm rfl, t, ht, hr⟩
    · rintro ⟨hnq, t, ht, hr⟩
      exact (hready.mpr ⟨_, ⟨t, ht, rfl⟩, hr⟩).resolve_left hnq
  running := rfl
  task := by
    intro tid
    have hst := stateOf_next (hl.wf .unbounded hi.tables) hq
    change taskAt (dispatch .unbounded s₁ next rest) tid = _
    rw [taskAt_dispatch hst, htask, Option.map_map]
    rfl
  now := by
    have htotal : s₁.totalQuantums = s.totalQuantums := by cases hl <;> rfl
    change (s₁.totalQuantums + 1).toNat = s.totalQuantums.toNat + 1
    omega
  made := by
    have hmade : s₁.nextObject = s.nextObject := by cases hl <;> rfl
    exact hmade

theorem refused_of_fails (hi : Inv s) {c : Call} (hf : Fails s c) :
    Refused 0 (pool s hi) (request c) := by
  cases c with
  | spawn entryPoint =>
      cases entryPoint with
      | none => trivial
      | some entryPoint =>
          intro tid htid
          have hlive := (hf.resolve_left (by simp)) tid (Finset.mem_range.mp htid)
          exact taskAt_eq_none.not.mpr hlive
  | terminate tid => exact taskAt_eq_none.mpr hf
  | block tid =>
      rcases hf with hf | rfl
      · exact .inl (taskAt_eq_none.mpr hf)
      · exact .inr (index_eq_zero.mpr rfl)
  | resume tid => exact taskAt_eq_none.mpr hf
  | sleep n =>
      rw [request]
      split
      · trivial
      · exact hf.resolve_left ‹_›
  | getTid => exact hf.elim
  | getTotalQuantums => exact hf.elim
  | getQuantums tid => exact taskAt_eq_none.mpr hf

theorem answer_failed (r : Request Nat) : answer r (-1) = .failed := if_pos rfl

theorem answer_natCast (r : Request Nat) (n : Nat) : answer r n =
    match r with
    | .spawn | .self => .name n
    | .now | .quantums _ => .number n
    | _ => .done := by
  have hne : (n : Int) ≠ -1 := by omega
  cases r <;> simp [answer, hne]

theorem exists_task {tid : Nat} {st : State} (hst : stateOf s tid = some st) :
    ∃ t, taskAt s tid = some t ∧ (t.stopped = true ↔ st = .blocked) ∧
      (t.wakeAt = none ↔ tid ∉ s.sleepingThreads) := by
  obtain ⟨t, ht, rfl⟩ := exists_thread hst
  refine ⟨_, by rw [taskAt, ht, Option.map_some], ?_, ?_⟩
  · simp [taskOf]
  · simp [taskOf]

/-- Every operation is a step of the pool, with the answer that it returns. -/
theorem step_of_operate (hi : Inv s) (hT : 0 ≤ s.totalQuantums)
    (hx : operate .unbounded s e = some x) (hi' : Inv x.after) :
    Step 0 (pool s hi) (label x) (pool x.after hi') := by
  rcases operate_cases .unbounded hi hx with ⟨v, s', hm, rfl⟩ | ⟨i, s', hm, rfl⟩
  · cases hm with
    | @fail c hf =>
        change Step 0 (pool s hi) (.answer (request c) (answer (request c) (-1))) (pool s hi)
        rw [answer_failed]
        exact .refuse (refused_of_fails hi hf)
    | @read c v hr =>
        cases c with
        | getTid =>
            have hv : v = s.runningThreadTid := hr
            subst hv
            change Step 0 (pool s hi) (.answer .self (answer .self s.runningThreadTid)) (pool s hi)
            rw [answer_natCast]
            exact .self
        | getTotalQuantums =>
            have hv : v = (s.totalQuantums.toNat : Nat) := by
              rw [Int.toNat_of_nonneg hT]
              exact hr
            subst hv
            change Step 0 (pool s hi) (.answer .now (answer .now (s.totalQuantums.toNat : Nat)))
              (pool s hi)
            rw [answer_natCast]
            exact .now
        | getQuantums tid =>
            obtain ⟨t, ht, rfl⟩ := hr
            have htask : (pool s hi).task (index tid) =
                some (taskOf t s.sleepingThreads[index tid]?) := by
              change taskAt s (index tid) = _
              rw [taskAt, ht, Option.map_some]
            change Step 0 (pool s hi) (.answer (.quantums (index tid))
              (answer (.quantums (index tid)) (t.quantumT : Nat))) (pool s hi)
            rw [answer_natCast]
            exact .quantums htask
        | spawn | terminate | block | resume | sleep => exact hr.elim
    | @spawn entryPoint tid hfree hlt hmin =>
        change Step 0 (pool s hi) (.answer .spawn (answer .spawn (tid : Nat))) (pool (spawn s tid) hi')
        rw [answer_natCast]
        refine .spawn (Finset.mem_range.mpr hlt) (taskAt_eq_none.mpr hfree) ?_
        exact ⟨rfl, rfl, taskAt_spawn hi.tables hfree, rfl, rfl⟩
    | @terminate tid hl h0 hr =>
        refine .terminate (taskAt_eq_none.not.mpr hl) (fun he => h0 (index_eq_zero.mp he)) hr ?_
        exact ⟨rfl, Maps.filter_ne_eq_erase hi.tables.nodup _, taskAt_terminate s _, rfl, rfl⟩
    | @blockReady tid hst h0 =>
        obtain ⟨t, ht, -⟩ := exists_task hst
        refine .block ht (fun he => h0 (index_eq_zero.mp he)) ?_ ?_
        · exact fun he => (hi.tables.ready_tally hst).1 (congrArg some he.symm)
        · refine ⟨rfl, Maps.filter_ne_eq_erase hi.tables.nodup _, ?_, rfl, rfl⟩
          change taskAt (block s (index tid)) = _
          rw [taskAt_block, ht, Option.map_some]
          rfl
    | @blockBlocked tid hst h0 =>
        obtain ⟨hr, hnq, -⟩ := hi.tables.blocked_tally hst
        obtain ⟨t, ht, hb⟩ := exists_task hst
        refine .block ht (fun he => h0 (index_eq_zero.mp he)) ?_ ?_
        · exact fun he => hr (congrArg some he.symm)
        · refine ⟨rfl, (List.erase_of_not_mem hnq).symm, ?_, rfl, rfl⟩
          have hstopped : t.stopped = true := hb.1.mpr rfl
          rw [← hstopped]
          exact (Function.update_eq_self_iff.mpr ht.symm).symm
    | @resumeBlocked tid hst =>
        obtain ⟨t, ht, hb, hs⟩ := exists_task hst
        refine .resume ht ⟨rfl, ?_, ?_, rfl, rfl⟩
        · change (enqueue s (index tid)).readyThreads = _
          have hstopped : t.stopped = true := hb.mpr rfl
          rw [enqueue_readyThreads, hstopped]
          by_cases hsleep : index tid ∈ s.sleepingThreads
          · rw [if_pos hsleep, if_neg (fun h => hs.mp h.2 hsleep)]
            rfl
          · rw [if_neg hsleep, if_pos ⟨rfl, hs.mpr hsleep⟩]
            rfl
        · change taskAt (unblock s (index tid)) = _
          rw [taskAt_unblock, ht, Option.map_some]
          rfl
    | @resumeOther tid hl hst =>
        obtain ⟨st, hst'⟩ := Option.ne_none_iff_exists'.mp hl
        obtain ⟨t, ht, hb, -⟩ := exists_task hst'
        have hstopped : t.stopped = false := by
          rw [Bool.eq_false_iff, ne_eq, hb]
          exact fun he => hst (he ▸ hst')
        refine .resume ht ⟨rfl, ?_, ?_, rfl, rfl⟩
        · rw [if_neg (by simp [hstopped])]
        · rw [← hstopped]
          exact (Function.update_eq_self_iff.mpr ht.symm).symm
  · cases hm with
    | @switch _ s₁ tid rest t hl hq ht =>
        obtain ⟨task, hcall, htick, htask⟩ := leave_tasks hi hT hl
        have hsw := switch_of_leave hi hT hl htask hq hi'
        cases e with
        | tick =>
            rw [htick rfl] at hsw
            exact .tick hsw
        | call c => exact .leave (hcall c rfl) hsw

theorem reply_failed (r : Request Nat) : reply (answer r (-1)) = -1 := by
  rw [answer_failed]
  rfl

theorem reply_answer (hi : Inv s) (hT : 0 ≤ s.totalQuantums) (hx : operate .unbounded s e = some x)
    {c : Call} {v : Int} (hc : x.event = .call c) (hv : x.value = some v) :
    reply (answer (request c) v) = v := by
  rcases operate_cases .unbounded hi hx with ⟨u, s', hm, rfl⟩ | ⟨i, s', hm, rfl⟩
  · obtain rfl : e = .call c := hc
    obtain rfl : u = some v := hv
    cases hm with
    | fail => exact reply_failed _
    | @read _ v hr =>
        cases c with
        | getTid =>
            have hv : v = s.runningThreadTid := hr
            rw [hv, request, answer_natCast]
            rfl
        | getTotalQuantums =>
            have hv : v = (s.totalQuantums.toNat : Nat) := by
              rw [Int.toNat_of_nonneg hT]
              exact hr
            rw [hv, request, answer_natCast]
            rfl
        | getQuantums tid =>
            obtain ⟨t, ht, rfl⟩ := hr
            change reply (answer (.quantums (index tid)) (t.quantumT : Nat)) = (t.quantumT : Nat)
            rw [answer_natCast]
            rfl
        | spawn | terminate | block | resume | sleep => exact hr.elim
    | @spawn entryPoint tid =>
        change reply (answer .spawn (tid : Nat)) = (tid : Nat)
        rw [answer_natCast]
        rfl
    | terminate | blockReady | blockBlocked | resumeBlocked | resumeOther => rfl
  · cases hv

theorem total_nonneg (hi : Inv s) (hT : 0 ≤ s.totalQuantums) (hx : operate .unbounded s e = some x) :
    0 ≤ x.after.totalQuantums := by
  rw [total_step hi hx]
  split <;> omega

theorem exec_of_trace {xs : List Entry} (hi : Inv s) (hT : 0 ≤ s.totalQuantums)
    (ht : Trace .unbounded s xs s') (hi' : Inv s') :
    Exec (Step 0) (pool s hi) (xs.map label) (pool s' hi') := by
  induction ht with
  | nil s => exact .nil _
  | cons hx ht ih =>
      have hi₁ := operate_inv .unbounded hi hx
      exact .cons (step_of_operate hi hT hx hi₁) (ih hi₁ (total_nonneg hi hT hx) hi')

theorem trace_append {w : Width} {s'' : Scheduler} {xs ys : List Entry} (ht : Trace w s xs s')
    (ht' : Trace w s' ys s'') : Trace w s (xs ++ ys) s'' := by
  induction ht with
  | nil s => exact ht'
  | cons hx ht ih => exact .cons hx (ih ht')

theorem trace_of_run {w : Width} {h : List Entry} (hr : Run w h s) :
    ∃ q : Int32, 0 ≤ q.toInt ∧ Trace w (initial w q) h.reverse s := by
  induction hr with
  | init hi =>
      obtain ⟨hq, rfl⟩ := eq_initial w hi
      exact ⟨_, hq, .nil _⟩
  | step hr hx ih =>
      obtain ⟨q, hq, ht⟩ := ih
      rw [List.reverse_cons]
      exact ⟨q, hq, trace_append ht (.cons hx (.nil _))⟩

theorem pool_initial (q : Int32) (hi : Inv (initial .unbounded q)) :
    pool (initial .unbounded q) hi = Pool.start (Finset.mem_range.mpr (by decide : 0 < maxThreadNum)) := by
  apply Pool.ext
  · rfl
  · rfl
  · funext tid
    change taskAt (initial .unbounded q) tid = Function.update (fun _ => none) 0 _ tid
    rw [taskAt]
    by_cases h0 : tid = 0
    · subst h0
      simp [initial, taskOf]
    · simp [initial, h0, Ne.symm h0]
  · rfl
  · rfl

theorem main_mem : 0 ∈ Finset.range maxThreadNum := Finset.mem_range.mpr (by decide)

theorem initial_nonneg (q : Int32) : 0 ≤ (initial .unbounded q).totalQuantums := Int.zero_le_ofNat 1

theorem exec_of_run {h : List Entry} (hr : Run .unbounded h s) :
    Exec (Step 0) (Pool.start main_mem) (h.reverse.map label) (pool s (hr.inv .unbounded)) := by
  obtain ⟨q, hq, ht⟩ := trace_of_run hr
  rw [← pool_initial q (inv_initial .unbounded hq)]
  exact exec_of_trace _ (initial_nonneg q) ht _

theorem run_nonneg {h : List Entry} (hr : Run .unbounded h s) : 0 ≤ s.totalQuantums := by
  induction hr with
  | init hi =>
      obtain ⟨-, rfl⟩ := eq_initial .unbounded hi
      exact initial_nonneg _
  | step hr hx ih => exact total_nonneg (hr.inv .unbounded) ih hx

/-- Every run is an execution of the pool, from its start, in which each call
that returns is answered with the value it returns. -/
theorem refines_pool {h : List Entry} (hr : Run .unbounded h s) :
    Exec (Step 0) (Pool.start main_mem) (h.reverse.map label) (pool s (hr.inv .unbounded)) ∧
    ∀ x ∈ h, ∀ c v, x.event = .call c → x.value = some v →
      ∃ a, label x = .answer (request c) a ∧ reply a = v := by
  refine ⟨exec_of_run hr, ?_⟩
  induction hr with
  | init hi => simp
  | @step h s e x hr hx ih =>
      intro y hy c v hc hv
      rcases List.mem_cons.mp hy with rfl | hy
      · refine ⟨answer (request c) v, ?_, ?_⟩
        · rw [label, hc, hv]
        · exact reply_answer (hr.inv .unbounded) (run_nonneg hr) hx hc hv
      · exact ih y hy c v hc hv

theorem refines_pool_mixed : ∃ h s p, Run .unbounded h s ∧ h.length = 7 ∧
    Exec (Step 0) (Pool.start main_mem) [.answer .spawn (.name 1), .answer .spawn (.name 2),
      .answer .spawn (.name 3), .tick 1, .leave (.sleep 5) 2, .answer (.block 3) .done,
      .answer .now (.number 3)] p ∧
    ∀ x ∈ h, ∀ c v, x.event = .call c → x.value = some v →
      ∃ a, label x = .answer (request c) a ∧ reply a = v := by
  have hplays : Plays .unbounded (initial .unbounded 1000) (mixed ++ [.call .getTotalQuantums])
      (fun xs _ => xs.map label = [.answer .spawn (.name 1), .answer .spawn (.name 2),
        .answer .spawn (.name 3), .tick 1, .leave (.sleep 5) 2, .answer (.block 3) .done,
        .answer .now (.number 3)]) := by decide +kernel
  obtain ⟨xs, s, hr, hlabels⟩ := hplays.exists_run (by decide)
  have hlen := congrArg List.length hlabels
  rw [List.length_map] at hlen
  obtain ⟨hexec, hreplies⟩ := refines_pool hr
  rw [List.reverse_reverse, hlabels] at hexec
  exact ⟨_, s, _, hr, List.length_reverse.trans hlen, hexec, hreplies⟩

end Uthreads.Abstraction
