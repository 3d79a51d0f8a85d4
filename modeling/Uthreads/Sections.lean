import Uthreads.Api
import Uthreads.Discipline

namespace Uthreads.Sections

open Program SignalMachine Tables Source Api Discipline
open Program.Prog (state modify print call)

variable {α β : Type} {r : Prop} {l : Bool} {d : Nat} (w : Width)

/-- What the writes of every operation preserve, once uthread_init has returned. -/
def Configured (s : Scheduler) : Prop := s.set = true

theorem steady_state : Steady Configured 0 (state : Code Scheduler) := .get fun _ => .pure

theorem steady_modify {f : Scheduler → Scheduler} (hf : ∀ s, Configured s → Configured (f s)) :
    Steady Configured 0 (modify f : Code Unit) := .set hf .pure

theorem steady_ite {c : Prop} [Decidable c] {p q : Code α} (hp : Steady Configured 0 p)
    (hq : Steady Configured 0 q) : Steady Configured 0 (if c then p else q) := by
  split
  · exact hp
  · exact hq

theorem steady_handleErrorLibrary (errorMsg : String) :
    Steady Configured 0 (handleErrorLibrary errorMsg) := .call (.print .pure)

theorem steady_handleErrorSystemCall (errorMsg : String) :
    Steady Configured 0 (handleErrorSystemCall errorMsg) := .call (.print .exit)

theorem steady_getThread (i : Nat) : Steady Configured 0 (getThread i) := by
  refine .call (steady_state.bind fun s => ?_)
  split
  · exact .pure
  · exact .fault

theorem steady_checkThread (i : Nat) : Steady Configured 0 (checkThread i) :=
  .call (steady_state.bind fun _ => .pure)

theorem steady_setThread (i : Nat) (thread : Thread) : Steady Configured 0 (setThread i thread) := by
  refine .call (steady_state.bind fun s => steady_ite ?_ ?_)
  · exact steady_handleErrorLibrary _
  · exact .bind (steady_modify fun _ hs => hs) fun _ => .pure

theorem steady_pushReady (tid : Nat) : Steady Configured 0 (pushReady tid) :=
  steady_modify fun _ hs => hs

theorem steady_setState (tid : Nat) (st : State) : Steady Configured 0 (setState tid st) :=
  steady_modify fun _ hs => hs

theorem steady_readyThread (tid : Nat) : Steady Configured 0 (readyThread tid) := by
  refine .call ((steady_getThread tid).bind fun _ => (steady_setState _ _).bind fun _ => ?_)
  exact steady_state.bind fun _ => steady_ite (steady_pushReady tid) .pure

theorem steady_setitimer : Steady Configured 0 setitimer := by
  refine steady_state.bind fun s => steady_ite ?_ .pure
  exact .bind (steady_modify fun _ hs => hs) fun _ => .pure

theorem steady_resetTime : Steady Configured 0 resetTime :=
  .call (steady_setitimer.bind fun _ => steady_ite (steady_handleErrorSystemCall _) .pure)

theorem steady_collectAwake (entries : List (Nat × Nat)) (awake : List Nat) :
    Steady Configured 0 (collectAwake w entries awake) := by
  induction entries generalizing awake with
  | nil => exact .pure
  | cons e entries ih =>
      refine (steady_getThread e.1).bind fun t => steady_state.bind fun s => steady_ite ?_ (ih _)
      exact steady_ite ((steady_pushReady _).bind fun _ => ih _) (ih _)

theorem steady_eraseAwake (awake : List Nat) : Steady Configured 0 (eraseAwake awake) := by
  induction awake with
  | nil => exact .pure
  | cons tid awake ih => exact .bind (steady_modify fun _ hs => hs) fun _ => ih

theorem steady_handleSleepThreads : Steady Configured 0 (handleSleepThreads w) :=
  .call (steady_state.bind fun _ => (steady_collectAwake w _ _).bind fun _ => steady_eraseAwake _)

theorem steady_runNextThread : Steady Configured 0 (runNextThread w) := by
  refine .call (.bind (steady_modify fun _ hs => hs) fun _ => steady_state.bind fun s => ?_)
  split
  · exact .fault
  · refine .bind (steady_modify fun _ hs => hs) fun _ => .bind (steady_modify fun _ hs => hs) fun _ => ?_
    refine steady_state.bind fun _ => (steady_getThread _).bind fun t => ?_
    exact (steady_setState _ _).bind fun _ => .bind (steady_modify fun _ hs => hs) fun _ => .longjmp

theorem steady_readyAt (i : Nat) : Steady Configured 0 (readyAt i) := by
  refine steady_state.bind fun s => ?_
  split
  · exact .pure
  · exact .fault

theorem steady_eraseReady (i : Nat) : Steady Configured 0 (eraseReady i) :=
  steady_state.bind fun _ => steady_ite (steady_modify fun _ hs => hs) .fault

theorem steady_removeThreadFromReady (tid : Nat) : Steady Configured 0 (removeThreadFromReady tid) := by
  have hloop : ∀ fuel i, Steady Configured 0 (removeFromReadyLoop tid fuel i) := by
    intro fuel
    induction fuel with
    | zero => exact fun _ => .fault
    | succ fuel ih =>
        intro i
        refine steady_state.bind fun s => steady_ite ((steady_readyAt i).bind fun other => ?_) .pure
        exact steady_ite ((steady_eraseReady i).bind fun _ => ih _) (ih _)
  exact .call (steady_state.bind fun _ => hloop _ _)

theorem steady_removeThread (tid : Nat) : Steady Configured 0 (removeThread w tid) := by
  refine .call ((steady_checkThread tid).bind fun b => steady_ite (steady_handleErrorLibrary _) ?_)
  refine (steady_getThread tid).bind fun t => .bind (steady_modify fun _ hs => hs) fun _ => ?_
  have hsleep : Steady Configured 0 (do
      if tid ∈ (← state).sleepingThreads then
        modify (fun s => { s with sleepingThreads := s.sleepingThreads.erase tid })
      return 0 : Code Int) :=
    steady_state.bind fun _ => steady_ite (.bind (steady_modify fun _ hs => hs) fun _ => .pure) .pure
  split
  · exact (steady_removeThreadFromReady tid).bind fun _ => hsleep
  · exact steady_resetTime.bind fun _ => (steady_handleSleepThreads w).bind fun _ =>
      (steady_runNextThread w).bind fun _ => hsleep
  · exact .bind (steady_modify fun _ hs => hs) fun _ => hsleep

theorem steady_unblockThread (tid : Nat) : Steady Configured 0 (unblockThread tid) := by
  refine .call ((steady_getThread tid).bind fun t => ?_)
  split
  · exact (steady_readyThread tid).bind fun _ => steady_modify fun _ hs => hs
  · exact .pure
  · exact .pure

theorem steady_removeAll : Steady Configured 0 removeAll := by
  have hloop : ∀ entries, Steady Configured 0 (deleteAll entries) := by
    intro entries
    induction entries with
    | nil => exact .pure
    | cons e entries ih =>
        refine .bind (steady_state.bind fun s => steady_ite ?_ .fault) fun _ => ih
        exact steady_modify fun _ hs => hs
  exact .call (steady_state.bind fun _ => (hloop _).bind fun _ => steady_modify fun _ hs => hs)

theorem steady_handleForcedExit : Steady Configured 0 handleForcedExit := .call .exit

theorem steady_uthreadGetTid : Steady Configured 0 uthreadGetTid :=
  .call (.call (steady_state.bind fun _ => .pure))

theorem blockSignals_eq : blockSignals = .note (.enter .blockSignals)
    (.sigprocmask true (fun s => s.set) (.note .leave (.pure 0))) := rfl

theorem unblockSignals_eq : unblockSignals = .note (.enter .unblockSignals)
    (.sigprocmask false (fun s => s.set) (.note .leave (.pure 0))) := rfl

theorem steady_blockSignals : Steady Configured 0 blockSignals := .enter (.mask (.leave .pure))

theorem closing_unblockSignals {f : Int → Code α} {v : α} (h : Quiet Configured v (f 0)) :
    Closing Configured v (unblockSignals >>= f) := by
  rw [unblockSignals_eq]
  exact .note (.unmask (fun _ hs => hs) (.note h))

theorem section_unblockSignals {f : Int → Code α} {v : α} (h : Quiet Configured v (f 0)) :
    Section Configured r false d (unblockSignals >>= f) := by
  rw [unblockSignals_eq]
  exact .note (.unmask (fun _ hs => hs) (.note h))

theorem opening_call {g : Fn} {rest : Int → Code Int}
    (h : Section Configured r false 0 (rest 0 >>= fun a => .note .leave (.pure a))) :
    Opening Configured r (call g (blockSignals >>= rest)) := by
  rw [blockSignals_eq]
  exact .note (.note (.mask (fun _ hs => hs) (.note h)))

theorem section_call {g : Fn} {body : Code α} {f : α → Code β}
    (h : Section Configured r l (d + 1) (body >>= fun a => .note .leave (f a))) :
    Section Configured r l d (call g body >>= f) := by
  have hbind : call g body >>= f = .note (.enter g) (body >>= fun a => .note .leave (f a)) := by
    rw [call, Prog.bind_eq, Prog.bind_eq, Prog.bind, Prog.bind_bind]
    rfl
  exact hbind ▸ .note h

theorem section_ite {c : Prop} [Decidable c] {p q : Code α} (hp : Section Configured r l d p)
    (hq : Section Configured r l d q) : Section Configured r l d (if c then p else q) := by
  split
  · exact hp
  · exact hq

theorem section_saveCurrentExecutionContext {f : Int → Code α} {v : α}
    (h : Section Configured r true d (f 0)) (hq : Quiet Configured v (f 1)) :
    Section Configured r false d (saveCurrentExecutionContext >>= f) := by
  apply section_call
  rw [bind_assoc]
  refine steady_state.section_bind fun s => ?_
  rw [bind_assoc]
  refine (steady_getThread _).section_bind fun t => ?_
  have hq' : Closing Configured v ((unblockSignals >>= fun _ => pure 1) >>= fun a =>
      .note .leave (f a)) := by
    rw [bind_assoc]
    exact closing_unblockSignals (.note hq)
  exact .setjmp (.note h) (.leave _) hq'

theorem section_newThread {st : State} {quantum : Nat} {entryPoint : Option Nat}
    {f : Thread → Code α} (hf : ∀ t, Section Configured r l d (f t)) :
    Section Configured r l d (newThread st quantum entryPoint >>= f) := by
  apply section_call
  rw [bind_assoc]
  refine steady_state.section_bind fun s => ?_
  rw [bind_assoc]
  refine Steady.section_bind (steady_modify fun _ hs => hs) fun _ => ?_
  exact .make (.note (hf _))

theorem section_addNewThread {st : State} {quantum : Nat} {entryPoint : Option Nat}
    {f : Int → Code α} (hf : ∀ v, Section Configured r l d (f v)) :
    Section Configured r l d (addNewThread st quantum entryPoint >>= f) := by
  apply section_call
  induction List.range maxThreadNum with
  | nil => exact .note (hf _)
  | cons tid tids ih =>
      rw [addNewThreadLoop, bind_assoc]
      refine (steady_checkThread tid).section_bind fun b => ?_
      split
      · rw [bind_assoc]
        refine section_newThread fun t => ?_
        rw [bind_assoc]
        refine (steady_setThread _ _).section_bind fun _ => ?_
        split
        · rw [bind_assoc]
          exact (steady_pushReady _).section_bind fun _ => .note (hf _)
        · exact .note (hf _)
      · exact ih

theorem section_runNextThread : Section Configured r true d (runNextThread w) := by
  refine .note (.bind_of_saved ?_)
  refine Steady.section_bind (steady_modify fun _ hs => hs) fun _ => steady_state.section_bind fun s => ?_
  split
  · exact .fault
  · refine Steady.section_bind (steady_modify fun _ hs => hs) fun _ => ?_
    refine Steady.section_bind (steady_modify fun _ hs => hs) fun _ => ?_
    refine steady_state.section_bind fun _ => (steady_getThread _).section_bind fun t => ?_
    refine (steady_setState _ _).section_bind fun _ => ?_
    exact Steady.section_bind (steady_modify fun _ hs => hs) fun _ => .longjmp

theorem section_leave (f : Unit → Code α) : Section Configured r true d
    (resetTime >>= fun _ => handleSleepThreads w >>= fun _ => runNextThread w >>= f) :=
  steady_resetTime.section_bind fun _ => (steady_handleSleepThreads w).section_bind fun _ =>
    (section_runNextThread w).bind_of_saved

theorem section_changeThread {f : Unit → Code α} {v : α} (hq : Quiet Configured v (f ())) :
    Section Configured r false d (changeThread w >>= f) := by
  apply section_call
  rw [bind_assoc]
  refine steady_blockSignals.section_bind fun _ => ?_
  rw [bind_assoc]
  refine steady_setitimer.section_bind fun _ => ?_
  have hsave : Section Configured r false (d + 1)
      (saveCurrentExecutionContext >>= fun resumed =>
        (if resumed = 1 then pure () else do
          handleSleepThreads w
          readyThread (← state).runningThreadTid
          runNextThread w
          let _ ← unblockSignals) >>= fun a => .note .leave (f a)) := by
    refine section_saveCurrentExecutionContext (v := v) ?_ (.note hq)
    simp only [zero_ne_one, if_false, bind_assoc]
    refine (steady_handleSleepThreads w).section_bind fun _ => steady_state.section_bind fun s => ?_
    exact (steady_readyThread _).section_bind fun _ => (section_runNextThread w).bind_of_saved
  dsimp only
  split
  · rw [bind_assoc]
    refine (steady_handleErrorSystemCall _).section_bind fun _ => ?_
    rw [bind_assoc]
    exact hsave
  · rw [bind_assoc]
    exact hsave

theorem section_sigvtalrm : Section Configured r false d (sigvtalrm w) := by
  refine steady_state.section_bind fun s => section_ite ?_ .exit
  exact .note (section_changeThread w (.note .pure))

theorem section_blockThread {tid : Nat} {f : Unit → Code α} {v : α}
    (hf : Section Configured r false d (f ())) (hq : Quiet Configured v (f ())) :
    Section Configured r false d (blockThread w tid >>= f) := by
  apply section_call
  rw [bind_assoc]
  refine (steady_getThread tid).section_bind fun t => ?_
  split
  · rw [bind_assoc]
    refine Steady.section_bind (steady_modify fun _ hs => hs) fun _ => ?_
    rw [bind_assoc]
    refine (steady_setState _ _).section_bind fun _ => ?_
    exact (steady_removeThreadFromReady tid).section_bind fun _ => .note hf
  · rw [bind_assoc]
    refine Steady.section_bind (steady_modify fun _ hs => hs) fun _ => ?_
    rw [bind_assoc]
    refine (steady_setState _ _).section_bind fun _ => ?_
    rw [bind_assoc]
    refine section_saveCurrentExecutionContext (v := v) ?_ (.note hq)
    simp only [zero_ne_one, if_false, bind_assoc]
    exact section_leave w _
  · exact .note hf

theorem section_sleepRunningThread {n : Nat} {f : Unit → Code α} {v : α}
    (hq : Quiet Configured v (f ())) :
    Section Configured r false d (sleepRunningThread w n >>= f) := by
  apply section_call
  rw [bind_assoc]
  refine Steady.section_bind (.call (steady_state.bind fun _ => .pure)) fun tid => ?_
  dsimp only
  rw [bind_assoc]
  refine Steady.section_bind (steady_modify fun _ hs => hs) fun _ => ?_
  rw [bind_assoc]
  refine section_saveCurrentExecutionContext (v := v) ?_ (.note hq)
  simp only [zero_ne_one, if_false, bind_assoc]
  refine (steady_getThread _).section_bind fun _ => (steady_setState _ _).section_bind fun _ => ?_
  exact section_leave w _

/-- The calls that may return with the signal blocked. -/
def Forgets : Call → Prop
  | .spawn entryPoint => entryPoint = none
  | .sleep numQuantums => numQuantums.toInt ≤ 0
  | _ => False

theorem section_end {f : Code Int} {v : Int} (hf : Quiet Configured v f) :
    Section Configured r false d ((unblockSignals >>= fun _ => f) >>= fun a => .note .leave (.pure a)) := by
  rw [bind_assoc]
  exact section_unblockSignals (v := v) (hf.bind (.note .pure))

theorem quiet_handleErrorLibrary (errorMsg : String) :
    Quiet Configured (-1) (handleErrorLibrary errorMsg) := .note (.note (.note .pure))

theorem opening_check {g : Fn} {id : Nat} {bad : Bool → Prop} [∀ b, Decidable (bad b)]
    {errorMsg : String} {rest : Code Int}
    (h : Section Configured r false 0 (rest >>= fun a => .note .leave (.pure a))) :
    Opening Configured r (call g (blockSignals >>= fun _ => checkThread id >>= fun b =>
      if bad b then unblockSignals >>= fun _ => handleErrorLibrary errorMsg else rest)) := by
  apply opening_call
  rw [bind_assoc]
  refine (steady_checkThread id).section_bind fun b => ?_
  split
  · exact section_end (quiet_handleErrorLibrary errorMsg)
  · exact h

theorem opening_uthreadSpawn (entryPoint : Option Nat) :
    Opening Configured (entryPoint = none) (uthreadSpawn entryPoint) := by
  apply opening_call
  by_cases he : entryPoint = none
  · rw [if_pos he]
    exact (steady_handleErrorLibrary _).section_bind fun _ => .note (.pure he)
  · rw [if_neg he, bind_assoc]
    refine section_addNewThread fun tid => ?_
    dsimp only
    split
    · rw [bind_assoc]
      exact (steady_handleErrorLibrary _).section_bind fun _ => section_end .pure
    · exact section_end .pure

theorem opening_uthreadTerminate (tid : Int32) :
    Opening Configured r (uthreadTerminate w tid) := by
  apply opening_call
  have hrest : Section Configured r false 0 ((do
      if (← removeThread w (sizeOfInt tid.toInt)) = failureError then
        let _ ← unblockSignals
        return failureError
      else
        let _ ← unblockSignals
        return 0 : Code Int) >>= fun a => .note .leave (.pure a)) := by
    rw [bind_assoc]
    refine (steady_removeThread w _).section_bind fun v => ?_
    split
    · exact section_end .pure
    · exact section_end .pure
  dsimp only
  split
  · rw [bind_assoc]
    refine steady_removeAll.section_bind fun _ => ?_
    rw [bind_assoc]
    exact steady_handleForcedExit.section_bind fun _ => hrest
  · exact hrest

theorem opening_uthreadBlock (tid : Int32) : Opening Configured r (uthreadBlock w tid) := by
  apply opening_check
  rw [bind_assoc]
  apply section_blockThread w (v := 0) (section_end .pure)
  rw [bind_assoc]
  exact (closing_unblockSignals (.note .pure)).quiet

theorem opening_uthreadResume (tid : Int32) : Opening Configured r (uthreadResume tid) := by
  apply opening_check
  rw [bind_assoc]
  exact (steady_unblockThread _).section_bind fun _ => section_end .pure

theorem opening_uthreadSleep (n : Int32) :
    Opening Configured (n.toInt ≤ 0) (uthreadSleep w n) := by
  apply opening_call
  by_cases hn : n.toInt ≤ 0
  · rw [if_pos hn]
    exact (steady_handleErrorLibrary _).section_bind fun _ => .note (.pure hn)
  · rw [if_neg hn, bind_assoc]
    refine steady_uthreadGetTid.section_bind fun tid => ?_
    split
    · exact section_end (quiet_handleErrorLibrary _)
    · rw [bind_assoc]
      apply section_sleepRunningThread w (v := 0)
      rw [bind_assoc]
      exact (closing_unblockSignals (.note .pure)).quiet

theorem opening_uthreadGetTotalQuantums : Opening Configured r uthreadGetTotalQuantums := by
  apply opening_call
  rw [bind_assoc]
  refine Steady.section_bind (.call (steady_state.bind fun _ => .pure)) fun total => ?_
  exact section_end .pure

theorem opening_uthreadGetQuantums (tid : Int32) :
    Opening Configured r (uthreadGetQuantums w tid) := by
  apply opening_check
  rw [bind_assoc]
  exact (steady_getThread _).section_bind fun t => section_end .pure

/-- Every call opens by blocking the signal, but uthread_get_tid, which reads
one field. -/
theorem opening_api (c : Call) : Opening Configured (Forgets c) (api w c) := by
  cases c with
  | spawn entryPoint => exact opening_uthreadSpawn entryPoint
  | terminate tid => exact opening_uthreadTerminate w tid
  | block tid => exact opening_uthreadBlock w tid
  | resume tid => exact opening_uthreadResume tid
  | sleep n => exact opening_uthreadSleep w n
  | getTid => exact .note (.note (.read fun s => ⟨_, .note (.note .pure)⟩))
  | getTotalQuantums => exact opening_uthreadGetTotalQuantums
  | getQuantums tid => exact opening_uthreadGetQuantums w tid

end Uthreads.Sections
