import Uthreads.Program
import Uthreads.Tables

namespace Uthreads.Source

open Program Tables
open Program.Prog (state modify print call)

inductive Fn
  | handleErrorLibrary | handleErrorSystemCall | handleForcedExit
  | thread | changeThread | readyThread | saveCurrentExecutionContext | handleSleepThreads
  | resetTime | runNextThread | initScheduler | setThread | getThread | addNewThread
  | checkThread | blockSignals | unblockSignals | getTotalQuantums | removeThread
  | removeThreadFromReady | blockThread | unblockThread | getRunningThreadTid
  | sleepRunningThread | removeAll
  | callbackHandler | uthreadInit | uthreadSpawn | uthreadTerminate | uthreadBlock
  | uthreadResume | uthreadSleep | uthreadGetTid | uthreadGetTotalQuantums | uthreadGetQuantums
  deriving DecidableEq

abbrev Code := Prog Scheduler Fn

def sigprocmask (block : Bool) : Code Int := .sigprocmask block (fun s => s.set) (pure 0)

def setitimer : Code Int := do
  let s ← state
  if s.timer.valid then
    modify (fun s => { s with itimer := s.timer })
    return 0
  else
    return failureError

def sigaction : Code Int := do
  modify (fun s => { s with sigaction := true })
  return 0

def sigsetjmp (i : Nat) : Code Int := .sigsetjmp i (fun b => pure (if b then 1 else 0))

def handleErrorLibrary (errorMsg : String) : Code Int := call .handleErrorLibrary do
  print ("thread library error: " ++ errorMsg ++ "\n")
  return failureError

def handleErrorSystemCall (errorMsg : String) : Code Unit := call .handleErrorSystemCall do
  print ("system error: " ++ errorMsg ++ "\n")
  Prog.exit 1

def handleForcedExit : Code Unit := call .handleForcedExit (Prog.exit 0)

/-- new Thread: the object is allocated, and the constructor makes its env a
context that starts at the entry point on the stack of the object with an empty
signal mask, over the point its sigsetjmp saved. -/
def newThread (state : State) (quantum : Nat) (entryPoint : Option Nat) : Code Thread :=
  call .thread do
    let s ← Prog.state
    modify (fun s => { s with nextObject := s.nextObject + 1, objects := s.nextObject :: s.objects })
    .makecontext s.nextObject (entryPoint.getD 0) false (pure ())
    return { id := s.nextObject, state := state, quantumT := quantum }

def deleteThread (id : Nat) : Code Unit := do
  let s ← state
  if id ∈ s.objects then
    modify (fun s => { s with objects := s.objects.erase id })
  else
    Prog.fault "delete of an object that is not allocated"

section Scheduler

variable (w : Width)

def blockSignals : Code Int := call .blockSignals do
  if (← sigprocmask true) = failureError then
    handleErrorSystemCall "Signal Block failed"
  return 0

def unblockSignals : Code Int := call .unblockSignals do
  if (← sigprocmask false) = failureError then
    handleErrorSystemCall "Signal Unblock failed"
  return 0

/-- An id without an entry would make operator[] insert a null pointer. -/
def getThread (i : Nat) : Code Thread := call .getThread do
  match (← state).threads[i]? with
  | some thread => return thread
  | none => Prog.fault "get_thread of an absent id"

def checkThread (i : Nat) : Code Bool := call .checkThread do
  return decide (i ∈ (← state).threads)

def setThread (i : Nat) (thread : Thread) : Code Int := call .setThread do
  if (← state).threads.size > maxThreadNum then
    handleErrorLibrary "Maximum number of threads delimited"
  else
    modify (fun s => { s with threads := s.threads.insert i thread })
    return 0

def pushReady (tid : Nat) : Code Unit :=
  modify (fun s => { s with readyThreads := s.readyThreads ++ [tid] })

def setState (tid : Nat) (state : State) : Code Unit :=
  modify (fun s => s.modifyThread tid (fun thread => { thread with state := state }))

def readyThread (tid : Nat) : Code Unit := call .readyThread do
  let _ ← getThread tid
  setState tid .ready
  if tid ∉ (← state).sleepingThreads then
    pushReady tid

def saveCurrentExecutionContext : Code Int := call .saveCurrentExecutionContext do
  let thread ← getThread (← state).runningThreadTid
  if (← sigsetjmp thread.id) = 1 then
    let _ ← unblockSignals
    return 1
  else
    return 0

/-- The first loop of _handle_sleep_threads, over the entries of the map; it
returns the awake threads. -/
def collectAwake : List (Nat × Nat) → List Nat → Code (List Nat)
  | [], awakeThreads => return awakeThreads
  | (tid, numQuantums) :: rest, awakeThreads => do
      let thread ← getThread tid
      if w.int (w.int numQuantums - 1) ≤ (← state).totalQuantums then
        if thread.state = .ready then
          pushReady tid
        collectAwake rest (awakeThreads ++ [tid])
      else
        collectAwake rest awakeThreads

def eraseAwake : List Nat → Code Unit
  | [] => return
  | awakeThread :: rest => do
      modify (fun s => { s with sleepingThreads := s.sleepingThreads.erase awakeThread })
      eraseAwake rest

def handleSleepThreads : Code Unit := call .handleSleepThreads do
  let awakeThreads ← collectAwake w (← state).sleepingThreads.toList []
  eraseAwake awakeThreads

def resetTime : Code Unit := call .resetTime do
  if (← setitimer) = failureError then
    handleErrorSystemCall "TIMER ERROR"

def runNextThread : Code Unit := call .runNextThread do
  modify (fun s => { s with totalQuantums := w.int (s.totalQuantums + 1) })
  match (← state).readyThreads with
  | [] => Prog.fault "front of an empty deque"
  | tid :: rest =>
      modify (fun s => { s with runningThreadTid := tid })
      modify (fun s => { s with readyThreads := rest })
      let newThread ← getThread (← state).runningThreadTid
      setState tid .running
      modify (fun s => s.modifyThread tid (fun thread =>
        { thread with quantumT := w.sizeT (thread.quantumT + 1) }))
      Prog.siglongjmp newThread.id

def changeThread : Code Unit := call .changeThread do
  let _ ← blockSignals
  if (← setitimer) = failureError then
    handleErrorSystemCall "TIMER ERROR"
  if (← saveCurrentExecutionContext) = 1 then
    return
  else
    handleSleepThreads w
    readyThread (← state).runningThreadTid
    runNextThread w
    let _ ← unblockSignals

def initScheduler : Code Int := call .initScheduler do
  if (← sigaction) = failureError then
    print "Sigaction error.\n"
    return -1
  else
    let thread ← newThread .running 1 none
    if (← setThread 0 thread) = failureError then
      return failureError
    else
      modify (fun s => { s with set := false })
      modify (fun s => { s with set := true })
      modify (fun s => { s with totalQuantums := w.int (s.totalQuantums + 1) })
      modify (fun s => { s with timer.itValue.tvSec := s.quantumUsecs.tdiv second })
      modify (fun s => { s with timer.itValue.tvUsec := s.quantumUsecs.tmod second })
      modify (fun s => { s with timer.itInterval.tvSec := s.quantumUsecs.tdiv second })
      modify (fun s => { s with timer.itInterval.tvUsec := s.quantumUsecs.tmod second })
      if (← setitimer) = failureError then
        handleErrorSystemCall "TIMER ERROR"
      return 0

/-- The loop of add_new_thread over the ids below MAX_THREAD_NUM. -/
def addNewThreadLoop (state : State) (quantum : Nat) (entryPoint : Option Nat) :
    List Nat → Code Int
  | [] => return -1
  | tid :: tids => do
      if !(← checkThread tid) then
        let thread ← newThread state quantum entryPoint
        let _ ← setThread tid thread
        if state = .ready then
          pushReady tid
        return tid
      else
        addNewThreadLoop state quantum entryPoint tids

def addNewThread (state : State) (quantum : Nat) (entryPoint : Option Nat) : Code Int :=
  call .addNewThread (addNewThreadLoop state quantum entryPoint (List.range maxThreadNum))

def getTotalQuantums : Code Int := call .getTotalQuantums do
  return (← state).totalQuantums

def getRunningThreadTid : Code Int := call .getRunningThreadTid do
  return intOfSize (← state).runningThreadTid

def readyAt (i : Nat) : Code Nat := do
  match (← state).readyThreads[i]? with
  | some tid => return tid
  | none => Prog.fault "index out of the range of a deque"

/-- ready_threads.erase(ready_threads.begin() + (int) i). -/
def eraseReady (i : Nat) : Code Unit := do
  let offset := intOfSize i
  if 0 ≤ offset ∧ offset < (← state).readyThreads.length then
    modify (fun s => { s with readyThreads := s.readyThreads.eraseIdx offset.toNat })
  else
    Prog.fault "erase out of the range of a deque"

/-- The loop of remove_thread_from_ready from index i on. Each round shortens
what is left of the deque, so its length plus one is fuel enough. -/
def removeFromReadyLoop (tid : Nat) : Nat → Nat → Code Unit
  | 0, _ => Prog.fault "out of fuel"
  | fuel + 1, i => do
      if i < (← state).readyThreads.length then
        if (← readyAt i) = tid then
          eraseReady i
        removeFromReadyLoop tid fuel (i + 1)

def removeThreadFromReady (tid : Nat) : Code Unit := call .removeThreadFromReady do
  removeFromReadyLoop tid ((← state).readyThreads.length + 1) 0

def removeThread (tid : Nat) : Code Int := call .removeThread do
  if !(← checkThread tid) then
    handleErrorLibrary "No thread with Id to remove"
  else
    let thread ← getThread tid
    modify (fun s => { s with threads := s.threads.erase tid })
    match thread.state with
    | .ready => removeThreadFromReady tid
    | .running =>
        resetTime
        handleSleepThreads w
        runNextThread w
    | .blocked => modify (fun s => { s with blockedThreads := s.blockedThreads.erase tid })
    if tid ∈ (← state).sleepingThreads then
      modify (fun s => { s with sleepingThreads := s.sleepingThreads.erase tid })
    return 0

def blockThread (tid : Nat) : Code Unit := call .blockThread do
  let thread ← getThread tid
  match thread.state with
  | .ready =>
      modify (fun s => { s with blockedThreads := s.blockedThreads.insert tid })
      setState tid .blocked
      removeThreadFromReady tid
  | .running =>
      modify (fun s => { s with blockedThreads := s.blockedThreads.insert tid })
      setState tid .blocked
      if (← saveCurrentExecutionContext) = 1 then
        return
      else
        resetTime
        handleSleepThreads w
        runNextThread w
  | .blocked => return

def unblockThread (tid : Nat) : Code Unit := call .unblockThread do
  let thread ← getThread tid
  match thread.state with
  | .blocked =>
      readyThread tid
      modify (fun s => { s with blockedThreads := s.blockedThreads.erase tid })
  | .running | .ready => return

def sleepRunningThread (numQuantums : Nat) : Code Unit := call .sleepRunningThread do
  let tid := sizeOfInt (← getRunningThreadTid)
  modify (fun s => { s with
    sleepingThreads := s.sleepingThreads.insert tid
      (w.sizeT (w.sizeT (w.sizeT s.totalQuantums + numQuantums) + 1)) })
  if (← saveCurrentExecutionContext) = 1 then
    return
  else
    let _ ← getThread tid
    setState tid .ready
    resetTime
    handleSleepThreads w
    runNextThread w

def deleteAll : List (Nat × Thread) → Code Unit
  | [] => return
  | (_, thread) :: rest => do
      deleteThread thread.id
      deleteAll rest

def removeAll : Code Unit := call .removeAll do
  deleteAll (← state).threads.toList
  modify (fun s => { s with threads := ∅ })

end Scheduler

end Uthreads.Source
