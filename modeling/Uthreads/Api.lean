import Uthreads.Source
import Uthreads.SignalMachine

namespace Uthreads.Api

open Program SignalMachine Tables Source
open Program.Prog (state modify print call)

variable (w : Width)

def callbackHandler : Code Unit := call .callbackHandler (changeThread w)

/-- The action of SIGVTALRM: the installed handler, or the end of the process. -/
def sigvtalrm : Code Unit := do
  if (← state).sigaction then
    callbackHandler w
  else
    Prog.exit 154

def uthreadInit (quantumUsecs : Int32) : Code Int := call .uthreadInit do
  if quantumUsecs.toInt < 0 then
    handleErrorLibrary "non-positive quantum_usecs"
  else
    modify (fun s => { Scheduler.blank with
      quantumUsecs := quantumUsecs.toInt
      runningThreadTid := 0
      sigaction := s.sigaction
      itimer := s.itimer
      objects := s.objects
      nextObject := s.nextObject })
    initScheduler w

def uthreadSpawn (entryPoint : Option Nat) : Code Int := call .uthreadSpawn do
  let _ ← blockSignals
  if entryPoint = none then
    handleErrorLibrary "Null entry_point"
  else
    let tid ← addNewThread .ready 0 entryPoint
    if tid = failureError then
      let _ ← handleErrorLibrary "Maximum number of threads delimited"
    let _ ← unblockSignals
    return tid

def uthreadTerminate (tid : Int32) : Code Int := call .uthreadTerminate do
  let _ ← blockSignals
  if tid = 0 then
    removeAll
    handleForcedExit
  if (← removeThread w (sizeOfInt tid.toInt)) = failureError then
    let _ ← unblockSignals
    return failureError
  else
    let _ ← unblockSignals
    return 0

def uthreadBlock (tid : Int32) : Code Int := call .uthreadBlock do
  let _ ← blockSignals
  if !(← checkThread (sizeOfInt tid.toInt)) || tid = 0 then
    let _ ← unblockSignals
    handleErrorLibrary "The id is invalid"
  else
    blockThread w (sizeOfInt tid.toInt)
    let _ ← unblockSignals
    return 0

def uthreadResume (tid : Int32) : Code Int := call .uthreadResume do
  let _ ← blockSignals
  if !(← checkThread (sizeOfInt tid.toInt)) then
    let _ ← unblockSignals
    handleErrorLibrary "The id is invalid"
  else
    unblockThread (sizeOfInt tid.toInt)
    let _ ← unblockSignals
    return 0

def uthreadGetTid : Code Int := call .uthreadGetTid getRunningThreadTid

def uthreadSleep (numQuantums : Int32) : Code Int := call .uthreadSleep do
  let _ ← blockSignals
  if numQuantums.toInt ≤ 0 then
    handleErrorLibrary "non-positive quantum error"
  else
    if (← uthreadGetTid) = 0 then
      let _ ← unblockSignals
      handleErrorLibrary "The main thread can't go on sleep state"
    else
      sleepRunningThread w (sizeOfInt numQuantums.toInt)
      let _ ← unblockSignals
      return 0

def uthreadGetTotalQuantums : Code Int := call .uthreadGetTotalQuantums do
  let _ ← blockSignals
  let total ← getTotalQuantums
  let _ ← unblockSignals
  return total

def uthreadGetQuantums (tid : Int32) : Code Int := call .uthreadGetQuantums do
  let _ ← blockSignals
  if !(← checkThread (sizeOfInt tid.toInt)) then
    let _ ← unblockSignals
    handleErrorLibrary "no thread with ID tid exists"
  else
    let quantumThread := w.int (← getThread (sizeOfInt tid.toInt)).quantumT
    let _ ← unblockSignals
    return quantumThread

inductive Call
  | spawn (entryPoint : Option Nat)
  | terminate (tid : Int32)
  | block (tid : Int32)
  | resume (tid : Int32)
  | sleep (numQuantums : Int32)
  | getTid
  | getTotalQuantums
  | getQuantums (tid : Int32)
  deriving DecidableEq

def api : Call → Code Int
  | .spawn entryPoint => uthreadSpawn entryPoint
  | .terminate tid => uthreadTerminate w tid
  | .block tid => uthreadBlock w tid
  | .resume tid => uthreadResume tid
  | .sleep numQuantums => uthreadSleep w numQuantums
  | .getTid => uthreadGetTid
  | .getTotalQuantums => uthreadGetTotalQuantums
  | .getQuantums tid => uthreadGetQuantums w tid

def uthreads : Sys Scheduler Fn Call where
  api := api w
  handler := sigvtalrm w
  armed := Scheduler.armed

end Uthreads.Api
