import Mathlib

namespace Uthreads.Tables

inductive State
  | running
  | blocked
  | ready
  deriving DecidableEq

/-- A Thread object. Its number tells apart the objects that new Thread has
made; the env field is the jump buffer of the same number. -/
structure Thread where
  id : Nat
  state : State
  quantumT : Nat
  deriving DecidableEq

structure Timeval where
  tvSec : Int
  tvUsec : Int
  deriving DecidableEq

structure Itimerval where
  itInterval : Timeval
  itValue : Timeval
  deriving DecidableEq

def maxThreadNum : Nat := 100

def second : Int := 1000000

def failureError : Int := -1

def Timeval.valid (t : Timeval) : Bool := 0 ≤ t.tvSec && 0 ≤ t.tvUsec && t.tvUsec < 1000000

def Itimerval.valid (t : Itimerval) : Bool := t.itInterval.valid && t.itValue.valid

def Itimerval.zero : Itimerval := ⟨⟨0, 0⟩, ⟨0, 0⟩⟩

/-- Conversion of an int to size_t, and of a size_t to int. -/
def sizeOfInt (x : Int) : Nat := (x % 2 ^ 64).toNat

def intOfSize (n : Nat) : Int := (n : Int).bmod (2 ^ 32)

/-- How the quantum counters are read: the value an int or size_t expression
over them takes. -/
structure Width where
  int : Int → Int
  sizeT : Int → Nat

def Width.unbounded : Width := ⟨id, Int.toNat⟩

def Width.lp64 : Width := ⟨fun x => x.bmod (2 ^ 32), sizeOfInt⟩

/-- The Scheduler object. The signal set and the installed action are reduced
to SIGVTALRM; itimer is the value the kernel holds for ITIMER_VIRTUAL, and
objects lists the Thread objects made and not deleted. -/
@[ext]
structure Scheduler where
  timer : Itimerval
  set : Bool
  totalQuantums : Int
  quantumUsecs : Int
  runningThreadTid : Nat
  threads : Std.ExtTreeMap Nat Thread
  readyThreads : List Nat
  blockedThreads : Std.ExtTreeSet Nat
  sleepingThreads : Std.ExtTreeMap Nat Nat
  sigaction : Bool
  itimer : Itimerval
  objects : List Nat
  nextObject : Nat

namespace Scheduler

def blank : Scheduler where
  timer := .zero
  set := false
  totalQuantums := 0
  quantumUsecs := 0
  runningThreadTid := 0
  threads := ∅
  readyThreads := []
  blockedThreads := ∅
  sleepingThreads := ∅
  sigaction := false
  itimer := .zero
  objects := []
  nextObject := 0

def armed (s : Scheduler) : Bool := s.itimer.itValue ≠ ⟨0, 0⟩

def modifyThread (s : Scheduler) (tid : Nat) (f : Thread → Thread) : Scheduler :=
  { s with threads := s.threads.modify tid f }

end Scheduler

/-- The entry of threads that an int argument selects. -/
abbrev index (tid : Int32) : Nat := sizeOfInt tid.toInt

theorem intOfSize_of_small {n : Nat} (h : n < 2147483648) : intOfSize n = n := by
  apply Int.bmod_eq_of_le <;> omega

theorem intOfSize_of_lt {n : Nat} (h : n < maxThreadNum) : intOfSize n = n := by
  have hn : n < 100 := h
  exact intOfSize_of_small (by omega)

theorem intOfSize_lt (n : Nat) : intOfSize n < 2147483648 :=
  Int.bmod_lt (m := 2 ^ 32) (by decide)

theorem bmod_natCast_le (n m : Nat) : (n : Int).bmod m ≤ n := by
  have h : (n : Int) % m ≤ n := by exact_mod_cast Nat.mod_le n m
  rw [Int.bmod_def]
  split
  · exact h
  · omega

theorem intOfSize_le (n : Nat) : intOfSize n ≤ n := bmod_natCast_le n (2 ^ 32)

theorem sizeOfInt_natCast {n : Nat} (h : n < maxThreadNum) : sizeOfInt n = n := by
  have hn : n < 100 := h
  rw [sizeOfInt]
  omega

theorem index_eq_iff {x : Int32} {n : Nat} (h : n < maxThreadNum) : index x = n ↔ x.toInt = n := by
  have hn : n < 100 := h
  have hlt := x.toInt_lt
  have hle := x.le_toInt
  rw [index, sizeOfInt]
  omega

theorem index_eq_zero {x : Int32} : index x = 0 ↔ x = 0 := by
  rw [index_eq_iff (by decide)]
  constructor
  · intro h
    apply Int32.toInt.inj
    simpa using h
  · rintro rfl
    rfl

theorem sizeOfInt_of_pos {x : Int32} (h : 0 < x.toInt) : (sizeOfInt x.toInt : Int) = x.toInt := by
  have hlt := x.toInt_lt
  rw [sizeOfInt]
  omega

end Uthreads.Tables
