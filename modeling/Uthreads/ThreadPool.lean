import Uthreads.Fifo
import Uthreads.Refinement

namespace Uthreads.ThreadPool

open Refinement

/-- A thread: the number it was made with, whether a request stopped it, the
quantum whose end wakes it if it sleeps, and the quantums it has started. -/
structure Task where
  serial : Nat
  stopped : Bool
  wakeAt : Option Nat
  quantums : Nat

def Task.Ready (t : Task) : Prop := t.stopped = false ∧ t.wakeAt = none

def Task.wake (now : Nat) (t : Task) : Task :=
  { t with wakeAt := t.wakeAt.filter (fun d => now < d) }

def Task.start (t : Task) : Task := { t with quantums := t.quantums + 1 }

inductive Request (α : Type)
  | invalid
  | spawn
  | terminate (a : α)
  | block (a : α)
  | resume (a : α)
  | sleep (n : Nat)
  | self
  | now
  | quantums (a : α)
  deriving DecidableEq

inductive Answer (α : Type)
  | failed
  | done
  | name (a : α)
  | number (n : Nat)
  deriving DecidableEq

inductive Label (α : Type)
  | answer (r : Request α) (v : Answer α)
  | leave (r : Request α) (next : α)
  | tick (next : α)
  deriving DecidableEq

def Label.next? {α : Type} : Label α → Option α
  | .answer _ _ => none
  | .leave _ next | .tick next => some next

def dispatches {α : Type} (ls : List (Label α)) : List α := ls.filterMap Label.next?

/-- The threads under some of the names, with one processor. Those that can run
wait in the queue, but for the one on the processor. -/
@[ext]
structure Pool {α : Type} (names : Finset α) where
  running : α
  queue : List α
  task : α → Option Task
  now : Nat
  made : Nat
  nodup : (running :: queue).Nodup
  ready : ∀ a, a ∈ running :: queue ↔ ∃ t, task a = some t ∧ t.Ready
  named : ∀ a t, task a = some t → a ∈ names

variable {α : Type} [DecidableEq α] {names : Finset α}

def Pool.start {main : α} (hmain : main ∈ names) : Pool names where
  running := main
  queue := []
  task := Function.update (fun _ => none) main (some ⟨0, false, none, 1⟩)
  now := 1
  made := 1
  nodup := List.nodup_singleton main
  ready := by
    intro a
    by_cases ha : a = main
    · subst ha
      simp [Task.Ready]
    · simp [ha]
  named := by
    intro a t ht
    by_cases ha : a = main
    · exact ha ▸ hmain
    · simp [ha] at ht

structure Pool.Has (p : Pool names) (running : α) (queue : List α) (task : α → Option Task)
    (now made : Nat) : Prop where
  running : p.running = running
  queue : p.queue = queue
  task : p.task = task
  now : p.now = now
  made : p.made = made

section Steps

variable (main : α)

def Refused (p : Pool names) : Request α → Prop
  | .invalid => True
  | .spawn => ∀ a ∈ names, p.task a ≠ none
  | .terminate a | .resume a | .quantums a => p.task a = none
  | .block a => p.task a = none ∨ a = main
  | .sleep _ => p.running = main
  | .self | .now => False

inductive Leaves (p : Pool names) : Request α → (α → Option Task) → Prop
  | block {t : Task} (hm : p.running ≠ main) (ht : p.task p.running = some t) :
      Leaves p (.block p.running)
        (Function.update p.task p.running (some { t with stopped := true }))
  | sleep {t : Task} {n : Nat} (hn : 0 < n) (hm : p.running ≠ main)
      (ht : p.task p.running = some t) :
      Leaves p (.sleep n)
        (Function.update p.task p.running (some { t with wakeAt := some (p.now + n) }))
  | terminate (hm : p.running ≠ main) :
      Leaves p (.terminate p.running) (Function.update p.task p.running none)

/-- The end of a quantum: the threads that can run again join the queue, in any
order, and its head gets the processor. -/
structure Switch (p : Pool names) (task : α → Option Task) (next : α) (p' : Pool names) : Prop where
  queue : ∃ new : List α, new.Nodup ∧
    (∀ a, a ∈ new ↔ a ∉ p.queue ∧ ∃ t, task a = some t ∧ (t.wake p.now).Ready) ∧
    p.queue ++ new = next :: p'.queue
  running : p'.running = next
  task : ∀ a, p'.task a = (task a).map (fun t =>
    if a = next then (t.wake p.now).start else t.wake p.now)
  now : p'.now = p.now + 1
  made : p'.made = p.made

inductive Step (p : Pool names) : Label α → Pool names → Prop
  | refuse {r : Request α} (h : Refused main p r) : Step p (.answer r .failed) p
  | self : Step p (.answer .self (.name p.running)) p
  | now : Step p (.answer .now (.number p.now)) p
  | quantums {a : α} {t : Task} (ht : p.task a = some t) :
      Step p (.answer (.quantums a) (.number t.quantums)) p
  | spawn {a : α} {p' : Pool names} (ha : a ∈ names) (hfree : p.task a = none)
      (h : p'.Has p.running (p.queue ++ [a])
        (Function.update p.task a (some ⟨p.made, false, none, 0⟩)) p.now (p.made + 1)) :
      Step p (.answer .spawn (.name a)) p'
  | terminate {a : α} {p' : Pool names} (ht : p.task a ≠ none) (hm : a ≠ main)
      (hr : a ≠ p.running)
      (h : p'.Has p.running (p.queue.erase a) (Function.update p.task a none) p.now p.made) :
      Step p (.answer (.terminate a) .done) p'
  | block {a : α} {t : Task} {p' : Pool names} (ht : p.task a = some t) (hm : a ≠ main)
      (hr : a ≠ p.running)
      (h : p'.Has p.running (p.queue.erase a)
        (Function.update p.task a (some { t with stopped := true })) p.now p.made) :
      Step p (.answer (.block a) .done) p'
  | resume {a : α} {t : Task} {p' : Pool names} (ht : p.task a = some t)
      (h : p'.Has p.running
        (if t.stopped = true ∧ t.wakeAt = none then p.queue ++ [a] else p.queue)
        (Function.update p.task a (some { t with stopped := false })) p.now p.made) :
      Step p (.answer (.resume a) .done) p'
  | tick {next : α} {p' : Pool names} (h : Switch p p.task next p') : Step p (.tick next) p'
  | leave {r : Request α} {task : α → Option Task} {next : α} {p' : Pool names}
      (hl : Leaves main p r task) (h : Switch p task next p') : Step p (.leave r next) p'

end Steps

end Uthreads.ThreadPool
