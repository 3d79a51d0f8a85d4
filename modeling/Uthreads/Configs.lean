import Uthreads.AtomicMachine
import Uthreads.Tallies

namespace Uthreads.Configs

open Program SignalMachine AtomicMachine Tables Source Api Effects Tallies

variable (w : Width)

def idOf (s : Scheduler) (tid : Nat) : Option Nat := s.threads[tid]?.map (fun t => t.id)

/-- What holds beside the tables after uthread_init: the signal set, the action
and the timer are configured, and the live threads are distinct allocated objects. -/
structure Config (s : Scheduler) : Prop where
  set : s.set = true
  action : s.sigaction = true
  valid : s.timer.valid = true
  itimer : s.itimer = s.timer
  fresh : ∀ tid i, idOf s tid = some i → i < s.nextObject
  unique : ∀ tid tid' i, idOf s tid = some i → idOf s tid' = some i → tid = tid'
  allocated : ∀ tid i, idOf s tid = some i → i ∈ s.objects

def setup (s : Scheduler) : Bool × Bool × Itimerval × Itimerval × Nat × List Nat :=
  (s.set, s.sigaction, s.timer, s.itimer, s.nextObject, s.objects)

/-- No thread object is made, and what the configuration rests on stays. -/
structure Stays (s s' : Scheduler) : Prop where
  setup : setup s' = setup s
  ids : ∀ tid i, idOf s' tid = some i → idOf s tid = some i

structure Inv (s : Scheduler) : Prop where
  tables : Wf s (some s.runningThreadTid)
  config : Config s

variable {s s' s'' : Scheduler} {tid : Nat} {e : Event Call}

theorem Stays.trans (h : Stays s s') (h' : Stays s' s'') : Stays s s'' :=
  ⟨h'.setup.trans h.setup, fun tid i hi => h.ids tid i (h'.ids tid i hi)⟩

theorem Config.stays (h : Config s) (hs : Stays s s') : Config s' := by
  obtain ⟨hsetup, hids⟩ := hs
  simp only [setup, Prod.mk.injEq] at hsetup
  obtain ⟨hset, haction, htimer, hitimer, hnext, hobjects⟩ := hsetup
  refine ⟨hset.trans h.set, haction.trans h.action, htimer ▸ h.valid, ?_, ?_, ?_, ?_⟩
  · rw [hitimer, htimer, h.itimer]
  · intro tid i hi
    exact hnext ▸ h.fresh tid i (hids tid i hi)
  · intro tid tid' i hi hi'
    exact h.unique tid tid' i (hids tid i hi) (hids tid' i hi')
  · intro tid i hi
    exact hobjects ▸ h.allocated tid i (hids tid i hi)

theorem Config.rearm (h : Config s) : rearm s = s := by
  have hi := h.itimer
  cases s
  simp_all [Effects.rearm]

theorem idOf_modify (s : Scheduler) (tid j : Nat) (f : Thread → Thread) (hf : ∀ t, (f t).id = t.id) :
    (s.threads.modify tid f)[j]?.map (fun t => t.id) = idOf s j := by
  rw [Maps.getElem?_modify, idOf]
  split <;> simp [Function.comp_def, hf]

theorem idOf_erase (s : Scheduler) (tid j : Nat) :
    (s.threads.erase tid)[j]?.map (fun t => t.id) = if tid = j then none else idOf s j := by
  rw [Std.ExtTreeMap.getElem?_erase, idOf]
  simp only [compare_eq_iff_eq]
  split <;> rfl

theorem stays_of_modify (s : Scheduler) (tid : Nat) (f : Thread → Thread)
    (hf : ∀ t, (f t).id = t.id) (hq : s'.threads = s.threads.modify tid f)
    (hsetup : setup s' = setup s) : Stays s s' := by
  refine ⟨hsetup, fun j i hi => ?_⟩
  rwa [idOf, hq, idOf_modify s tid j f hf] at hi

theorem stays_of_erase (s : Scheduler) (tid : Nat) (hq : s'.threads = s.threads.erase tid)
    (hsetup : setup s' = setup s) : Stays s s' := by
  refine ⟨hsetup, fun j i hi => ?_⟩
  rw [idOf, hq, idOf_erase] at hi
  split at hi
  · exact absurd hi (by simp)
  · exact hi

theorem stays_wake (s : Scheduler) : Stays s (wake w s) := ⟨rfl, fun _ _ hi => hi⟩

theorem stays_unqueue (s : Scheduler) (tid : Nat) : Stays s (unqueue s tid) :=
  ⟨rfl, fun _ _ hi => hi⟩

theorem stays_enqueue (s : Scheduler) (tid : Nat) : Stays s (enqueue s tid) :=
  stays_of_modify s tid (fun t => { t with state := .ready }) (fun _ => rfl) rfl rfl

theorem stays_block (s : Scheduler) (tid : Nat) : Stays s (block s tid) :=
  stays_of_modify s tid (fun t => { t with state := .blocked }) (fun _ => rfl) rfl rfl

theorem stays_unblock (s : Scheduler) (tid : Nat) : Stays s (unblock s tid) :=
  stays_of_modify s tid (fun t => { t with state := .ready }) (fun _ => rfl) rfl rfl

theorem stays_sleep (s : Scheduler) (tid n : Nat) : Stays s (sleep w s tid n) :=
  stays_of_modify s tid (fun t => { t with state := .ready }) (fun _ => rfl) rfl rfl

theorem stays_dispatch (s : Scheduler) (tid : Nat) (rest : List Nat) :
    Stays s (dispatch w s tid rest) :=
  stays_of_modify s tid
    (fun t => { t with state := .running, quantumT := w.sizeT (t.quantumT + 1) }) (fun _ => rfl) rfl rfl

theorem stays_drop (s : Scheduler) (tid : Nat) : Stays s (drop s tid) :=
  stays_of_erase s tid rfl rfl

theorem stays_terminate (s : Scheduler) (tid : Nat) : Stays s (terminate s tid) :=
  stays_of_erase s tid rfl rfl

theorem Config.spawn (h : Config s) (tid : Nat) : Config (spawn s tid) := by
  have hid : ∀ j i, idOf (Effects.spawn s tid) j = some i →
      (tid = j ∧ i = s.nextObject) ∨ idOf s j = some i := by
    intro j i hi
    simp only [idOf, Effects.spawn, Std.ExtTreeMap.getElem?_insert, compare_eq_iff_eq] at hi
    split at hi
    · rename_i heq
      exact .inl ⟨heq, by simpa using hi.symm⟩
    · exact .inr hi
  refine ⟨h.set, h.action, h.valid, h.itimer, ?_, ?_, ?_⟩
  · intro j i hi
    rcases hid j i hi with ⟨-, rfl⟩ | hi
    · exact Nat.lt_succ_self _
    · exact Nat.lt_succ_of_lt (h.fresh j i hi)
  · intro j j' i hi hi'
    rcases hid j i hi with ⟨rfl, rfl⟩ | hi <;> rcases hid j' _ hi' with ⟨rfl, heq⟩ | hi'
    · rfl
    · exact absurd (h.fresh j' _ hi') (Nat.lt_irrefl _)
    · exact absurd (heq ▸ h.fresh j i hi) (Nat.lt_irrefl _)
    · exact h.unique j j' i hi hi'
  · intro j i hi
    rcases hid j i hi with ⟨-, rfl⟩ | hi
    · exact List.mem_cons_self
    · exact List.mem_cons_of_mem _ (h.allocated j i hi)

end Uthreads.Configs
