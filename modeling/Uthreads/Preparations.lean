import Uthreads.Abstraction
import Uthreads.Batches

namespace Uthreads.Preparations

open Program SignalMachine AtomicMachine Tables Source Api Effects Tallies Configs Moves Runs
open Histories Outcomes Batches

variable {s s' s₁ s'' : Scheduler} {e : Event Call} {x : Entry} {act : Act}
  {l : List Nat} {k : Nat}

def Leads (s s' : Scheduler) : Prop := ∃ xs, Trace .unbounded s xs s'

theorem Leads.refl (s : Scheduler) : Leads s s := ⟨[], .nil s⟩

theorem Leads.trans (h : Leads s s') (h' : Leads s' s'') : Leads s s'' := by
  obtain ⟨xs, ht⟩ := h
  obtain ⟨ys, ht'⟩ := h'
  exact ⟨xs ++ ys, Abstraction.trace_append ht ht'⟩

theorem leads_step (hx : operate .unbounded s e = some x) : Leads s x.after :=
  ⟨[x], .cons hx (.nil _)⟩

theorem Leads.reachable (h : Leads s s') (hr : Reachable .unbounded s) : Reachable .unbounded s' := by
  obtain ⟨xs, ht⟩ := h
  obtain ⟨h, hr⟩ := hr
  exact ⟨_, hr.append .unbounded ht⟩

theorem index_ofNat {tid : Nat} (h : tid < maxThreadNum) : index (Int32.ofNat tid) = tid := by
  have hlt : tid < 100 := h
  rw [index_eq_iff h, Int32.toInt_ofNat']
  apply Int.bmod_eq_of_le
  · simp
  · simp
    omega

theorem size_dispatch (s : Scheduler) (tid : Nat) (rest : List Nat) :
    (dispatch .unbounded s tid rest).threads.size = s.threads.size :=
  Std.ExtTreeMap.size_modify

/-- Threads that end themselves one after the other leave the processor to main. -/
theorem leads_main (hr : Reachable .unbounded s) :
    ∃ s', Leads s s' ∧ s'.runningThreadTid = 0 := by
  induction hn : s.threads.size using Nat.strong_induction_on generalizing s with
  | _ n ih =>
      by_cases h0 : s.runningThreadTid = 0
      · exact ⟨s, .refl s, h0⟩
      · have hi := hr.inv .unbounded
        have hlive : s.runningThreadTid ∈ s.threads := by
          rw [mem_threads, hi.tables.stateOf_running]
          simp
        have hl : Leave .unbounded s _ _ := .terminate (index_ofNat hi.tables.lt_max) h0
        obtain ⟨next, rest, t, hq, -, hp⟩ := Handover.perform_leave hi hl
        have hstep := leads_step (operate_of_jump .unbounded hp)
        have hlt := (size_dispatch (wake .unbounded (drop s s.runningThreadTid)) next rest).trans_lt
          (Maps.size_erase_lt _ hlive)
        obtain ⟨s', h, hmain⟩ := ih _ (hn ▸ hlt) (hstep.reachable hr) rfl
        exact ⟨s', hstep.trans h, hmain⟩

def each (act : Act) (l : List Nat) : List (Act × Int32) := l.map (fun tid => (act, Int32.ofNat tid))

def afterAct : Act → State → Option State
  | .block, _ => some .blocked
  | .resume, st => some (if st = .blocked then .ready else st)
  | .terminate, _ => none

theorem map_state_thread (act : Act) (t : Thread) :
    (act.thread t).map (fun t => t.state) = afterAct act t.state := by
  cases act with
  | block | terminate => rfl
  | resume =>
      simp only [Act.thread, afterAct, Option.map_some]
      split <;> rfl

theorem map_index_each (hl : ∀ tid ∈ l, tid < maxThreadNum) :
    (each act l).map (fun b => index b.2) = l := by
  rw [each, List.map_map]
  conv_rhs => rw [← List.map_id l]
  apply List.map_congr_left
  intro tid ht
  exact index_ofNat (hl tid ht)

theorem actOn_each (hl : ∀ tid ∈ l, tid < maxThreadNum) (j : Nat) :
    actOn (each act l) j = if j ∈ l then some act else none := by
  induction l with
  | nil => rfl
  | cons tid l ih =>
      have ht := index_ofNat (hl tid List.mem_cons_self)
      have hrest := ih fun tid ht => hl tid (List.mem_cons_of_mem _ ht)
      rw [each, List.map_cons, actOn_cons, ht, ← each, hrest]
      by_cases hj : tid = j
      · subst hj
        rw [if_pos rfl, if_pos List.mem_cons_self]
      · rw [if_neg hj]
        simp only [List.mem_cons, Ne.symm hj, false_or]

theorem stateOf_each (h : Done (each act l) s s') (hl : ∀ tid ∈ l, tid < maxThreadNum) (j : Nat) :
    stateOf s' j = if j ∈ l then (stateOf s j).bind (afterAct act) else stateOf s j := by
  rw [stateOf, h.threads, actOn_each hl]
  split
  · simp only [threadAfter, stateOf, Option.map_bind, Option.bind_map]
    congr 1
    funext t
    exact map_state_thread act t
  · rfl

theorem sleeping_each (h : Done (each act l) s s') (hl : ∀ tid ∈ l, tid < maxThreadNum) (j : Nat) :
    j ∈ s'.sleepingThreads ↔ j ∈ s.sleepingThreads ∧ ¬ (j ∈ l ∧ act = .terminate) := by
  rw [Std.ExtTreeMap.mem_iff_isSome_getElem?, h.sleeping, actOn_each hl,
    Std.ExtTreeMap.mem_iff_isSome_getElem?]
  by_cases hj : j ∈ l <;> by_cases hact : act = .terminate <;> simp [hj, hact]

theorem leads_each (act : Act) (hr : Reachable .unbounded s) (hnd : l.Nodup)
    (h : ∀ tid ∈ l, stateOf s tid ≠ none ∧ tid ≠ 0 ∧ tid ≠ s.runningThreadTid) :
    ∃ s', Leads s s' ∧ Done (each act l) s s' := by
  have hi := hr.inv .unbounded
  have hl : ∀ tid ∈ l, tid < maxThreadNum := fun tid ht => (hi.tables.tally tid).bound (h tid ht).1
  have hother : ∀ b ∈ each act l, Other s b.2 := by
    intro b hb
    obtain ⟨tid, ht, rfl⟩ := List.mem_map.mp hb
    obtain ⟨hlive, h0, hne⟩ := h tid ht
    have hindex := index_ofNat (hl tid ht)
    refine ⟨hindex.symm ▸ hlive, fun hz => h0 ?_, hindex.symm ▸ hne⟩
    rw [← hindex, index_eq_zero.mpr hz]
  obtain ⟨s', ⟨xs, ht, -⟩, hdone, -⟩ :=
    executed_batch (w := .unbounded) hi ((map_index_each hl).symm ▸ hnd) hother
  exact ⟨s', ⟨xs, ht⟩, hdone⟩

/-- No sleeper wakes in the next k quantums. -/
def Calm (k : Nat) (s : Scheduler) : Prop :=
  ∀ tid d : Nat, s.sleepingThreads[tid]? = some d → s.totalQuantums + k < d

theorem Calm.not_expired (h : Calm (k + 1) s) {tid d : Nat} (hd : s.sleepingThreads[tid]? = some d) :
    expired .unbounded s d = false := by
  have hlt := h tid d hd
  rw [← Bool.not_eq_true', Histories.not_expired]
  push_cast at hlt
  omega

theorem Calm.wake (h : Calm (k + 1) s) : wake .unbounded s = s := by
  refine Scheduler.ext rfl rfl rfl rfl rfl rfl ?_ rfl ?_ rfl rfl rfl rfl
  · rw [wake_readyThreads, List.append_right_eq_self, List.map_eq_nil_iff, List.filter_eq_nil_iff]
    intro entry hm
    rw [h.not_expired (Std.ExtTreeMap.mem_toList_iff_getElem?_eq_some.mp hm)]
    simp
  · apply Std.ExtTreeMap.ext_getElem?
    intro tid
    rw [wake_sleepingThreads, Maps.getElem?_filter]
    cases hd : s.sleepingThreads[tid]? with
    | none => rfl
    | some d => rw [Option.filter_some, h.not_expired hd, Bool.not_false, if_pos rfl]

theorem calm_done {bs : List (Act × Int32)} (h : Done bs s s') (hc : Calm k s) : Calm k s' := by
  intro tid d hd
  have htotal : s'.totalQuantums = s.totalQuantums := congrArg Prod.fst h.fixed
  rw [h.sleeping] at hd
  split at hd
  · cases hd
  · rw [htotal]
    exact hc tid d hd

/-- The threads that can run, in the order in which they will. -/
def ring (s : Scheduler) : List Nat := s.runningThreadTid :: s.readyThreads

theorem Calm.dispatch (h : Calm (k + 1) s) (tid : Nat) (rest : List Nat) :
    Calm k (dispatch .unbounded s tid rest) := by
  intro j d hd
  have hlt := h j d hd
  simp only [dispatch_totalQuantums, Width.unbounded, id]
  push_cast at hlt
  omega

theorem leads_tick (hr : Reachable .unbounded s) (hc : Calm (k + 1) s) : ∃ s', Leads s s' ∧
    ring s' = (ring s).rotate 1 ∧ Calm k s' ∧
    (∀ tid, stateOf s' tid = some .blocked ↔ stateOf s tid = some .blocked) ∧
    ∀ tid, tid ∈ s'.sleepingThreads ↔ tid ∈ s.sleepingThreads := by
  have hi := hr.inv .unbounded
  have hl := Leave.tick (w := .unbounded) (s := s)
  rw [hc.wake] at hl
  obtain ⟨next, rest, t, hq, -, hp⟩ := Handover.perform_leave hi hl
  refine ⟨_, leads_step (operate_of_jump .unbounded hp), ?_, Calm.dispatch ?_ _ _, fun tid => ?_,
    fun tid => Iff.rfl⟩
  · rw [enqueue_readyThreads, if_neg hi.tables.not_sleeping] at hq
    rw [ring, dispatch_runningThreadTid, dispatch_readyThreads, ← hq, ring, List.rotate_cons_succ,
      List.rotate_zero]
  · exact hc
  · rw [blocked_switch .unbounded hi hl hq s]
    simp [Entry.terminated, Entry.blocked, Entry.resumed]

theorem leads_ticks (n : Nat) (hr : Reachable .unbounded s) (hc : Calm n s) : ∃ s', Leads s s' ∧
    ring s' = (ring s).rotate n ∧
    (∀ tid, stateOf s' tid = some .blocked ↔ stateOf s tid = some .blocked) ∧
    ∀ tid, tid ∈ s'.sleepingThreads ↔ tid ∈ s.sleepingThreads := by
  induction n generalizing s with
  | zero => exact ⟨s, .refl s, (List.rotate_zero _).symm, fun _ => Iff.rfl, fun _ => Iff.rfl⟩
  | succ n ih =>
      obtain ⟨s₁, h₁, hring₁, hc₁, hblocked₁, hasleep₁⟩ := leads_tick hr hc
      obtain ⟨s', h, hring, hblocked, hasleep⟩ := ih (h₁.reachable hr) hc₁
      refine ⟨s', h₁.trans h, ?_, fun tid => (hblocked tid).trans (hblocked₁ tid),
        fun tid => (hasleep tid).trans (hasleep₁ tid)⟩
      rw [hring, hring₁, List.rotate_rotate, Nat.add_comm]

theorem Calm.sleep (h : Calm (k + 1) s) (hT : 0 ≤ s.totalQuantums) {n : Int32} (hn : k < n.toInt)
    (tid : Nat) : Calm (k + 1) (sleep .unbounded s tid (sizeOfInt n.toInt)) := by
  intro j d hd
  rw [sleep_totalQuantums]
  rcases (deadline_sleep hT (by omega) d j tid).mp hd with ⟨-, hd⟩ | ⟨-, hd⟩
  · push_cast
    omega
  · exact h j d hd

theorem leads_sleep (hr : Reachable .unbounded s) (h0 : s.runningThreadTid ≠ 0)
    (hc : Calm (k + 1) s) {n : Int32} (hn : k < n.toInt) : ∃ s', Leads s s' ∧
    ring s' = s.readyThreads ∧ Calm k s' ∧
    (∀ tid, stateOf s' tid = some .blocked ↔ stateOf s tid = some .blocked) ∧
    ∀ tid, tid ∈ s'.sleepingThreads ↔ s.runningThreadTid = tid ∨ tid ∈ s.sleepingThreads := by
  have hi := hr.inv .unbounded
  have hT := hr.elim fun _ hrun => Abstraction.run_nonneg hrun
  have hcs := hc.sleep hT hn s.runningThreadTid
  have hl := Leave.sleep (w := .unbounded) (s := s) (n := n) (by omega) h0
  rw [hcs.wake] at hl
  obtain ⟨next, rest, t, hq, -, hp⟩ := Handover.perform_leave hi hl
  refine ⟨_, leads_step (operate_of_jump .unbounded hp), hq.symm, hcs.dispatch _ _, fun tid => ?_,
    fun tid => ?_⟩
  · rw [blocked_switch .unbounded hi hl hq s]
    simp [Entry.terminated, Entry.blocked, Entry.resumed]
  · rw [dispatch_sleepingThreads, sleep_sleepingThreads, Std.ExtTreeMap.mem_insert,
      compare_eq_iff_eq]

end Uthreads.Preparations
