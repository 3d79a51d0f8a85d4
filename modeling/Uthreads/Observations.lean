import Uthreads.Abstraction
import Uthreads.Outcomes

namespace Uthreads.Observations

open Program SignalMachine AtomicMachine Tables Source Api Effects Tallies Configs Moves Runs
open Histories Abstraction Outcomes

variable {w : Width} {s s' s₁ s₂ : Scheduler} {e : Event Call} {x : Entry} {xs : List Entry}

theorem deadline_pos {h : List Entry} (hr : Run .unbounded h s) {tid d : Nat}
    (hd : s.sleepingThreads[tid]? = some d) : 0 < d := by
  induction hr generalizing d with
  | init hi =>
      obtain ⟨-, rfl⟩ := eq_initial .unbounded hi
      simp [initial] at hd
  | @step h s e x hr hx ih =>
      have htotal := total_pos hr
      rcases (deadline_step (hr.inv .unbounded) (by omega) hx d tid).mp hd with
        ⟨hslept, hd⟩ | ⟨-, -, hd, -⟩
      · have hpos := (numQuantums_pos .unbounded (hr.inv .unbounded) hx hslept).2
        omega
      · exact ih hd

theorem state_of_task (hi : Inv s) {tid : Nat} {t : Thread} (ht : s.threads[tid]? = some t) :
    t.state = if t.state = .blocked then .blocked else
      if tid = s.runningThreadTid then .running else .ready := by
  have hst : stateOf s tid = some t.state := by rw [stateOf, ht, Option.map_some]
  have hrun := (hi.tables.tally tid).running
  rw [hst] at hrun
  cases hs : t.state with
  | blocked => rfl
  | running =>
      have heq := hrun.mp (by rw [hs])
      rw [Option.some.injEq] at heq
      simp [heq]
  | ready =>
      have hne : tid ≠ s.runningThreadTid := by
        rintro rfl
        have hrunning := hrun.mpr rfl
        simp [hs] at hrunning
      simp [hne]

theorem deadline_of_task {d d' : Option Nat} (h : d.map (fun d => d - 1) = d'.map (fun d => d - 1))
    (hd : ∀ n, d = some n → 0 < n) (hd' : ∀ n, d' = some n → 0 < n) : d = d' := by
  cases d with
  | none => cases d' with
    | none => rfl
    | some m => simp at h
  | some n => cases d' with
    | none => simp at h
    | some m =>
        have hn := hd n rfl
        have hm := hd' m rfl
        simp only [Option.map_some, Option.some.injEq] at h ⊢
        omega

/-- The tables of s with the timer of r, and with what r has left allocated. -/
def refit (r s : Scheduler) : Scheduler :=
  { s with
    timer := r.timer
    set := r.set
    quantumUsecs := r.quantumUsecs
    sigaction := r.sigaction
    itimer := r.itimer
    objects := r.objects }

def Alike (s s' : Scheduler) : Prop := s' = refit s' s

theorem alike_of_pool {h h' : List Entry} (hr : Run .unbounded h s) (hr' : Run .unbounded h' s')
    (hp : pool s (hr.inv .unbounded) = pool s' (hr'.inv .unbounded)) : Alike s s' := by
  have hi := hr.inv .unbounded
  have hi' := hr'.inv .unbounded
  simp only [pool, ThreadPool.Pool.mk.injEq] at hp
  obtain ⟨hrunning, hqueue, htask, hnow, hmade⟩ := hp
  have htotal := total_pos hr
  have htotal' := total_pos hr'
  have hat : ∀ tid, taskAt s tid = taskAt s' tid := congrFun htask
  have hthreads : s'.threads = s.threads := by
    apply Std.ExtTreeMap.ext_getElem?
    intro tid
    have ht := hat tid
    simp only [taskAt] at ht
    cases hs : s.threads[tid]? with
    | none =>
        rw [hs] at ht
        exact Option.map_eq_none_iff.mp ht.symm
    | some t =>
        rw [hs, Option.map_some] at ht
        obtain ⟨t', ht', heq⟩ := Option.map_eq_some_iff.mp ht.symm
        rw [ht']
        simp only [taskOf, ThreadPool.Task.mk.injEq, decide_eq_decide] at heq
        obtain ⟨hid, hblocked, -, hquantum⟩ := heq
        have hst := state_of_task hi hs
        have hst' := state_of_task hi' ht'
        simp only [hblocked, ← hrunning] at hst'
        have hstate : t'.state = t.state := hst'.trans hst.symm
        rw [Option.some.injEq]
        exact Thread.mk.injEq .. |>.mpr ⟨hid, hstate, hquantum⟩
  have hsleeping : s'.sleepingThreads = s.sleepingThreads := by
    apply Std.ExtTreeMap.ext_getElem?
    intro tid
    have ht := hat tid
    simp only [taskAt, hthreads] at ht
    cases hs : s.threads[tid]? with
    | none =>
        have hl : stateOf s tid = none := by rw [stateOf, hs, Option.map_none]
        have hl' : stateOf s' tid = none := by rw [stateOf, hthreads, hs, Option.map_none]
        rw [not_sleeping_of_not_live hi.tables hl, not_sleeping_of_not_live hi'.tables hl']
    | some t =>
        simp only [hs, Option.map_some, taskOf, Option.some.injEq, ThreadPool.Task.mk.injEq,
          true_and, and_true] at ht
        exact (deadline_of_task ht (fun d => deadline_pos hr) (fun d => deadline_pos hr')).symm
  have hblocked : s'.blockedThreads = s.blockedThreads := by
    apply Std.ExtTreeSet.ext_mem
    intro tid
    rw [(hi.tables.tally tid).blocked, (hi'.tables.tally tid).blocked, stateOf, stateOf, hthreads]
  refine Scheduler.ext rfl rfl ?_ rfl hrunning.symm hthreads hqueue.symm hblocked hsleeping rfl rfl rfl
    hmade.symm
  change s'.totalQuantums = s.totalQuantums
  omega

theorem leave_refit (r : Scheduler) (hl : Leave w s e s₁) :
    Leave w (refit r s) e (refit r s₁) := by
  cases hl with
  | tick => exact .tick
  | block hr h0 => exact .block hr h0
  | sleep hn h0 => exact .sleep hn h0
  | terminate hr h0 => exact .terminate hr h0

theorem move_refit (r : Scheduler) {v : Option Int} (hm : Move w s e (.ret v s₁)) :
    ∃ r', Move w (refit r s) e (.ret v (refit r' s₁)) := by
  cases hm with
  | @fail c hf =>
      have hf' : Fails (refit r s) c := by cases c <;> exact hf
      exact ⟨r, .fail hf'⟩
  | @read c v hr =>
      have hr' : Reads w (refit r s) c v := by cases c <;> exact hr
      exact ⟨r, .read hr'⟩
  | spawn hfree hlt hmin =>
      exact ⟨{ r with objects := s.nextObject :: r.objects }, .spawn hfree hlt hmin⟩
  | terminate hl h0 hr => exact ⟨r, .terminate hl h0 hr⟩
  | blockReady hst h0 => exact ⟨r, .blockReady hst h0⟩
  | blockBlocked hst h0 => exact ⟨r, .blockBlocked hst h0⟩
  | resumeBlocked hst => exact ⟨r, .resumeBlocked hst⟩
  | resumeOther hl hst => exact ⟨r, .resumeOther hl hst⟩

theorem alike_refit (r s : Scheduler) : Alike s (refit r s) := rfl

def seen (x : Entry) : Event Call × Option Int × Bool × Nat :=
  (x.event, x.value, x.switched, x.after.runningThreadTid)

instance : DecidableEq (Event Call × Option Int × Bool × Nat) :=
  inferInstance

theorem operate_alike (hi : Inv s) (hi' : Inv s') (h : Alike s s') (hx : operate w s e = some x) :
    ∃ x', operate w s' e = some x' ∧ seen x' = seen x ∧ Alike x.after x'.after := by
  rw [h] at hi' ⊢
  rcases operate_cases w hi hx with ⟨v, s₁, hm, rfl⟩ | ⟨i, s₁, hm, rfl⟩
  · obtain ⟨r', hm'⟩ := move_refit s' hm
    exact ⟨_, operate_of_move_ret hi' hm', rfl, alike_refit r' s₁⟩
  · cases hm with
    | @switch _ s₂ tid rest t hl hq ht =>
        exact ⟨_, operate_of_leave hi' (leave_refit s' hl) hq, rfl, alike_refit s' _⟩

theorem trace_alike (hi : Inv s) (hi' : Inv s') (h : Alike s s') (ht : Trace w s xs s₁) :
    ∃ xs' s₁', Trace w s' xs' s₁' ∧ xs'.map seen = xs.map seen ∧ Alike s₁ s₁' := by
  obtain ⟨xs', s₁', ht', hmap, -, -, h₁⟩ := trace_simulate seen
    (R := fun s s' => Inv s ∧ Inv s' ∧ Alike s s') (by
      rintro s s' e x ⟨hi, hi', h⟩ hx
      obtain ⟨x', hx', hseen, h'⟩ := operate_alike hi hi' h hx
      exact ⟨x', hx', hseen, operate_inv w hi hx, operate_inv w hi' hx', h'⟩) ht ⟨hi, hi', h⟩
  exact ⟨xs', s₁', ht', hmap, h₁⟩

/-- Two states with the same pool, as a check over the identifiers there can be. -/
def SamePool (s s' : Scheduler) : Prop :=
  s.runningThreadTid = s'.runningThreadTid ∧ s.readyThreads = s'.readyThreads ∧
    s.totalQuantums = s'.totalQuantums ∧ s.nextObject = s'.nextObject ∧
    ∀ tid < maxThreadNum, s.threads[tid]? = s'.threads[tid]? ∧
      s.sleepingThreads[tid]? = s'.sleepingThreads[tid]?

instance (s s' : Scheduler) : Decidable (SamePool s s') :=
  inferInstanceAs (Decidable (_ ∧ _))

theorem SamePool.pool_eq (h : SamePool s s') (hi : Inv s) (hi' : Inv s') :
    pool s hi = pool s' hi' := by
  obtain ⟨hrunning, hready, htotal, hmade, h⟩ := h
  have htask : taskAt s = taskAt s' := by
    funext tid
    rcases Nat.lt_or_ge tid maxThreadNum with hlt | hge
    · rw [taskAt, taskAt, (h tid hlt).1, (h tid hlt).2]
    · rw [taskAt_eq_none.mpr (hi.tables.not_live_of_le hge),
        taskAt_eq_none.mpr (hi'.tables.not_live_of_le hge)]
  simp only [pool, ThreadPool.Pool.mk.injEq]
  exact ⟨hrunning, hready, htask, congrArg Int.toNat htotal, hmade⟩

def busy : List (Event Call) :=
  [.call (.spawn (some 7)), .call (.spawn (some 8)), .tick, .call (.sleep 3)]

/-- The same threads with other entry points, and one of them blocked for a while. -/
def busier : List (Event Call) :=
  [.call .getTid, .call (.spawn (some 8)), .call (.spawn (some 9)), .call (.block 2),
    .call (.sleep 1), .call (.resume 2), .tick, .call (.block 0), .call (.sleep 3)]

end Uthreads.Observations
