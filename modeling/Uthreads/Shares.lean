import Uthreads.Abstraction
import Uthreads.Fairness
import Uthreads.Handover
import Uthreads.Schedulable

namespace Uthreads.Shares

open Program AtomicMachine Tables Source Api Effects Tallies Configs Moves Runs Histories
open RoundRobin Schedulable Refinement Abstraction

variable {s s' : Scheduler} {e : Event Call} {x : Entry} {xs : List Entry} {t u : Nat}

theorem next_label (hi : Inv s) (hx : operate .unbounded s e = some x) :
    (label x).next? = if x.switched then some x.after.runningThreadTid else none := by
  rcases operate_cases .unbounded hi hx with ⟨v, s', hm, rfl⟩ | ⟨i, s', hm, rfl⟩
  · cases hm <;> rfl
  · cases e <;> rfl

theorem dispatches_label (hi : Inv s) (ht : Trace .unbounded s xs s') :
    ThreadPool.dispatches (xs.map label) = dispatches xs := by
  induction ht with
  | nil => rfl
  | @cons s s' e x xs hx ht ih =>
      rw [List.map_cons, Fairness.dispatches_cons, ih (operate_inv .unbounded hi hx),
        next_label hi hx, dispatches, dispatches]
      cases hsw : x.switched <;> simp [hsw]

theorem exec_within {P : ThreadPool.Pool (Finset.range maxThreadNum) → Prop} (hi : Inv s)
    (hT : 0 ≤ s.totalQuantums) (ht : Trace .unbounded s xs s') (hi' : Inv s')
    (hP : ∀ x ∈ xs, ∀ hx : Inv x.after, P (pool x.after hx)) :
    Exec (Within P (ThreadPool.Step 0)) (pool s hi) (xs.map label) (pool s' hi') := by
  induction ht with
  | nil => exact .nil _
  | cons hx ht ih =>
      have hi₁ := operate_inv .unbounded hi hx
      have hstep := step_of_operate hi hT hx hi₁
      exact .cons ⟨hstep, hP _ List.mem_cons_self hi₁⟩
        (ih hi₁ (total_nonneg hi hT hx) hi' fun y hy => hP y (List.mem_cons_of_mem _ hy))

theorem Reachable.trace_inv (hr : Reachable .unbounded s) (ht : Trace .unbounded s xs s') :
    Inv s' := by
  obtain ⟨h, hr⟩ := hr
  exact (hr.append .unbounded ht).inv .unbounded

theorem reachable_nonneg (hr : Reachable .unbounded s) : 0 ≤ s.totalQuantums := by
  obtain ⟨h, hr⟩ := hr
  exact run_nonneg hr

theorem canRun_pool (hi : Inv s) : Fairness.CanRun t (pool s hi) ↔ CanRun s t := List.mem_cons

theorem card_names : (Finset.range maxThreadNum).card = 100 := Finset.card_range _

/-- A thread that can run all the time is overtaken at most once by each other
thread, and of any hundred switches one is to it. -/
theorem fair_share (hr : Reachable .unbounded s) (ht : Trace .unbounded s xs s') (hs : CanRun s t)
    (hrun : ∀ x ∈ xs, CanRun x.after t) :
    (∀ u ≠ t, (dispatches xs).count u ≤ (dispatches xs).count t + 1) ∧
      (dispatches xs).length ≤ 100 * (dispatches xs).count t + 99 := by
  have hi := hr.inv .unbounded
  have hexec := exec_within hi (reachable_nonneg hr) ht (Reachable.trace_inv hr ht)
    fun x hx hi' => (canRun_pool hi').mpr (hrun x hx)
  have hcan := (canRun_pool hi).mpr hs
  rw [← dispatches_label hi ht]
  refine ⟨fun u hu => Fairness.overtaken_once hexec hcan hu, ?_⟩
  have hshare := Fairness.share hexec hcan
  rwa [card_names] at hshare

/-- Thread 1 can run all the time, while thread 2 sleeps. -/
theorem fair_share_slept : ∃ s xs s', Reachable .unbounded s ∧ Trace .unbounded s xs s' ∧
    dispatches xs = [1, 2, 0, 1, 2, 0, 1] ∧
    (∀ u ≠ 1, (dispatches xs).count u ≤ (dispatches xs).count 1 + 1) ∧
    (dispatches xs).length ≤ 100 * (dispatches xs).count 1 + 99 := by
  have hplays : Plays .unbounded (initial .unbounded 1000)
      [.call (.spawn (some 7)), .call (.spawn (some 8))] (fun _ s => CanRun s 1 ∧
        Plays .unbounded s [.tick, .tick, .call (.sleep 1), .tick, .tick, .tick, .tick]
          (fun xs _ => dispatches xs = [1, 2, 0, 1, 2, 0, 1] ∧ ∀ x ∈ xs, CanRun x.after 1)) := by
    decide +kernel
  obtain ⟨xs₀, s, hr, hcan, hplays⟩ := hplays.exists_run (by decide)
  obtain ⟨xs, s', ht, hdispatches, hrun⟩ := hplays.exists_trace
  have hr : Reachable .unbounded s := ⟨_, hr⟩
  obtain ⟨honce, hshare⟩ := fair_share hr ht hcan hrun
  exact ⟨s, xs, s', hr, ht, hdispatches, honce, hshare⟩

/-- The main thread has had at least every hundredth quantum, and no live thread
has had more quantums than it. -/
theorem main_share (hr : Reachable .unbounded s) : ∃ main, s.threads[0]? = some main ∧
    s.totalQuantums ≤ 100 * main.quantumT ∧
    ∀ (tid : Nat) (t : Thread), s.threads[tid]? = some t → t.quantumT ≤ main.quantumT := by
  have hi := hr.inv .unbounded
  have hT := reachable_nonneg hr
  obtain ⟨h, hrun⟩ := hr
  obtain ⟨hnow, hmost⟩ := Fairness.share_main (exec_of_run hrun)
  obtain ⟨st, hst⟩ := Option.ne_none_iff_exists'.mp hi.tables.main.1
  obtain ⟨main, hmain, -⟩ := exists_thread hst
  have hran : ∀ (tid : Nat) (t : Thread), s.threads[tid]? = some t →
      Fairness.ran tid (pool s hi) = t.quantumT := by
    intro tid t ht
    change ((taskAt s tid).map ThreadPool.Task.quantums).getD 0 = t.quantumT
    rw [taskAt, ht]
    rfl
  refine ⟨main, hmain, ?_, fun tid t ht => ?_⟩
  · rw [hran 0 main hmain, card_names] at hnow
    have hnow' : s.totalQuantums.toNat ≤ 100 * main.quantumT := hnow
    omega
  · rw [← hran tid t ht, ← hran 0 main hmain]
    exact hmost tid

theorem main_share_ticks : ∃ s main, Reachable .unbounded s ∧ s.totalQuantums = 5 ∧
    s.threads[0]? = some main ∧ (5 : Int) ≤ 100 * main.quantumT ∧
    s.threads[1]? = some (⟨1, .running, 2⟩ : Thread) ∧ 2 ≤ main.quantumT := by
  have hplays : Plays .unbounded (initial .unbounded 1000)
      [.call (.spawn (some 7)), .call (.spawn (some 8)), .tick, .tick, .tick, .tick]
      (fun _ s => s.totalQuantums = 5 ∧ s.threads[1]? = some (⟨1, .running, 2⟩ : Thread)) := by
    decide +kernel
  obtain ⟨xs, s, hr, htotal, h1⟩ := hplays.exists_run (by decide)
  have hr : Reachable .unbounded s := ⟨_, hr⟩
  obtain ⟨main, hmain, hle, hmost⟩ := main_share hr
  exact ⟨s, main, hr, htotal, hmain, htotal ▸ hle, h1, hmost 1 _ h1⟩

def Unstopped (s : Scheduler) (t : Nat) : Prop :=
  stateOf s t ≠ none ∧ stateOf s t ≠ some .blocked

instance (s : Scheduler) (t : Nat) : Decidable (Unstopped s t) :=
  inferInstanceAs (Decidable (_ ∧ _))

theorem unstopped_pool (hi : Inv s) (h : Unstopped s t) : Fairness.Unstopped t (pool s hi) := by
  obtain ⟨hl, hb⟩ := h
  obtain ⟨st, hst⟩ := Option.ne_none_iff_exists'.mp hl
  obtain ⟨task, htask, hstopped, -⟩ := exists_task hst
  refine ⟨task, htask, ?_⟩
  rw [Bool.eq_false_iff, ne_eq, hstopped]
  exact fun he => hb (he ▸ hst)

/-- A call of uthread_sleep(n) that succeeds gives n quantums to others, and the
sleeper runs again within the hundred after them. -/
theorem sleep_bounds {n : Int32} (hr : Reachable .unbounded s)
    (hx : operate .unbounded s (.call (.sleep n)) = some x) (hsw : x.switched = true)
    (ht : Trace .unbounded x.after xs s')
    (hstay : ∀ y ∈ xs, stateOf y.after s.runningThreadTid ≠ none ∧
      stateOf y.after s.runningThreadTid ≠ some .blocked) :
    s.runningThreadTid ∉ (dispatches (x :: xs)).take n.toInt.toNat ∧
      (dispatchesBefore s.runningThreadTid (x :: xs)).length < n.toInt.toNat + 100 := by
  have hi := hr.inv .unbounded
  have hT := reachable_nonneg hr
  have hi₁ := operate_inv .unbounded hi hx
  obtain ⟨h, hrun⟩ := hr
  have hr₁ : Reachable .unbounded x.after := ⟨_, hrun.step hx⟩
  have hexec := exec_within hi₁ (reachable_nonneg hr₁) ht (Reachable.trace_inv hr₁ ht)
    fun y hy hi' => unstopped_pool hi' (hstay y hy)
  have hlabel := next_label hi hx
  rw [if_pos hsw] at hlabel
  have hstep := step_of_operate hi hT hx hi₁
  have hx' : label x = .leave (.sleep n.toInt.toNat) x.after.runningThreadTid := by
    rcases operate_cases .unbounded hi hx with ⟨v, s', hm, rfl⟩ | ⟨i, s', hm, rfl⟩
    · cases hsw
    · cases hm with
      | switch hl =>
          cases hl with
          | sleep hn =>
              have hsize := sizeOfInt_of_pos hn
              have hn' : sizeOfInt n.toInt = n.toInt.toNat := by omega
              change ThreadPool.Label.leave (request (.sleep n)) _ = _
              rw [request, if_neg (Int.not_le.mpr hn), hn']
  rw [hx'] at hstep
  obtain ⟨hlow, hhigh⟩ := Fairness.sleep_run rfl hstep hexec
  rw [dispatches_label hi₁ ht] at hlow hhigh
  rw [card_names] at hhigh
  have hds : dispatches (x :: xs) = x.after.runningThreadTid :: dispatches xs := by
    rw [dispatches, List.filter_cons_of_pos hsw]
    rfl
  rw [dispatchesBefore, hds]
  exact ⟨hlow, hhigh⟩

theorem sleep_bounds_woken : ∃ s x xs s', Reachable .unbounded s ∧ s.runningThreadTid = 1 ∧
    operate .unbounded s (.call (.sleep 2)) = some x ∧ Trace .unbounded x.after xs s' ∧
    dispatches (x :: xs) = [2, 0, 2, 1] ∧ 1 ∉ (dispatches (x :: xs)).take 2 ∧
    (dispatchesBefore 1 (x :: xs)).length < 102 := by
  have hplays : Plays .unbounded (initial .unbounded 1000)
      [.call (.spawn (some 7)), .call (.spawn (some 8)), .tick] (fun _ s => s.runningThreadTid = 1 ∧
        ∃ x ∈ operate .unbounded s (.call (.sleep 2)), x.switched = true ∧
          Plays .unbounded x.after [.tick, .tick, .tick] (fun xs _ =>
            dispatches (x :: xs) = [2, 0, 2, 1] ∧ ∀ y ∈ xs, Unstopped y.after 1)) := by
    decide +kernel
  obtain ⟨xs₀, s, hr, hone, x, hx, hsw, hplays⟩ := hplays.exists_run (by decide)
  obtain ⟨xs, s', ht, hdispatches, hstay⟩ := hplays.exists_trace
  have hr : Reachable .unbounded s := ⟨_, hr⟩
  rw [← hone] at hstay
  have hbounds := sleep_bounds hr hx hsw ht hstay
  rw [hone] at hbounds
  exact ⟨s, x, xs, s', hr, hone, hx, ht, hdispatches, hbounds.1, hbounds.2⟩

theorem ticks_rotate (hr : Reachable .unbounded s) (ht : Trace .unbounded s xs s')
    (hticks : ∀ x ∈ xs, x.event = .tick)
    (hstill : ∀ (tid d : Nat), s.sleepingThreads[tid]? = some d → stateOf s tid = some .ready →
      s.totalQuantums + xs.length < d) :
    s'.runningThreadTid :: s'.readyThreads =
      (s.runningThreadTid :: s.readyThreads).rotate xs.length ∧
    ∀ i < xs.length, (dispatches xs)[i]? =
      (s.runningThreadTid :: s.readyThreads)[(i + 1) % (s.readyThreads.length + 1)]? := by
  have hi := hr.inv .unbounded
  have hT := reachable_nonneg hr
  have hexec := exec_of_trace hi hT ht (Reachable.trace_inv hr ht)
  have hpool : Fairness.Still (xs.map label).length (pool s hi) := by
    intro tid task d htask hst hd
    obtain ⟨t, hmem, rfl⟩ := Option.map_eq_some_iff.mp htask
    obtain ⟨d', hd', rfl⟩ := Option.map_eq_some_iff.mp hd
    have hstate : stateOf s tid = some .ready := by
      have hlive : stateOf s tid = some t.state := by rw [stateOf, hmem, Option.map_some]
      have hne : t.state ≠ .blocked := by simpa [taskOf] using hst
      have hsleep := (hi.tables.tally tid).sleeping
        (Std.ExtTreeMap.mem_iff_isSome_getElem?.mpr (by simp [hd']))
      cases hcase : t.state with
      | running =>
          have hrun := (hi.tables.tally tid).running.mp (hlive.trans (congrArg some hcase))
          exact absurd hrun hsleep.2
      | ready => rw [hlive, hcase]
      | blocked => exact absurd hcase hne
    have hlt := hstill tid d' hd' hstate
    rw [List.length_map]
    change s.totalQuantums.toNat + xs.length ≤ d' - 1
    omega
  have hlabels : ∀ l ∈ xs.map label, ∃ next, l = .tick next := by
    intro l hl
    obtain ⟨x, hx, rfl⟩ := List.mem_map.mp hl
    exact ⟨_, by rw [label, hticks x hx]⟩
  have hrot := Fairness.rotate_run hexec hlabels hpool
  rw [List.length_map, dispatches_label hi ht] at hrot
  exact hrot

/-- Thread 1 sleeps through four ticks, and the three others take turns. -/
theorem ticks_rotate_slept : ∃ s xs s', Reachable .unbounded s ∧ 1 ∈ s.sleepingThreads ∧
    s.runningThreadTid :: s.readyThreads = [2, 3, 0] ∧ Trace .unbounded s xs s' ∧ xs.length = 4 ∧
    s'.runningThreadTid :: s'.readyThreads = [3, 0, 2] ∧ (dispatches xs)[3]? = some 3 := by
  have hplays : Plays .unbounded (initial .unbounded 1000)
      [.call (.spawn (some 7)), .call (.spawn (some 8)), .call (.spawn (some 9)), .tick,
        .call (.sleep 9)]
      (fun _ s => (1 ∈ s.sleepingThreads ∧ s.runningThreadTid = 2 ∧ s.readyThreads = [3, 0] ∧
          ∀ e ∈ s.sleepingThreads.toList, s.totalQuantums + 4 < (e.2 : Int)) ∧
        Plays .unbounded s [.tick, .tick, .tick, .tick] (fun xs _ =>
          xs.length = 4 ∧ ∀ x ∈ xs, x.event = .tick)) := by decide +kernel
  obtain ⟨xs₀, s, hr, ⟨hsleeps, hrun, hq, hlate⟩, hplays⟩ := hplays.exists_run (by decide)
  obtain ⟨xs, s', ht, hlen, hticks⟩ := hplays.exists_trace
  have hr : Reachable .unbounded s := ⟨_, hr⟩
  obtain ⟨hring, hturn⟩ := ticks_rotate hr ht hticks fun tid d hd _ => by
    rw [hlen]
    exact hlate (tid, d) (Std.ExtTreeMap.mem_toList_iff_getElem?_eq_some.mpr hd)
  have hthird := hturn 3 (by rw [hlen]; decide)
  rw [hrun, hq] at hring hthird
  rw [hlen] at hring
  exact ⟨s, xs, s', hr, hsleeps, by rw [hrun, hq], ht, hlen, hring, hthird⟩

end Uthreads.Shares
