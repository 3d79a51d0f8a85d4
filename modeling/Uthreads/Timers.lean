import Uthreads.Handover

namespace Uthreads.Timers

open Program SignalMachine AtomicMachine Tables Source Api Effects Tallies Configs Moves Runs
open Handover
open Program.Prog (state modify print call atEnter Avoids)

variable {α : Type} {w : Width} {s s' s₁ : Scheduler} {q : Int32} {x : Itimerval} {tid : Int32}

theorem avoids_state : Avoids .runNextThread (state : Code Scheduler) := fun _ => rfl

theorem avoids_modify (f : Scheduler → Scheduler) :
    Avoids .runNextThread (modify f : Code Unit) := fun _ => rfl

theorem avoids_pure (a : α) : Avoids .runNextThread (pure a : Code α) := fun _ => rfl

theorem avoids_handleErrorSystemCall (errorMsg : String) :
    Avoids .runNextThread (handleErrorSystemCall errorMsg) := fun _ => rfl

theorem avoids_blockSignals : Avoids .runNextThread blockSignals := fun _ => rfl

theorem avoids_unblockSignals : Avoids .runNextThread unblockSignals := fun _ => rfl

theorem avoids_checkThread (i : Nat) : Avoids .runNextThread (checkThread i) := fun _ => rfl

theorem avoids_getThread (i : Nat) : Avoids .runNextThread (getThread i) := by
  refine .call (by decide) (avoids_state.bind fun s => ?_)
  split
  · exact avoids_pure _
  · exact fun _ => rfl

theorem avoids_setitimer : Avoids .runNextThread setitimer :=
  avoids_state.bind fun _ =>
    .ite ((avoids_modify _).bind fun _ => avoids_pure _) (avoids_pure _)

theorem avoids_resetTime : Avoids .runNextThread resetTime :=
  .call (by decide) (avoids_setitimer.bind fun _ =>
    .ite (avoids_handleErrorSystemCall _) (avoids_pure _))

theorem avoids_readyThread (tid : Nat) : Avoids .runNextThread (readyThread tid) :=
  .call (by decide) ((avoids_getThread tid).bind fun _ => (avoids_modify _).bind fun _ =>
    avoids_state.bind fun _ => .ite (avoids_modify _) (avoids_pure _))

theorem avoids_saveCurrentExecutionContext :
    Avoids .runNextThread saveCurrentExecutionContext :=
  .call (by decide) (avoids_state.bind fun _ => (avoids_getThread _).bind fun _ =>
    Avoids.bind (fun _ => rfl) fun _ =>
      .ite (avoids_unblockSignals.bind fun _ => avoids_pure _) (avoids_pure _))

theorem avoids_collectAwake (entries : List (Nat × Nat)) (awake : List Nat) :
    Avoids .runNextThread (collectAwake w entries awake) := by
  induction entries generalizing awake with
  | nil => exact avoids_pure _
  | cons e entries ih =>
      refine (avoids_getThread e.1).bind fun t => avoids_state.bind fun s => .ite ?_ (ih _)
      exact .ite ((avoids_modify _).bind fun _ => ih _) (ih _)

theorem avoids_eraseAwake (awake : List Nat) : Avoids .runNextThread (eraseAwake awake) := by
  induction awake with
  | nil => exact avoids_pure _
  | cons tid awake ih => exact (avoids_modify _).bind fun _ => ih

theorem avoids_handleSleepThreads : Avoids .runNextThread (handleSleepThreads w) :=
  .call (by decide) (avoids_state.bind fun _ => (avoids_collectAwake _ _).bind fun _ =>
    avoids_eraseAwake _)

theorem avoids_getRunningThreadTid : Avoids .runNextThread getRunningThreadTid := fun _ => rfl

theorem avoids_uthreadGetTid : Avoids .runNextThread uthreadGetTid := fun _ => rfl

theorem avoids_setState (tid : Nat) (st : State) : Avoids .runNextThread (setState tid st) :=
  avoids_modify _

/-- The scheduler in a process whose interval timer holds some other value. -/
def retimed (s : Scheduler) (x : Itimerval) : Scheduler := { s with itimer := x }

theorem atEnter_runNextThread (s : Scheduler) :
    (runNextThread w).atEnter .runNextThread s = some s := rfl

theorem rearm_retimed (hc : Config s) : rearm (retimed s x) = s := by
  have h : rearm (retimed s x) = rearm s := rfl
  rw [h, hc.rearm]

theorem run_setitimer_retimed (hc : Config s) : setitimer.run (retimed s x) = .ret 0 s := by
  rw [run_setitimer (by exact hc.valid), rearm_retimed hc]

theorem run_resetTime_retimed (hc : Config s) : resetTime.run (retimed s x) = .ret () s := by
  rw [run_resetTime (by exact hc.valid), rearm_retimed hc]

theorem run_getThread_retimed {i : Nat} {t : Thread} (ht : s.threads[i]? = some t) :
    (getThread i).run (retimed s x) = .ret t (retimed s x) := run_getThread (by exact ht)

theorem run_saveCurrentExecutionContext_retimed {t : Thread}
    (ht : s.threads[s.runningThreadTid]? = some t) :
    saveCurrentExecutionContext.run (retimed s x) = .ret 0 (retimed s x) :=
  run_saveCurrentExecutionContext (by exact ht)

theorem atEnter_next {β : Type} {p : Code α} {f : α → Code β} {a : α} {o : Option Scheduler}
    (hp : Avoids .runNextThread p) (hrun : p.run s = .ret a s')
    (h : (f a).atEnter .runNextThread s' = o) : (p >>= f).atEnter .runNextThread s = o :=
  (Prog.atEnter_after hp hrun).trans h

theorem atEnter_changeThread (hi : Inv s) :
    (changeThread w).atEnter .runNextThread (retimed s x) =
      some (enqueue (wake w s) s.runningThreadTid) := by
  obtain ⟨t, ht, -⟩ := run_running hi.tables
  rw [changeThread, Prog.atEnter_call (by decide)]
  apply atEnter_next avoids_blockSignals (run_blockSignals _)
  apply atEnter_next avoids_setitimer (run_setitimer_retimed hi.config)
  rw [if_neg (by decide)]
  apply atEnter_next avoids_saveCurrentExecutionContext (run_saveCurrentExecutionContext ht)
  rw [if_neg (by decide)]
  apply atEnter_next avoids_handleSleepThreads (run_handleSleepThreads w (sleepers hi.tables))
  apply atEnter_next avoids_state (Prog.run_state _)
  apply atEnter_next (avoids_readyThread _) (run_readyThread (t := t) (by exact ht))
  rfl

theorem atEnter_leave (hc : Config s) (h : Wf s none) {p : Code α}
    (hp : p.atEnter .runNextThread (wake w s) = some (wake w s)) :
    (resetTime >>= fun _ => handleSleepThreads w >>= fun _ => p).atEnter .runNextThread
      (retimed s x) = some (wake w s) := by
  apply atEnter_next avoids_resetTime (run_resetTime_retimed hc)
  exact atEnter_next avoids_handleSleepThreads (run_handleSleepThreads w (sleepers h)) hp

theorem atEnter_blockThread (hi : Inv s) (h0 : s.runningThreadTid ≠ 0) :
    (blockThread w s.runningThreadTid).atEnter .runNextThread (retimed s x) =
      some (wake w (block s s.runningThreadTid)) := by
  obtain ⟨t, ht, hst⟩ := run_running hi.tables
  have hmark : (setState s.runningThreadTid .blocked).run
      (retimed { s with blockedThreads := s.blockedThreads.insert s.runningThreadTid } x) =
        .ret () (retimed (block s s.runningThreadTid) x) := rfl
  have hsave : saveCurrentExecutionContext.run (retimed (block s s.runningThreadTid) x) =
      .ret 0 (retimed (block s s.runningThreadTid) x) := by
    apply run_saveCurrentExecutionContext_retimed (t := { t with state := .blocked })
    simp [block, mark, Scheduler.modifyThread, ht]
  rw [blockThread, Prog.atEnter_call (by decide)]
  apply atEnter_next (avoids_getThread _) (run_getThread_retimed ht)
  rw [hst]
  apply atEnter_next (avoids_modify _) (Prog.run_modify _ _)
  apply atEnter_next (avoids_setState _ _) hmark
  apply atEnter_next avoids_saveCurrentExecutionContext hsave
  rw [if_neg (by decide)]
  exact atEnter_leave (hi.config.stays (stays_block s _)) (hi.tables.block h0)
    (atEnter_runNextThread _)

theorem atEnter_removeThread (hi : Inv s) (h0 : s.runningThreadTid ≠ 0) :
    (removeThread w s.runningThreadTid).atEnter .runNextThread (retimed s x) =
      some (wake w (drop s s.runningThreadTid)) := by
  obtain ⟨t, ht, hst⟩ := run_running hi.tables
  have hm : s.runningThreadTid ∈ (retimed s x).threads := (Maps.mem_iff _).mpr ⟨t, ht⟩
  have hdrop : (modify (fun s' => { s' with threads := s'.threads.erase s.runningThreadTid }) :
      Code Unit).run (retimed s x) = .ret () (retimed (drop s s.runningThreadTid) x) := rfl
  rw [removeThread, Prog.atEnter_call (by decide)]
  apply atEnter_next (avoids_checkThread _) (run_checkThread _ _)
  rw [decide_eq_true hm, if_neg (by decide)]
  apply atEnter_next (avoids_getThread _) (run_getThread_retimed ht)
  apply atEnter_next (avoids_modify _) hdrop
  rw [hst]
  apply atEnter_leave (hi.config.stays (stays_drop s _)) (hi.tables.drop h0)
  rw [Prog.atEnter_bind, atEnter_runNextThread, Option.some_or]

theorem atEnter_sleepRunningThread (hi : Inv s) (h0 : s.runningThreadTid ≠ 0) (n : Nat) :
    (sleepRunningThread w n).atEnter .runNextThread (retimed s x) =
      some (wake w (sleep w s s.runningThreadTid n)) := by
  obtain ⟨t, ht, -⟩ := run_running hi.tables
  have hget : getRunningThreadTid.run (retimed s x) =
      .ret (s.runningThreadTid : Int) (retimed s x) := by
    simp [getRunningThreadTid, retimed, intOfSize_of_lt hi.tables.lt_max]
  have hmark : (setState s.runningThreadTid .ready).run
      (retimed { s with
        sleepingThreads := s.sleepingThreads.insert s.runningThreadTid
          (w.sizeT (w.sizeT (w.sizeT s.totalQuantums + n) + 1)) } x) =
        .ret () (retimed (sleep w s s.runningThreadTid n) x) := rfl
  rw [sleepRunningThread, Prog.atEnter_call (by decide)]
  apply atEnter_next avoids_getRunningThreadTid hget
  rw [sizeOfInt_natCast hi.tables.lt_max]
  apply atEnter_next (avoids_modify _) (Prog.run_modify _ _)
  apply atEnter_next avoids_saveCurrentExecutionContext
    (run_saveCurrentExecutionContext (t := t) (by exact ht))
  rw [if_neg (by decide)]
  apply atEnter_next (avoids_getThread _) (run_getThread (t := t) (by exact ht))
  apply atEnter_next (avoids_setState _ _) hmark
  exact atEnter_leave (hi.config.stays (stays_sleep w s _ _)) (hi.tables.sleep w h0 n)
    (atEnter_runNextThread _)

/-- The scheduler at the first entry into run_next_thread of an operation. -/
def atDispatch (w : Width) : Event Call → Scheduler → Option Scheduler
  | .tick, s => (sigvtalrm w).atEnter .runNextThread s
  | .call c, s => (api w c).atEnter .runNextThread s

theorem atDispatch_leave {e : Event Call} (hi : Inv s) (hl : Leave w s e s₁) :
    atDispatch w e (retimed s x) = some s₁ := by
  obtain ⟨t, ht, -⟩ := run_running hi.tables
  have hlive : s.runningThreadTid ∈ (retimed s x).threads := (Maps.mem_iff _).mpr ⟨t, ht⟩
  cases hl with
  | tick =>
      rw [atDispatch, sigvtalrm]
      apply atEnter_next avoids_state (Prog.run_state _)
      rw [if_pos (by exact hi.config.action), callbackHandler, Prog.atEnter_call (by decide)]
      exact atEnter_changeThread hi
  | @block tid hr h0 =>
      have htid : tid ≠ 0 := fun he => h0 (hr ▸ index_eq_zero.mpr he)
      have hindex : sizeOfInt tid.toInt = s.runningThreadTid := hr
      rw [atDispatch, api, uthreadBlock, Prog.atEnter_call (by decide)]
      apply atEnter_next avoids_blockSignals (run_blockSignals _)
      apply atEnter_next (avoids_checkThread _) (run_checkThread _ _)
      rw [hindex, decide_eq_true hlive, decide_eq_false htid, if_neg (by decide), Prog.atEnter_bind,
        atEnter_blockThread hi h0, Option.some_or]
  | @sleep n hn h0 =>
      have hget : uthreadGetTid.run (retimed s x) =
          .ret (s.runningThreadTid : Int) (retimed s x) := by
        simp [uthreadGetTid, getRunningThreadTid, retimed, intOfSize_of_lt hi.tables.lt_max]
      rw [atDispatch, api, uthreadSleep, Prog.atEnter_call (by decide)]
      apply atEnter_next avoids_blockSignals (run_blockSignals _)
      rw [if_neg (Int.not_le.mpr hn)]
      apply atEnter_next avoids_uthreadGetTid hget
      rw [if_neg (by exact_mod_cast h0), Prog.atEnter_bind, atEnter_sleepRunningThread hi h0,
        Option.some_or]
  | @terminate tid hr h0 =>
      have htid : tid ≠ 0 := fun he => h0 (hr ▸ index_eq_zero.mpr he)
      have hindex : sizeOfInt tid.toInt = s.runningThreadTid := hr
      rw [atDispatch, api, uthreadTerminate, Prog.atEnter_call (by decide)]
      apply atEnter_next avoids_blockSignals (run_blockSignals _)
      rw [if_neg htid, hindex]
      dsimp only
      rw [Prog.atEnter_bind, atEnter_removeThread hi h0, Option.some_or]

structure Armed (v : Itimerval) (q : Int32) : Prop where
  interval : v.itInterval = v.itValue
  nonzero : v.itValue ≠ ⟨0, 0⟩
  usec : 0 ≤ v.itValue.tvUsec ∧ v.itValue.tvUsec < 1000000
  period : v.itValue.tvSec * 1000000 + v.itValue.tvUsec = q.toInt

/-- uthread_init accepts the positive quanta only, and after it has succeeded the
timer is armed with the quantum in every state and anew in every switch, before
run_next_thread and whatever value the kernel held. -/
structure TimerKept (w : Width) (q : Int32) : Prop where
  init : ∃ s, (uthreadInit w q).run .blank = .ret (if 0 < q.toInt then 0 else -1) s
  armed : ∀ s xs s', (uthreadInit w q).run .blank = .ret 0 s → Trace w s xs s' → Armed s'.itimer q
  rearmed : ∀ s xs s' e y, (uthreadInit w q).run .blank = .ret 0 s → Trace w s xs s' →
    operate w s' e = some y → y.switched = true →
      ∀ x, ∃ s₁, atDispatch w e (retimed s' x) = some s₁ ∧ Armed s₁.itimer q

theorem armed_initial (hq : 0 < q.toInt) : Armed (initial w q).timer q where
  interval := rfl
  nonzero := by
    intro h
    have hdiv := Int.mul_tdiv_add_tmod q.toInt second
    rw [initial, Timeval.mk.injEq] at h
    rw [h.1, h.2] at hdiv
    omega
  usec := ⟨Int.tmod_nonneg _ hq.le, Int.tmod_lt_of_pos _ (by decide)⟩
  period := by
    have hdiv := Int.mul_tdiv_add_tmod q.toInt second
    rw [mul_comm] at hdiv
    exact hdiv

theorem operate_timer {e : Event Call} {y : Entry} (hi : Inv s) (hy : operate w s e = some y) :
    y.after.timer = s.timer := by
  rcases operate_cases w hi hy with ⟨v, s', hm, rfl⟩ | ⟨i, s', hm, rfl⟩
  · cases hm <;> rfl
  · cases hm with
    | switch hl hq ht => cases hl <;> rfl

theorem trace_timer {xs : List Entry} (hi : Inv s) (ht : Trace w s xs s') :
    Inv s' ∧ s'.timer = s.timer := by
  induction ht with
  | nil s => exact ⟨hi, rfl⟩
  | cons hx ht ih =>
      obtain ⟨hi', htimer⟩ := ih (operate_inv w hi hx)
      exact ⟨hi', htimer.trans (operate_timer hi hx)⟩

theorem armed_trace {xs : List Entry} (hq : 0 < q.toInt) (hrun : (uthreadInit w q).run .blank = .ret 0 s)
    (ht : Trace w s xs s') : Inv s' ∧ Armed s'.itimer q := by
  obtain ⟨-, rfl⟩ := eq_initial w hrun
  obtain ⟨hi, htimer⟩ := trace_timer (inv_initial w hq.le) ht
  refine ⟨hi, ?_⟩
  rw [hi.config.itimer, htimer]
  exact armed_initial hq

theorem toInt_ne_zero (hq : q ≠ 0) : q.toInt ≠ 0 := by
  intro h
  apply hq
  apply Int32.toInt.inj
  simpa using h

theorem not_timerKept_zero (w : Width) : ¬ TimerKept w 0 := by
  rintro ⟨⟨s, hinit⟩, -, -⟩
  rw [run_uthreadInit, if_neg (by decide), if_neg (by decide)] at hinit
  exact absurd hinit (by simp)

theorem timerKept_of_ne_zero (hq : q ≠ 0) : TimerKept w q := by
  have hne := toInt_ne_zero hq
  have hpos : ∀ {s}, (uthreadInit w q).run .blank = .ret 0 s → 0 < q.toInt := by
    intro s hrun
    have hle := (eq_initial w hrun).1
    omega
  refine ⟨?_, fun s xs s' hrun ht => (armed_trace (hpos hrun) hrun ht).2, ?_⟩
  · by_cases hneg : q.toInt < 0
    · refine ⟨.blank, ?_⟩
      rw [run_uthreadInit, if_pos hneg, if_neg (by omega)]
    · refine ⟨initial w q, ?_⟩
      rw [run_uthreadInit, if_neg hneg, if_pos (by omega)]
  · intro s xs s' e y hrun ht hy hswitched x
    obtain ⟨hi, harmed⟩ := armed_trace (hpos hrun) hrun ht
    rcases operate_cases w hi hy with ⟨v, s₂, hm, rfl⟩ | ⟨i, s₂, hm, rfl⟩
    · exact absurd hswitched (by simp)
    · cases hm with
      | @switch _ s₁ _ _ _ hl hnext hthread =>
          refine ⟨s₁, atDispatch_leave hi hl, ?_⟩
          have hsetup := (hl.stays w).setup
          simp only [setup, Prod.mk.injEq] at hsetup
          rw [hsetup.2.2.2.1]
          exact harmed

/-- The timer is kept for every quantum but zero, which uthread_init accepts. -/
theorem timer_kept_iff (w : Width) (q : Int32) : TimerKept w q ↔ q ≠ 0 := by
  constructor
  · rintro h rfl
    exact not_timerKept_zero w h
  · exact timerKept_of_ne_zero

/-- uthread_init(0) succeeds, and the timer it sets is disarmed. -/
theorem init_zero_disarms : (uthreadInit .lp64 0).run .blank = .ret 0 (initial .lp64 0) ∧
    (initial .lp64 0).armed = false ∧ ¬ TimerKept .lp64 0 := by
  refine ⟨?_, rfl, not_timerKept_zero .lp64⟩
  rw [run_uthreadInit, if_neg (by decide)]

end Uthreads.Timers
