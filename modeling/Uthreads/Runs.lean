import Uthreads.Moves

namespace Uthreads.Runs

open Program SignalMachine AtomicMachine Tables Source Api Effects Tallies Configs Moves

variable (w : Width)

/-- One operation of a run: the states around it, whether it ended in a context
switch, and the value it returned if it did not. -/
structure Entry where
  before : Scheduler
  event : Event Call
  after : Scheduler
  switched : Bool
  value : Option Int

namespace Entry

variable (x : Entry) (t : Nat)

def succeeded : Bool := x.switched || x.value == some 0

def spawned : Bool :=
  match x.event with
  | .call (.spawn _) => x.value == some (t : Int)
  | _ => false

def terminated : Bool :=
  match x.event with
  | .call (.terminate tid) => tid.toInt == (t : Int) && x.succeeded
  | _ => false

def blocked : Bool :=
  match x.event with
  | .call (.block tid) => tid.toInt == (t : Int) && x.succeeded
  | _ => false

def resumed : Bool :=
  match x.event with
  | .call (.resume tid) => tid.toInt == (t : Int) && x.succeeded
  | _ => false

def slept : Bool :=
  match x.event with
  | .call (.sleep _) => x.succeeded && x.before.runningThreadTid == t
  | _ => false

def numQuantums : Int :=
  match x.event with
  | .call (.sleep numQuantums) => numQuantums.toInt
  | _ => 0

def dispatched : Bool := x.switched && x.after.runningThreadTid == t

end Entry

def operate (s : Scheduler) (e : Event Call) : Option Entry :=
  match perform (uthreads w) e s with
  | .ret v s' => some ⟨s, e, s', false, v⟩
  | .jump _ s' => some ⟨s, e, s', true, none⟩
  | .exit _ _ | .fault _ => none

/-- The runs from a successful uthread_init, by their histories, newest entry
first, and the state they are in when control is back in user code. -/
inductive Run : List Entry → Scheduler → Prop
  | init {q : Int32} {s : Scheduler} (h : (uthreadInit w q).run .blank = .ret 0 s) : Run [] s
  | step {h : List Entry} {s : Scheduler} {e : Event Call} {x : Entry} (hr : Run h s)
      (hx : operate w s e = some x) : Run (x :: h) x.after

def Reachable (s : Scheduler) : Prop := ∃ h, Run w h s

inductive Trace : Scheduler → List Entry → Scheduler → Prop
  | nil (s : Scheduler) : Trace s [] s
  | cons {s s' : Scheduler} {e : Event Call} {x : Entry} {xs : List Entry}
      (hx : operate w s e = some x) (ht : Trace x.after xs s') : Trace s (x :: xs) s'

/-- The continuation that the operations es make, if they all return or switch. -/
def play : Scheduler → List (Event Call) → Option (List Entry × Scheduler)
  | s, [] => some ([], s)
  | s, e :: es => do
      let x ← operate w s e
      let (xs, s') ← play x.after es
      return (x :: xs, s')

/-- They do, and the continuation and its last state have the property P. -/
def Plays (s : Scheduler) (es : List (Event Call)) (P : List Entry → Scheduler → Prop) : Prop :=
  ∃ p ∈ play w s es, P p.1 p.2

instance (s : Scheduler) (es : List (Event Call)) (P : List Entry → Scheduler → Prop)
    [∀ xs s', Decidable (P xs s')] : Decidable (Plays w s es P) :=
  inferInstanceAs (Decidable (∃ p ∈ play w s es, P p.1 p.2))

variable {s s' : Scheduler} {h : List Entry} {e : Event Call} {x : Entry}

theorem operate_of_ret {v : Option Int} (ho : perform (uthreads w) e s = .ret v s') :
    operate w s e = some ⟨s, e, s', false, v⟩ := by
  rw [operate, ho]

theorem operate_of_jump {i : Nat} (ho : perform (uthreads w) e s = .jump i s') :
    operate w s e = some ⟨s, e, s', true, none⟩ := by
  rw [operate, ho]

theorem Run.append {xs : List Entry} (hr : Run w h s) (ht : Trace w s xs s') :
    Run w (xs.reverse ++ h) s' := by
  induction ht generalizing h with
  | nil s => exact hr
  | cons hx ht ih => simpa using ih (hr.step hx)

theorem trace_of_play {es : List (Event Call)} {xs : List Entry} (hp : play w s es = some (xs, s')) :
    Trace w s xs s' := by
  induction es generalizing s xs with
  | nil =>
      cases hp
      exact .nil _
  | cons e es ih =>
      simp only [play, Option.bind_eq_bind, Option.bind_eq_some_iff] at hp
      obtain ⟨x, hx, ⟨ys, s₁⟩, hys, heq⟩ := hp
      cases heq
      exact .cons hx (ih hys)

variable {w} in
theorem Plays.exists_trace {es : List (Event Call)} {P : List Entry → Scheduler → Prop}
    (hp : Plays w s es P) : ∃ xs s', Trace w s xs s' ∧ P xs s' := by
  obtain ⟨⟨xs, s'⟩, hplay, hP⟩ := hp
  exact ⟨xs, s', trace_of_play w hplay, hP⟩

def initial (quantumUsecs : Int32) : Scheduler where
  timer := ⟨⟨quantumUsecs.toInt.tdiv second, quantumUsecs.toInt.tmod second⟩,
    ⟨quantumUsecs.toInt.tdiv second, quantumUsecs.toInt.tmod second⟩⟩
  set := true
  totalQuantums := w.int 1
  quantumUsecs := quantumUsecs.toInt
  runningThreadTid := 0
  threads := (∅ : Std.ExtTreeMap Nat Thread).insert 0 ⟨0, .running, 1⟩
  readyThreads := []
  blockedThreads := ∅
  sleepingThreads := ∅
  sigaction := true
  itimer := ⟨⟨quantumUsecs.toInt.tdiv second, quantumUsecs.toInt.tmod second⟩,
    ⟨quantumUsecs.toInt.tdiv second, quantumUsecs.toInt.tmod second⟩⟩
  objects := [0]
  nextObject := 1

theorem timer_valid {q : Int} (h : 0 ≤ q) : Timeval.valid ⟨q.tdiv second, q.tmod second⟩ = true := by
  have hdiv : 0 ≤ q.tdiv second := Int.tdiv_nonneg h (by decide)
  have hmod : 0 ≤ q.tmod second := Int.tmod_nonneg _ h
  have hlt : q.tmod second < 1000000 := Int.tmod_lt_of_pos q (by decide)
  simp [Timeval.valid, hdiv, hmod, hlt]

theorem run_uthreadInit (q : Int32) :
    (uthreadInit w q).run .blank =
      if q.toInt < 0 then .ret (-1) .blank else .ret 0 (initial w q) := by
  simp only [uthreadInit, Prog.run_call]
  by_cases hq : q.toInt < 0
  · rw [if_pos hq, if_pos hq, run_handleErrorLibrary]
  · rw [if_neg hq, if_neg hq]
    have hv := timer_valid (Int.not_lt.mp hq)
    have hi : Itimerval.valid ⟨⟨q.toInt.tdiv second, q.toInt.tmod second⟩,
        ⟨q.toInt.tdiv second, q.toInt.tmod second⟩⟩ = true := by
      simp [Itimerval.valid, hv]
    simp [initScheduler, Source.sigaction, newThread, setThread, Source.setitimer, failureError,
      Scheduler.blank, hi, initial]

theorem stateOf_initial (q : Int32) (tid : Nat) :
    stateOf (initial w q) tid = if 0 = tid then some .running else none := by
  simp only [stateOf, initial, Std.ExtTreeMap.getElem?_insert, compare_eq_iff_eq]
  split <;> simp

theorem idOf_initial (q : Int32) (tid : Nat) :
    idOf (initial w q) tid = if 0 = tid then some 0 else none := by
  simp only [idOf, initial, Std.ExtTreeMap.getElem?_insert, compare_eq_iff_eq]
  split <;> simp

theorem inv_initial {q : Int32} (hq : 0 ≤ q.toInt) : Inv (initial w q) where
  tables := by
    refine ⟨List.nodup_nil, fun tid => ?_, ?_⟩
    · constructor <;> simp only [stateOf_initial]
      · simp [initial]
      · simp [initial]
      · by_cases h0 : 0 = tid <;> simp [initial, h0]
      · simp [initial]
      · simp [maxThreadNum]
        omega
    · rw [stateOf_initial]
      simp [initial]
  config := by
    have hv := timer_valid hq
    refine ⟨rfl, rfl, ?_, rfl, ?_, ?_, ?_⟩
    · simp [initial, Itimerval.valid, hv]
    · intro tid i hi
      rw [idOf_initial] at hi
      split at hi <;> simp_all [initial]
    · intro tid tid' i hi hi'
      rw [idOf_initial] at hi hi'
      split at hi <;> split at hi' <;> simp_all
    · intro tid i hi
      rw [idOf_initial] at hi
      split at hi <;> simp_all [initial]

theorem eq_initial {q : Int32} (hi : (uthreadInit w q).run .blank = .ret 0 s) :
    0 ≤ q.toInt ∧ s = initial w q := by
  rw [run_uthreadInit] at hi
  by_cases hq : q.toInt < 0
  · rw [if_pos hq] at hi
    simp at hi
  · rw [if_neg hq] at hi
    simp only [Outcome.ret.injEq, true_and] at hi
    exact ⟨Int.not_lt.mp hq, hi.symm⟩

theorem operate_cases (hi : Inv s) (hx : operate w s e = some x) :
    (∃ v s', Move w s e (.ret v s') ∧ x = ⟨s, e, s', false, v⟩) ∨
    (∃ i s', Move w s e (.jump i s') ∧ x = ⟨s, e, s', true, none⟩) := by
  have hm := perform_move w hi e
  rw [operate] at hx
  cases ho : perform (uthreads w) e s with
  | ret v s' =>
      rw [ho] at hm hx
      exact .inl ⟨v, s', hm, (Option.some.inj hx).symm⟩
  | jump i s' =>
      rw [ho] at hm hx
      exact .inr ⟨i, s', hm, (Option.some.inj hx).symm⟩
  | exit | fault =>
      rw [ho] at hx
      exact absurd hx (by simp)

theorem inv_of_switch {s₁ : Scheduler} {tid : Nat} {rest : List Nat} (hi : Inv s)
    (hl : Leave w s e s₁) (hq : s₁.readyThreads = tid :: rest) : Inv (dispatch w s₁ tid rest) where
  tables := (hl.wf w hi.tables).dispatch w hq
  config := hi.config.stays ((hl.stays w).trans (stays_dispatch w s₁ tid rest))

theorem operate_inv (hi : Inv s) (hx : operate w s e = some x) : Inv x.after := by
  rcases operate_cases w hi hx with ⟨v, s', hm, rfl⟩ | ⟨i, s', hm, rfl⟩
  · cases hm with
    | fail | read | blockBlocked | resumeOther => exact hi
    | spawn hfree hlt hmin => exact ⟨hi.tables.spawn hfree hlt, hi.config.spawn _⟩
    | terminate hl h0 hr =>
        refine ⟨hi.tables.terminate (fun he => hr (Option.some.inj he).symm) ?_,
          hi.config.stays (stays_terminate s _)⟩
        exact fun he => h0 (index_eq_zero.mp he)
    | blockReady hst h0 =>
        refine ⟨hi.tables.block_other hst (fun he => h0 (index_eq_zero.mp he)), ?_⟩
        exact hi.config.stays ((stays_block s _).trans (stays_unqueue _ _))
    | resumeBlocked hst =>
        exact ⟨hi.tables.unblock hst, hi.config.stays (stays_unblock s _)⟩
  · cases hm with
    | switch hl hq ht => exact inv_of_switch w hi hl hq

theorem Run.inv (hr : Run w h s) : Inv s := by
  induction hr with
  | init hi =>
      obtain ⟨hq, rfl⟩ := eq_initial w hi
      exact inv_initial w hq
  | step hr hx ih => exact operate_inv w ih hx

theorem Reachable.inv (hr : Reachable w s) : Inv s := by
  obtain ⟨h, hr⟩ := hr
  exact hr.inv

theorem run_initial {q : Int32} (hq : 0 ≤ q.toInt) : Run w [] (initial w q) := by
  refine .init (q := q) ?_
  rw [run_uthreadInit, if_neg (Int.not_lt.mpr hq)]

theorem run_of_trace {q : Int32} {xs : List Entry} (hq : 0 ≤ q.toInt)
    (ht : Trace w (initial w q) xs s) : Run w xs.reverse s := by
  simpa using (run_initial w hq).append w ht

variable {w} in
theorem Plays.exists_run {q : Int32} {es : List (Event Call)} {P : List Entry → Scheduler → Prop}
    (hp : Plays w (initial w q) es P) (hq : 0 ≤ q.toInt) : ∃ xs s, Run w xs.reverse s ∧ P xs s := by
  obtain ⟨xs, s, ht, hP⟩ := hp.exists_trace
  exact ⟨xs, s, run_of_trace w hq ht, hP⟩

theorem reachable_initial {q : Int32} (hq : 0 ≤ q.toInt) : Reachable w (initial w q) :=
  ⟨[], run_initial w hq⟩

theorem operate_spawn (hi : Inv s) (entryPoint tid : Nat) (hfree : stateOf s tid = none)
    (hlt : tid < maxThreadNum) (hmin : ∀ j < tid, stateOf s j ≠ none) :
    operate w s (.call (.spawn (some entryPoint))) =
      some ⟨s, .call (.spawn (some entryPoint)), spawn s tid, false, some (tid : Int)⟩ := by
  have hm := perform_move w hi (.call (.spawn (some entryPoint)))
  rw [operate]
  cases ho : perform (uthreads w) (.call (.spawn (some entryPoint))) s with
  | ret v s' =>
      rw [ho] at hm
      cases hm with
      | fail hf => exact absurd hfree (hf.resolve_left (by simp) tid hlt)
      | read hr => exact hr.elim
      | @spawn _ tid' hfree' hlt' hmin' =>
          have heq : tid' = tid := by
            rcases lt_trichotomy tid' tid with hl | heq | hl
            · exact absurd hfree' (hmin tid' hl)
            · exact heq
            · exact absurd hfree (hmin' tid hl)
          rw [heq]
  | jump i s' =>
      rw [ho] at hm
      cases hm with
      | switch hl => cases hl
  | exit | fault =>
      rw [ho] at hm
      cases hm

theorem reachable_spawn_initial {q : Int32} (hq : 0 ≤ q.toInt) : Reachable w (spawn (initial w q) 1) :=
  ⟨_, (run_initial w hq).step (operate_spawn w (inv_initial w hq) 7 1 (by simp [stateOf_initial])
    (by decide) (by simp [stateOf_initial]))⟩

theorem operate_tick (hi : Inv s) : ∃ x, operate w s .tick = some x ∧ x.switched = true := by
  have hm := perform_move w hi .tick
  rw [operate]
  cases ho : perform (uthreads w) .tick s with
  | jump i s' => exact ⟨_, rfl, rfl⟩
  | ret | exit | fault =>
      rw [ho] at hm
      cases hm

theorem Reachable.tables_agree (hr : Reachable w s) :
    (s.runningThreadTid ∈ s.threads ∧
      ∀ tid, stateOf s tid = some .running ↔ tid = s.runningThreadTid) ∧
    (s.readyThreads.Nodup ∧ ∀ tid, tid ∈ s.readyThreads ↔
      stateOf s tid = some .ready ∧ tid ∉ s.sleepingThreads) ∧
    (∀ tid, tid ∈ s.blockedThreads ↔ stateOf s tid = some .blocked) ∧
    (∀ tid ∈ s.sleepingThreads, tid ∈ s.threads ∧ tid ≠ s.runningThreadTid) ∧
    0 ∈ s.threads ∧ stateOf s 0 ≠ some .blocked ∧ 0 ∉ s.sleepingThreads := by
  have ht := (hr.inv w).tables
  refine ⟨⟨?_, fun tid => ?_⟩, ⟨ht.nodup, fun tid => (ht.tally tid).ready⟩,
    fun tid => (ht.tally tid).blocked, fun tid hs => ⟨sleepers ht tid hs, ?_⟩, ?_⟩
  · rw [mem_threads, ht.stateOf_running]
    simp
  · rw [(ht.tally tid).running, Option.some.injEq, eq_comm]
  · rintro rfl
    exact ht.not_sleeping hs
  · rw [mem_threads]
    exact ht.main

/-- Main spawns three threads; the first goes to sleep and the second blocks the third. -/
def mixed : List (Event Call) :=
  [.call (.spawn (some 7)), .call (.spawn (some 8)), .call (.spawn (some 9)), .tick,
    .call (.sleep 5), .call (.block 3)]

theorem reachable_mixed : ∃ s, Reachable .lp64 s ∧ s.runningThreadTid = 2 ∧ s.readyThreads = [0] ∧
    stateOf s 1 = some .ready ∧ 1 ∈ s.sleepingThreads ∧ stateOf s 3 = some .blocked := by
  have hplays : Plays .lp64 (initial .lp64 1000) mixed (fun _ s => s.runningThreadTid = 2 ∧
      s.readyThreads = [0] ∧ stateOf s 1 = some .ready ∧ 1 ∈ s.sleepingThreads ∧
      stateOf s 3 = some .blocked) := by decide +kernel
  obtain ⟨xs, s, hr, hs⟩ := hplays.exists_run (by decide)
  exact ⟨s, ⟨_, hr⟩, hs⟩

theorem tables_agree_mixed : ∃ s, Reachable .lp64 s ∧ s.runningThreadTid = 2 ∧
    (2 ∈ s.threads ∧ stateOf s 2 = some .running) ∧
    (0 ∈ s.readyThreads ∧ stateOf s 0 = some .ready ∧ 0 ∉ s.sleepingThreads) ∧
    (1 ∈ s.sleepingThreads ∧ 1 ∈ s.threads ∧ 1 ∉ s.readyThreads) ∧
    3 ∈ s.blockedThreads ∧ 1 ∉ s.blockedThreads := by
  obtain ⟨s, hr, hrun, hq, h1, hs, h3⟩ := reachable_mixed
  obtain ⟨⟨hlive, hrunning⟩, ⟨-, hready⟩, hblocked, hsleeping, -⟩ := Reachable.tables_agree .lp64 hr
  rw [hrun] at hlive hrunning
  have h0 : 0 ∈ s.readyThreads := by simp [hq]
  exact ⟨s, hr, hrun, ⟨hlive, (hrunning 2).mpr rfl⟩, ⟨h0, (hready 0).mp h0⟩,
    ⟨hs, (hsleeping 1 hs).1, fun h => ((hready 1).mp h).2 hs⟩, (hblocked 3).mpr h3,
    fun h => by simp [(hblocked 1).mp h] at h1⟩

/-- No operation takes the front of an empty queue or looks up an absent id,
whichever branch it takes and whatever it has written before. -/
theorem Reachable.never_faults (hr : Reachable w s) (e : Event Call) (why : String) :
    perform (uthreads w) e s ≠ .fault why := by
  intro hf
  have hm := perform_move w (hr.inv w) e
  rw [hf] at hm
  cases hm

theorem never_faults_mixed : ∃ s, Reachable .lp64 s ∧ s.runningThreadTid = 2 ∧
    s.readyThreads = [0] ∧
    ∀ e ∈ [.tick, .call (.block 2), .call (.sleep 3), .call (.terminate 2)],
      perform (uthreads .lp64) e s ≠ .fault "front of an empty deque" ∧
      perform (uthreads .lp64) e s ≠ .fault "get_thread of an absent id" := by
  obtain ⟨s, hr, hrun, hq, -⟩ := reachable_mixed
  exact ⟨s, hr, hrun, hq, fun e _ => ⟨Reachable.never_faults .lp64 hr e _,
    Reachable.never_faults .lp64 hr e _⟩⟩

end Uthreads.Runs
