import Uthreads.Histories

namespace Uthreads.Schedulable

open AtomicMachine Tables Api Effects Tallies Configs Runs Histories

def CanRun (s : Scheduler) (t : Nat) : Prop := t = s.runningThreadTid ∨ t ∈ s.readyThreads

instance (s : Scheduler) (t : Nat) : Decidable (CanRun s t) :=
  inferInstanceAs (Decidable (t = s.runningThreadTid ∨ t ∈ s.readyThreads))

/-- The entries since the last spawn of t, newest first. -/
def life (t : Nat) (h : List Entry) : List Entry := h.takeWhile (fun x => !x.spawned t)

def Alive (t : Nat) (h : List Entry) : Prop :=
  (t = 0 ∨ ∃ x ∈ h, x.spawned t = true) ∧ ∀ x ∈ life t h, x.terminated t = false

def lastBlockOrResume (t : Nat) (h : List Entry) : Option Entry :=
  (life t h).find? (fun x => x.blocked t || x.resumed t)

def Unblocked (t : Nat) (h : List Entry) : Prop :=
  ∀ x, lastBlockOrResume t h = some x → x.blocked t = false

def lastSleep (t : Nat) (h : List Entry) : Option Entry := (life t h).find? (fun x => x.slept t)

def sinceSleep (t : Nat) (h : List Entry) : List Entry :=
  (life t h).takeWhile (fun x => !x.slept t)

/-- The number of the quantum whose end wakes the thread that slept. -/
def wakeAt (x : Entry) : Int := x.before.totalQuantums + x.numQuantums

/-- Since the last sleep of t a scheduling decision was taken at the end of a
quantum numbered high enough. -/
def Awake (t : Nat) (h : List Entry) : Prop :=
  ∀ x, lastSleep t h = some x →
    ∃ y ∈ sinceSleep t h, y.switched = true ∧ wakeAt x ≤ y.before.totalQuantums

variable {s : Scheduler} {h : List Entry} {x : Entry} {t : Nat}

theorem life_cons (t : Nat) (x : Entry) (h : List Entry) :
    life t (x :: h) = if x.spawned t then [] else x :: life t h := by
  rw [life, List.takeWhile_cons]
  cases x.spawned t <;> rfl

theorem alive_cons : Alive t (x :: h) ↔
    x.spawned t = true ∨ (Alive t h ∧ x.terminated t = false) := by
  by_cases hs : x.spawned t = true
  · simp [Alive, life_cons, hs]
  · simp only [Alive, life_cons, hs, List.mem_cons, exists_eq_or_imp, false_or, Bool.false_eq_true,
      if_false, forall_eq_or_imp]
    tauto

def BlockedLast (t : Nat) (h : List Entry) : Prop :=
  ∃ x, lastBlockOrResume t h = some x ∧ x.blocked t = true

theorem unblocked_iff : Unblocked t h ↔ ¬ BlockedLast t h := by
  simp [Unblocked, BlockedLast]

theorem blockedLast_cons : BlockedLast t (x :: h) ↔ x.spawned t = false ∧
    (x.blocked t = true ∨ (x.resumed t = false ∧ BlockedLast t h)) := by
  simp only [BlockedLast, lastBlockOrResume, life_cons]
  cases x.spawned t <;> cases hb : x.blocked t <;> cases hr : x.resumed t <;> simp [hb, hr]

theorem lastSleep_cons : lastSleep t (x :: h) =
    if x.spawned t then none else if x.slept t then some x else lastSleep t h := by
  simp only [lastSleep, life_cons]
  cases x.spawned t <;> cases hs : x.slept t <;> simp [hs]

theorem sinceSleep_cons : sinceSleep t (x :: h) =
    if x.spawned t || x.slept t then [] else x :: sinceSleep t h := by
  simp only [sinceSleep, life_cons]
  cases x.spawned t <;> cases hs : x.slept t <;> simp [hs]

/-- What the tables of s hold about t is what the history says. -/
structure Recorded (t : Nat) (h : List Entry) (s : Scheduler) : Prop where
  live : stateOf s t ≠ none ↔ Alive t h
  blocked : stateOf s t ≠ none → (stateOf s t = some .blocked ↔ BlockedLast t h)
  deadline : stateOf s t ≠ none → ∀ d : Nat, s.sleepingThreads[t]? = some d ↔
    ∃ x, lastSleep t h = some x ∧ (d : Int) = wakeAt x + 1 ∧
      ∀ y ∈ sinceSleep t h, y.switched = true → y.before.totalQuantums < wakeAt x

theorem recorded_initial (q : Int32) (t : Nat) : Recorded t [] (initial .unbounded q) := by
  constructor
  · rw [stateOf_initial]
    by_cases h0 : 0 = t
    · simp [Alive, life, ← h0]
    · simp [Alive, life, h0, Ne.symm h0]
  · rw [stateOf_initial]
    simp [BlockedLast, lastBlockOrResume, life]
  · intro _ d
    simp [initial, lastSleep, life]

theorem live_before (hr : Run .unbounded h s) {e : Event Call}
    (hx : operate .unbounded s e = some x) (hs : x.spawned t = false)
    (hl : stateOf x.after t ≠ none) : stateOf s t ≠ none ∧ x.terminated t = false := by
  rw [ne_eq, live_step .unbounded (hr.inv .unbounded) hx, hs] at hl
  simpa using hl

theorem recorded (hr : Run .unbounded h s) (t : Nat) : Recorded t h s := by
  induction hr with
  | init hi =>
      obtain ⟨-, rfl⟩ := eq_initial .unbounded hi
      exact recorded_initial _ t
  | @step h s e x hr hx ih =>
      have hi := hr.inv .unbounded
      have hT : 0 ≤ s.totalQuantums := by
        have := total_pos hr
        omega
      have hb := operate_before .unbounded hx
      constructor
      · rw [ne_eq, live_step .unbounded hi hx t, alive_cons, ← ih.live]
        cases x.spawned t <;> cases x.terminated t <;> simp
      · intro hl
        rw [blocked_step .unbounded hi hx, blockedLast_cons]
        cases hs : x.spawned t with
        | true =>
            have hfree := spawned_free .unbounded hi hx hs
            obtain ⟨-, hnb, -⟩ := event_of_spawned hs
            simp [hnb, hfree]
        | false =>
            obtain ⟨hlive, ht⟩ := live_before hr hx hs hl
            rw [ih.blocked hlive]
            simp only [ht, true_and]
            tauto
      · intro hl d
        rw [deadline_step hi hT hx, lastSleep_cons, sinceSleep_cons]
        cases hs : x.spawned t with
        | true =>
            have hfree := not_sleeping_of_not_live hi.tables (spawned_free .unbounded hi hx hs)
            obtain ⟨-, -, hns⟩ := event_of_spawned hs
            simp [hns, hfree]
        | false =>
            obtain ⟨hlive, ht⟩ := live_before hr hx hs hl
            rw [ih.deadline hlive]
            cases hsl : x.slept t with
            | true => simp [wakeAt, hb]
            | false => 
                simp only [ht, Bool.false_eq_true, if_false, false_and, false_or, true_and, Bool.or_self,
                  List.mem_cons, forall_eq_or_imp, hb]
                constructor
                · rintro ⟨⟨y, hy, hd, hall⟩, hlt⟩
                  exact ⟨y, hy, hd, fun hsw => by have := hlt hsw; omega, hall⟩
                · rintro ⟨y, hy, hd, hlt, hall⟩
                  exact ⟨⟨y, hy, hd, hall⟩, fun hsw => by have := hlt hsw; omega⟩

theorem wakeAt_gt (hr : Run .unbounded h s) {x : Entry} (hx : lastSleep t h = some x) :
    1 ≤ x.before.totalQuantums ∧ x.before.totalQuantums < wakeAt x := by
  induction hr with
  | init => simp [lastSleep, life] at hx
  | @step h s e y hr hy ih =>
      rw [lastSleep_cons] at hx
      split at hx
      · exact absurd hx (by simp)
      · split at hx
        · rename_i hsl
          cases hx
          have hpos := (numQuantums_pos .unbounded (hr.inv .unbounded) hy hsl).2
          have hT := total_pos hr
          rw [wakeAt, operate_before .unbounded hy]
          omega
        · exact ih hx

theorem total_before_lt (hr : Run .unbounded h s) {y : Entry} (hy : y ∈ h)
    (hsw : y.switched = true) : y.before.totalQuantums < s.totalQuantums := by
  induction hr with
  | init => exact absurd hy List.not_mem_nil
  | @step h s e x hr hx ih =>
      have hstep := total_step (hr.inv .unbounded) hx
      rcases List.mem_cons.mp hy with rfl | hy
      · rw [hstep, if_pos hsw, operate_before .unbounded hx]
        omega
      · have hlt := ih hy
        rw [hstep]
        split <;> omega

theorem mem_of_mem_sinceSleep {y : Entry} (hy : y ∈ sinceSleep t h) : y ∈ h :=
  (List.takeWhile_sublist _).subset ((List.takeWhile_sublist _).subset hy)

/-- The number of quantums passes every value between, so the decision at the
end of the waking quantum was taken if the number is beyond it. -/
theorem exists_decision (hr : Run .unbounded h s) {x : Entry} (hx : lastSleep t h = some x)
    (hlt : wakeAt x < s.totalQuantums) :
    ∃ y ∈ sinceSleep t h, y.switched = true ∧ y.before.totalQuantums = wakeAt x := by
  induction hr with
  | init => simp [lastSleep, life] at hx
  | @step h s e z hr hz ih =>
      have hi := hr.inv .unbounded
      have hgt := wakeAt_gt (hr.step hz) hx
      have hstep := total_step hi hz
      have hbefore := operate_before .unbounded hz
      rw [lastSleep_cons] at hx
      rw [sinceSleep_cons]
      cases hs : z.spawned t with
      | true => simp [hs] at hx
      | false =>
          cases hsl : z.slept t with
          | true =>
              obtain rfl : z = x := by simpa [hs, hsl] using hx
              obtain ⟨hsw, -⟩ := numQuantums_pos .unbounded hi hz hsl
              rw [hstep, if_pos hsw] at hlt
              rw [hbefore] at hgt
              omega
          | false =>
              have hx' : lastSleep t h = some x := by simpa [hs, hsl] using hx
              simp only [Bool.or_self, Bool.false_eq_true, if_false]
              by_cases hbeyond : wakeAt x < s.totalQuantums
              · obtain ⟨y, hy, hsw, heq⟩ := ih hx' hbeyond
                exact ⟨y, List.mem_cons_of_mem _ hy, hsw, heq⟩
              · cases hsw : z.switched with
                | false =>
                    rw [hstep, hsw, if_neg (by simp)] at hlt
                    exact absurd hlt hbeyond
                | true =>
                    rw [hstep, hsw, if_pos rfl] at hlt
                    exact ⟨z, List.mem_cons_self, hsw, by rw [hbefore]; omega⟩

theorem awake_iff (hr : Run .unbounded h s) {x : Entry} (hx : lastSleep t h = some x) :
    Awake t h ↔ wakeAt x < s.totalQuantums := by
  constructor
  · intro ha
    obtain ⟨y, hy, hsw, hle⟩ := ha x hx
    have hlt := total_before_lt hr (mem_of_mem_sinceSleep hy) hsw
    omega
  · intro hlt x' hx'
    obtain rfl : x = x' := by simpa [hx] using hx'
    obtain ⟨y, hy, hsw, heq⟩ := exists_decision hr hx hlt
    exact ⟨y, hy, hsw, heq.ge⟩

theorem canRun_iff_tables (hi : Inv s) (t : Nat) : CanRun s t ↔
    stateOf s t ≠ none ∧ stateOf s t ≠ some .blocked ∧ t ∉ s.sleepingThreads := by
  have ht := hi.tables.tally t
  constructor
  · rintro (rfl | hq)
    · have hrun := hi.tables.stateOf_running
      exact ⟨by simp [hrun], by simp [hrun], hi.tables.not_sleeping⟩
    · obtain ⟨hst, hns⟩ := ht.ready.mp hq
      exact ⟨by simp [hst], by simp [hst], hns⟩
  · rintro ⟨hl, hb, hns⟩
    obtain ⟨st, hst⟩ := Option.ne_none_iff_exists'.mp hl
    cases st with
    | running => exact .inl (Option.some.inj (ht.running.mp hst)).symm
    | blocked => exact absurd hst hb
    | ready => exact .inr (ht.ready.mpr ⟨hst, hns⟩)

theorem awake_iff_tables (hr : Run .unbounded h s) (hl : stateOf s t ≠ none) :
    Awake t h ↔ t ∉ s.sleepingThreads := by
  have hdeadline := (recorded hr t).deadline hl
  rw [Maps.mem_iff]
  constructor
  · rintro ha ⟨d, hd⟩
    obtain ⟨x, hx, -, hall⟩ := (hdeadline d).mp hd
    obtain ⟨y, hy, hsw, hle⟩ := ha x hx
    have hlt := hall y hy hsw
    omega
  · intro hns x hx
    have hgt := wakeAt_gt hr hx
    by_contra hno
    refine hns ⟨(wakeAt x + 1).toNat, (hdeadline _).mpr ⟨x, hx, by omega, fun y hy hsw => ?_⟩⟩
    by_contra hge
    exact hno ⟨y, hy, hsw, by omega⟩

theorem canRun_iff_history (hr : Run .unbounded h s) (t : Nat) :
    CanRun s t ↔ Alive t h ∧ Unblocked t h ∧ Awake t h := by
  have hrec := recorded hr t
  rw [canRun_iff_tables (hr.inv .unbounded), unblocked_iff, ← hrec.live]
  constructor
  · rintro ⟨hl, hb, hns⟩
    exact ⟨hl, fun hlast => hb ((hrec.blocked hl).mpr hlast), (awake_iff_tables hr hl).mpr hns⟩
  · rintro ⟨hl, hb, ha⟩
    exact ⟨hl, fun hst => hb ((hrec.blocked hl).mp hst), (awake_iff_tables hr hl).mp ha⟩

theorem event_of_resumed (hx : x.resumed t = true) : x.spawned t = false ∧ x.slept t = false := by
  obtain ⟨before, event, after, switched, value⟩ := x
  cases event with
  | tick => simp [Entry.resumed] at hx
  | call c =>
      cases c with
      | resume => exact ⟨rfl, rfl⟩
      | _ => simp [Entry.resumed] at hx

theorem awake_of_resumed (hres : x.resumed t = true) (hsw : x.switched = false)
    (ha : Awake t (x :: h)) : Awake t h := by
  obtain ⟨hs, hsl⟩ := event_of_resumed hres
  intro y hy
  obtain ⟨z, hz, hzs, hle⟩ := ha y (by simpa [lastSleep_cons, hs, hsl] using hy)
  rw [sinceSleep_cons, hs, hsl] at hz
  rcases List.mem_cons.mp hz with rfl | hz
  · simp [hsw] at hzs
  · exact ⟨z, hz, hzs, hle⟩

/-- A thread can run exactly when the history says so. A sleeper is due from the
decision that ends its waking quantum on, no resume makes it due before, and no
switch unblocks a thread. -/
theorem schedulable_from_history (hr : Run .unbounded h s) (t : Nat) :
    (CanRun s t ↔ Alive t h ∧ Unblocked t h ∧ Awake t h) ∧
    (∀ x, lastSleep t h = some x → (Awake t h ↔ wakeAt x < s.totalQuantums)) ∧
    ∀ e x, operate .unbounded s e = some x →
      (x.resumed t = true → ¬ Awake t h → ¬ CanRun x.after t) ∧
      (x.switched = true → ¬ Unblocked t h → ¬ CanRun x.after t) := by
  refine ⟨canRun_iff_history hr t, fun x hx => awake_iff hr hx, fun e x hx => ⟨?_, ?_⟩⟩
  · intro hres hna hrun
    have hsw : x.switched = false := by
      by_contra hsw
      have hev := event_of_switched .unbounded (hr.inv .unbounded) hx (by simpa using hsw) t
      simp [hres] at hev
    obtain ⟨-, -, ha⟩ := (canRun_iff_history (hr.step hx) t).mp hrun
    exact hna (awake_of_resumed hres hsw ha)
  · intro hsw hnb hrun
    obtain ⟨hspawned, hresumed⟩ := event_of_switched .unbounded (hr.inv .unbounded) hx hsw t
    obtain ⟨-, hunblocked, -⟩ := (canRun_iff_history (hr.step hx) t).mp hrun
    rw [unblocked_iff, blockedLast_cons] at hunblocked
    rw [unblocked_iff, not_not] at hnb
    exact hunblocked ⟨hspawned, .inr ⟨hresumed, hnb⟩⟩

def dozing : List (Event Call) :=
  [.call (.spawn (some 7)), .call (.spawn (some 7)), .call (.spawn (some 7)), .tick,
    .call (.sleep 1), .call (.sleep 5), .call (.block 1), .call (.resume 1), .call (.block 3)]

theorem run_dozing : ∃ h s, Run .unbounded h s ∧ (s.totalQuantums = 5 ∧ 1 ∈ s.readyThreads) ∧
    (∃ x, lastBlockOrResume 1 h = some x ∧ x.resumed 1 = true) ∧
    (∃ x, lastSleep 1 h = some x ∧ wakeAt x = 3) ∧ (∃ x, lastSleep 2 h = some x ∧ wakeAt x = 8) ∧
    ∃ x, lastBlockOrResume 3 h = some x ∧ x.blocked 3 = true := by
  have hplays : Plays .unbounded (initial .unbounded 1000) dozing (fun xs s =>
      (s.totalQuantums = 5 ∧ 1 ∈ s.readyThreads) ∧
      (∃ x ∈ lastBlockOrResume 1 xs.reverse, x.resumed 1 = true) ∧
      (∃ x ∈ lastSleep 1 xs.reverse, wakeAt x = 3) ∧ (∃ x ∈ lastSleep 2 xs.reverse, wakeAt x = 8) ∧
      ∃ x ∈ lastBlockOrResume 3 xs.reverse, x.blocked 3 = true) := by decide +kernel
  obtain ⟨xs, s, hr, hs⟩ := hplays.exists_run (by decide)
  exact ⟨_, s, hr, hs⟩

theorem schedulable_from_history_dozing : ∃ h s, Run .unbounded h s ∧
    (∃ x, lastBlockOrResume 1 h = some x ∧ x.resumed 1 = true) ∧
    (∃ x, lastSleep 1 h = some x ∧ wakeAt x = 3) ∧
    (CanRun s 1 ∧ Alive 1 h ∧ Unblocked 1 h ∧ Awake 1 h) ∧ (¬ Awake 2 h ∧ ¬ CanRun s 2) ∧
    (∀ x, operate .unbounded s (.call (.resume 2)) = some x → x.resumed 2 = true →
      ¬ CanRun x.after 2) ∧ ¬ CanRun s 3 := by
  obtain ⟨h, s, hr, ⟨htotal, hready⟩, h₁, h₂, ⟨x, hx, hwake⟩, y, hy, hyb⟩ := run_dozing
  obtain ⟨hiff₂, hawake₂, hstep₂⟩ := schedulable_from_history hr 2
  have hasleep : ¬ Awake 2 h := by
    rw [hawake₂ x hx, hwake, htotal]
    decide
  have hblocked : ¬ Unblocked 3 h := fun hu => by simp [hu y hy] at hyb
  refine ⟨h, s, hr, h₁, h₂, ⟨.inr hready, (schedulable_from_history hr 1).1.mp (.inr hready)⟩,
    ⟨hasleep, fun hc => hasleep (hiff₂.mp hc).2.2⟩, ?_, fun hc => ?_⟩
  · exact fun z hz hres => (hstep₂ _ z hz).1 hres hasleep
  · exact hblocked ((schedulable_from_history hr 3).1.mp hc).2.1

end Uthreads.Schedulable
