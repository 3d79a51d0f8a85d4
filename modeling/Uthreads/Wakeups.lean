import Uthreads.Handover

namespace Uthreads.Wakeups

open Program SignalMachine AtomicMachine Tables Source Api Effects Tallies Configs Moves Runs
open Histories Handover

variable {s s' : Scheduler} {n : Int32}

/-- The sleepers with an expired deadline leave the map; those that are READY
go to the back of the queue, in the order of their ids. -/
structure Wakes (s s' : Scheduler) : Prop where
  removed : ∀ tid : Nat, s'.sleepingThreads[tid]? =
    s.sleepingThreads[tid]?.filter (fun deadline : Nat => ¬ (deadline : Int) - 1 ≤ s.totalQuantums)
  queued : ∃ awake : List Nat, s'.readyThreads = s.readyThreads ++ awake ∧
    awake.Pairwise (fun a b => a < b) ∧ (∀ tid ∈ awake, s'.readyThreads.count tid = 1) ∧
    ∀ tid, tid ∈ awake ↔
      tid ∈ s.sleepingThreads ∧ tid ∉ s'.sleepingThreads ∧ stateOf s tid = some .ready
  rest : s' = { s with
    readyThreads := s'.readyThreads
    sleepingThreads := s'.sleepingThreads }

theorem removed_wake (s : Scheduler) (tid : Nat) :
    (wake .unbounded s).sleepingThreads[tid]? =
      s.sleepingThreads[tid]?.filter (fun deadline : Nat => ¬ (deadline : Int) - 1 ≤ s.totalQuantums) := by
  rw [wake_sleepingThreads, Maps.getElem?_filter]
  congr 1
  funext deadline
  rw [expired, decide_not]
  rfl

theorem not_mem_wake {w : Width} {tid deadline : Nat} (hd : s.sleepingThreads[tid]? = some deadline) :
    tid ∉ (wake w s).sleepingThreads ↔ expired w s deadline = true := by
  rw [mem_wake_sleeping, hd]
  simp

theorem wakes_wake (hready : ∀ tid ∈ s.sleepingThreads,
    stateOf s tid = some .ready → tid ∉ s.readyThreads) : Wakes s (wake .unbounded s) where
  removed := removed_wake s
  queued := by
    have hmem : ∀ tid, tid ∈ (s.sleepingThreads.toList.filter (fun e => expired .unbounded s e.2 &&
        decide (stateOf s e.1 = some .ready))).map Prod.fst ↔ tid ∈ s.sleepingThreads ∧
          tid ∉ (wake .unbounded s).sleepingThreads ∧ stateOf s tid = some .ready := by
      intro tid
      rw [Maps.mem_keys_filter, Maps.mem_iff]
      constructor
      · rintro ⟨deadline, hd, hp⟩
        rw [Bool.and_eq_true, decide_eq_true_eq] at hp
        exact ⟨⟨deadline, hd⟩, (not_mem_wake hd).mpr hp.1, hp.2⟩
      · rintro ⟨⟨deadline, hd⟩, hs, hst⟩
        refine ⟨deadline, hd, ?_⟩
        rw [Bool.and_eq_true, decide_eq_true_eq]
        exact ⟨(not_mem_wake hd).mp hs, hst⟩
    refine ⟨_, wake_readyThreads _ s, Maps.keys_filter_sorted _ _, fun tid htid => ?_, hmem⟩
    obtain ⟨hs, -, hst⟩ := (hmem tid).mp htid
    rw [wake_readyThreads, List.count_append, List.count_eq_zero.mpr (hready tid hs hst), Nat.zero_add]
    exact List.count_eq_one_of_mem (Maps.keys_filter_nodup _ _) htid
  rest := rfl

theorem wake_wake (w : Width) (s : Scheduler) : wake w (wake w s) = wake w s := by
  have hnone : ∀ tid deadline : Nat, (wake w s).sleepingThreads[tid]? = some deadline →
      expired w s deadline = false := by
    intro tid deadline hd
    rw [wake_sleepingThreads, Maps.getElem?_filter, Option.filter_eq_some_iff] at hd
    simpa using hd.2
  have hqueue : (wake w s).sleepingThreads.toList.filter (fun e => expired w (wake w s) e.2 &&
      decide (stateOf (wake w s) e.1 = some .ready)) = [] := by
    rw [List.filter_eq_nil_iff]
    rintro ⟨tid, deadline⟩ he
    have hd := hnone tid deadline (Std.ExtTreeMap.mem_toList_iff_getElem?_eq_some.mp he)
    have hd' : expired w (wake w s) deadline = false := hd
    rw [hd', Bool.false_and]
    exact Bool.false_ne_true
  apply Scheduler.ext <;> try rfl
  · rw [wake_readyThreads _ (wake w s), hqueue, List.map_nil, List.append_nil]
  · apply Std.ExtTreeMap.ext_getElem?
    intro tid
    rw [wake_sleepingThreads _ (wake w s), Maps.getElem?_filter]
    cases hd : (wake w s).sleepingThreads[tid]? with
    | none => rfl
    | some deadline =>
        have hd' : expired w (wake w s) deadline = false := hnone tid deadline hd
        simp [Option.filter, hd']

/-- _handle_sleep_threads wakes the expired sleepers, from every state whose
sleepers are live and whose READY sleepers are not queued, and its second call
at the same count of quantums changes nothing. -/
theorem handle_sleep_threads_wakes (hlive : ∀ tid ∈ s.sleepingThreads, tid ∈ s.threads)
    (hready : ∀ tid ∈ s.sleepingThreads, stateOf s tid = some .ready → tid ∉ s.readyThreads) :
    ∃ s', (handleSleepThreads .unbounded).run s = .ret () s' ∧ Wakes s s' ∧
      (handleSleepThreads .unbounded).run s' = .ret () s' := by
  refine ⟨wake .unbounded s, run_handleSleepThreads _ hlive, wakes_wake hready, ?_⟩
  have hlive' : ∀ tid ∈ (wake .unbounded s).sleepingThreads, tid ∈ (wake .unbounded s).threads :=
    fun tid hs => hlive tid (mem_of_mem_wake _ hs)
  rw [run_handleSleepThreads _ hlive', wake_wake]

/-- At 5 quantums the deadlines of threads 1, 2 and 4 have expired, that of thread 3
has not; thread 2 is BLOCKED. -/
def drowsy : Scheduler :=
  { initial .unbounded 1000 with
    totalQuantums := 5
    threads := (((((∅ : Std.ExtTreeMap Nat Thread).insert 0 ⟨0, .running, 1⟩).insert 1
      ⟨1, .ready, 1⟩).insert 2 ⟨2, .blocked, 1⟩).insert 3 ⟨3, .ready, 1⟩).insert 4 ⟨4, .ready, 1⟩
    blockedThreads := (∅ : Std.ExtTreeSet Nat).insert 2
    sleepingThreads := ((((∅ : Std.ExtTreeMap Nat Nat).insert 1 6).insert 2 5).insert 3 7).insert 4 3 }

theorem handle_sleep_threads_wakes_drowsy : ∃ s',
    (handleSleepThreads .unbounded).run drowsy = .ret () s' ∧
      (handleSleepThreads .unbounded).run s' = .ret () s' ∧ Wakes drowsy s' ∧
      s'.sleepingThreads[1]? = none ∧ s'.sleepingThreads[2]? = none ∧
      s'.sleepingThreads[3]? = some 7 ∧ s'.sleepingThreads[4]? = none ∧
      (1 ∈ s'.readyThreads ∧ 4 ∈ s'.readyThreads) ∧ 2 ∉ s'.readyThreads ∧ 3 ∉ s'.readyThreads := by
  obtain ⟨s', hrun, hwakes, hagain⟩ := handle_sleep_threads_wakes (s := drowsy)
    (by simp [drowsy]; omega) (by simp [drowsy, initial])
  have h1 : s'.sleepingThreads[1]? = none := by rw [hwakes.removed]; decide +kernel
  have h2 : s'.sleepingThreads[2]? = none := by rw [hwakes.removed]; decide +kernel
  have h3 : s'.sleepingThreads[3]? = some 7 := by rw [hwakes.removed]; decide +kernel
  have h4 : s'.sleepingThreads[4]? = none := by rw [hwakes.removed]; decide +kernel
  obtain ⟨awake, hq, -, -, hmem⟩ := hwakes.queued
  have hq' : s'.readyThreads = awake := hq
  have hready : ∀ tid, tid ∈ s'.readyThreads ↔ tid ∈ drowsy.sleepingThreads ∧
      s'.sleepingThreads[tid]? = none ∧ stateOf drowsy tid = some .ready := by
    intro tid
    rw [hq', hmem, Maps.mem_iff s'.sleepingThreads, ← Option.ne_none_iff_exists', not_not]
  refine ⟨s', hrun, hagain, hwakes, h1, h2, h3, h4, ⟨?_, ?_⟩, fun h => ?_, fun h => ?_⟩
  · exact (hready 1).mpr ⟨by decide +kernel, h1, by decide +kernel⟩
  · exact (hready 4).mpr ⟨by decide +kernel, h4, by decide +kernel⟩
  · exact absurd ((hready 2).mp h).2.2 (by decide +kernel)
  · exact absurd ((hready 3).mp h).2.1 (by simp [h3])

def intMin : Int := -2147483648

def intMax : Int := 2147483647

def deadline (total : Int) (numQuantums : Int32) : Nat :=
  Width.lp64.sizeT (Width.lp64.sizeT (Width.lp64.sizeT total + sizeOfInt numQuantums.toInt) + 1)

def slept (s : Scheduler) (n : Int32) : Scheduler :=
  sleep .lp64 s s.runningThreadTid (sizeOfInt n.toInt)

/-- The running thread can go to sleep for n quantums: to test its deadline takes
no overflow of an int, and the test wakes it, at every count of quantums from the
present one on, exactly if n quantums have passed. -/
structure SleepExact (s : Scheduler) (n : Int32) : Prop where
  sleeps : ∃ i next rest, perform (uthreads .lp64) (.call (.sleep n)) s =
    .jump i (dispatch .lp64 (wake .lp64 (slept s n)) next rest)
  stored : (slept s n).sleepingThreads[s.runningThreadTid]? = some (deadline s.totalQuantums n)
  fits : intMin ≤ Width.lp64.int (deadline s.totalQuantums n) - 1
  wakes : ∀ q, s.totalQuantums ≤ q → q ≤ intMax → ∃ s',
    (handleSleepThreads .lp64).run { slept s n with totalQuantums := q } = .ret () s' ∧
      (s.runningThreadTid ∉ s'.sleepingThreads ↔ s.totalQuantums + n.toInt ≤ q)

theorem stored_deadline (s : Scheduler) (n : Int32) :
    (slept s n).sleepingThreads[s.runningThreadTid]? = some (deadline s.totalQuantums n) := by
  rw [slept, sleep_sleepingThreads, deadline, Std.ExtTreeMap.getElem?_insert_self]

theorem deadline_eq {total : Int} (hpos : 0 < total) (hmax : total ≤ intMax) (hn : 0 < n.toInt) :
    (deadline total n : Int) = total + n.toInt + 1 := by
  have hlt := n.toInt_lt
  rw [intMax] at hmax
  simp only [deadline, Width.lp64, sizeOfInt]
  omega

theorem narrow_eq {x : Int} (h0 : 0 ≤ x) (hlt : x < 2 ^ 32) :
    x.bmod (2 ^ 32) = if x ≤ intMax then x else x - 2 ^ 32 := by
  rw [Int.bmod_def, intMax]
  split <;> split <;> omega

theorem int_deadline {total : Int} (hpos : 0 < total) (hmax : total ≤ intMax) (hn : 0 < n.toInt) :
    Width.lp64.int (deadline total n) =
      if total + n.toInt + 1 ≤ intMax then total + n.toInt + 1 else total + n.toInt + 1 - 2 ^ 32 := by
  have hlt := n.toInt_lt
  rw [deadline_eq hpos hmax hn]
  rw [intMax] at hmax
  simp only [Width.lp64]
  apply narrow_eq <;> omega

theorem sleepers_slept {q : Int} (hi : Inv s) (h0 : s.runningThreadTid ≠ 0) (tid : Nat)
    (hs : tid ∈ ({ slept s n with totalQuantums := q } : Scheduler).sleepingThreads) :
    tid ∈ ({ slept s n with totalQuantums := q } : Scheduler).threads :=
  sleepers (hi.tables.sleep .lp64 h0 _) tid hs

theorem awake_iff {q : Int} :
    s.runningThreadTid ∉ (wake .lp64 { slept s n with totalQuantums := q }).sleepingThreads ↔
      Width.lp64.int (Width.lp64.int (deadline s.totalQuantums n) - 1) ≤ q := by
  rw [not_mem_wake (s := { slept s n with totalQuantums := q }) (stored_deadline s n), expired,
    decide_eq_true_eq]

theorem narrow_self {x : Int} (hmin : intMin ≤ x) (hmax : x ≤ intMax) : Width.lp64.int x = x := by
  rw [intMin] at hmin
  rw [intMax] at hmax
  simp only [Width.lp64]
  apply Int.bmod_eq_of_le <;> omega

theorem not_exact (hi : Inv s) (h0 : s.runningThreadTid ≠ 0) (hpos : 0 < s.totalQuantums)
    (hmax : s.totalQuantums ≤ intMax) (hn : 0 < n.toInt)
    (hlt : intMax < s.totalQuantums + n.toInt + 1) : ¬ SleepExact s n := by
  rintro ⟨-, -, hfits, hwakes⟩
  have hlt' := n.toInt_lt
  obtain ⟨s', hrun, hiff⟩ := hwakes s.totalQuantums le_rfl hmax
  rw [run_handleSleepThreads _ (sleepers_slept hi h0)] at hrun
  cases hrun
  have hint := int_deadline hpos hmax hn
  rw [if_neg (Int.not_le.mpr hlt)] at hint
  rw [intMax] at hmax
  rw [hint] at hfits
  rw [awake_iff, hint, narrow_self hfits (by rw [intMax]; omega)] at hiff
  omega

theorem exact_of_le (hi : Inv s) (h0 : s.runningThreadTid ≠ 0) (hpos : 0 < s.totalQuantums)
    (hn : 0 < n.toInt) (hle : s.totalQuantums + n.toInt + 1 ≤ intMax) : SleepExact s n := by
  have hmax : s.totalQuantums ≤ intMax := by omega
  have hint := int_deadline hpos hmax hn
  rw [if_pos hle] at hint
  obtain ⟨next, rest, t, hq, ht, hp⟩ := perform_leave hi (.sleep (w := .lp64) hn h0)
  refine ⟨⟨t.id, next, rest, hp⟩, stored_deadline s n, ?_, fun q hq hqmax => ?_⟩
  · rw [hint, intMin]
    omega
  · refine ⟨_, run_handleSleepThreads _ (sleepers_slept hi h0), ?_⟩
    rw [awake_iff, hint, narrow_self (by rw [intMin]; omega) (by omega)]
    omega

/-- The sleep for n quantums is exact only below the range of int. -/
theorem sleep_exact_iff (hr : Reachable .lp64 s) (h0 : s.runningThreadTid ≠ 0)
    (hpos : 0 < s.totalQuantums) (hmax : s.totalQuantums ≤ intMax) (hn : 0 < n.toInt) :
    SleepExact s n ↔ s.totalQuantums + n.toInt + 1 ≤ intMax := by
  constructor
  · intro h
    by_contra hlt
    exact not_exact (hr.inv .lp64) h0 hpos hmax hn (Int.not_le.mp hlt) h
  · exact exact_of_le (hr.inv .lp64) h0 hpos hn

theorem reachable_second : ∃ s, Reachable .lp64 s ∧ s.runningThreadTid = 1 ∧ s.totalQuantums = 2 := by
  have hplays : Plays .lp64 (initial .lp64 1000) [.call (.spawn (some 7)), .tick]
      (fun _ s => s.runningThreadTid = 1 ∧ s.totalQuantums = 2) := by decide +kernel
  obtain ⟨xs, s, hr, hs⟩ := hplays.exists_run (by decide)
  exact ⟨s, ⟨_, hr⟩, hs⟩

theorem sleep_exact_second : ∃ s : Scheduler, s.runningThreadTid = 1 ∧ SleepExact s 5 := by
  obtain ⟨s, hr, hone, hT⟩ := reachable_second
  exact ⟨s, hone, (sleep_exact_iff hr (by rw [hone]; decide) (by rw [hT]; decide)
    (by rw [hT]; decide) (n := 5) (by decide)).mpr (by rw [hT]; decide)⟩

/-- A sleep for INT_MAX quantums in the second quantum: the scheduling decision
of the sleep itself wakes the sleeper. -/
theorem sleep_max_wakes : ∃ s : Scheduler, Reachable .lp64 s ∧ s.runningThreadTid = 1 ∧
    s.totalQuantums = 2 ∧ 1 ∉ (wake .lp64 (slept s 2147483647)).sleepingThreads ∧
    ¬ SleepExact s 2147483647 := by
  obtain ⟨s, hr, hone, hT⟩ := reachable_second
  have hn : (2147483647 : Int32).toInt = 2147483647 := rfl
  refine ⟨s, hr, hone, hT, ?_, ?_⟩
  · have hawake := (awake_iff (s := s) (n := 2147483647) (q := s.totalQuantums)).mpr (by
      rw [int_deadline (by rw [hT]; decide) (by rw [hT]; decide) (by rw [hn]; decide), hT, hn]
      decide)
    rw [hone] at hawake
    exact hawake
  · exact not_exact (hr.inv .lp64) (by rw [hone]; decide) (by rw [hT]; decide) (by rw [hT]; decide)
      (by rw [hn]; decide) (by rw [hT, hn]; decide)

end Uthreads.Wakeups
