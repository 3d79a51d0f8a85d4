import Uthreads.Handover
import Uthreads.Schedulable

namespace Uthreads.Quantums

open Program SignalMachine AtomicMachine Tables Source Api Effects Tallies Configs Moves Runs
open Histories Schedulable

variable {s s' : Scheduler} {h : List Entry} {e : Event Call} {x : Entry}

def SameQuantums (s s' : Scheduler) : Prop :=
  ∀ (tid : Nat) (t' : Thread), s'.threads[tid]? = some t' →
    ∃ t : Thread, s.threads[tid]? = some t ∧ t'.id = t.id ∧ t'.quantumT = t.quantumT

theorem sameQuantums_modify (tid : Nat) (f : Thread → Thread)
    (hf : ∀ t, (f t).id = t.id ∧ (f t).quantumT = t.quantumT)
    (hs : s'.threads = s.threads.modify tid f) : SameQuantums s s' := by
  intro j t' ht'
  rw [hs, Maps.getElem?_modify] at ht'
  split at ht'
  · obtain ⟨t, ht, rfl⟩ := Option.map_eq_some_iff.mp ht'
    exact ⟨t, ht, (hf t).1, (hf t).2⟩
  · exact ⟨t', ht', rfl, rfl⟩

theorem sameQuantums_erase (tid : Nat) (hs : s'.threads = s.threads.erase tid) :
    SameQuantums s s' := by
  intro j t' ht'
  rw [hs, Std.ExtTreeMap.getElem?_erase] at ht'
  split at ht'
  · exact absurd ht' (by simp)
  · exact ⟨t', ht', rfl, rfl⟩

theorem sameQuantums_leave {w : Width} (hl : Leave w s e s') : SameQuantums s s' := by
  cases hl with
  | tick | sleep =>
      exact sameQuantums_modify _ (fun t => { t with state := .ready }) (fun _ => ⟨rfl, rfl⟩) rfl
  | block =>
      exact sameQuantums_modify _ (fun t => { t with state := .blocked }) (fun _ => ⟨rfl, rfl⟩) rfl
  | terminate => exact sameQuantums_erase _ rfl

theorem not_spawned_of_fails {c : Call} (tid : Nat) :
    (⟨s, .call c, s', false, some (-1)⟩ : Entry).spawned tid = false := by
  have hne : (-1 : Int) ≠ tid := by omega
  cases c <;> simp [Entry.spawned, hne]

/-- Every thread after an entry is new, or was there before and has run once
more exactly if the entry dispatched it. -/
theorem quantum_step (hi : Inv s) (hx : operate .unbounded s e = some x) {tid : Nat} {t' : Thread}
    (ht' : x.after.threads[tid]? = some t') :
    (x.spawned tid = true ∧ x.switched = false ∧ t'.id = s.nextObject ∧ t'.quantumT = 0) ∨
    (x.spawned tid = false ∧ ∃ t : Thread, s.threads[tid]? = some t ∧ t'.id = t.id ∧
      t'.quantumT = t.quantumT + if x.dispatched tid then 1 else 0) := by
  rcases operate_cases .unbounded hi hx with ⟨v, s', hm, rfl⟩ | ⟨i, s', hm, rfl⟩
  · cases hm with
    | fail hf => exact .inr ⟨not_spawned_of_fails tid, t', ht', rfl, rfl⟩
    | @read c v hr =>
        cases c <;> first
          | exact hr.elim
          | exact .inr ⟨rfl, t', ht', rfl, rfl⟩
    | @spawn entryPoint new hfree hlt hmin =>
        simp only [spawn, Std.ExtTreeMap.getElem?_insert, compare_eq_iff_eq] at ht'
        by_cases hn : new = tid
        · rw [if_pos hn, Option.some.injEq] at ht'
          subst ht'
          exact .inl ⟨by simp [Entry.spawned, hn], rfl, rfl, rfl⟩
        · rw [if_neg hn] at ht'
          exact .inr ⟨by simp [Entry.spawned, hn], t', ht', rfl, rfl⟩
    | @terminate target hl h0 hr =>
        obtain ⟨t, ht, hid, hq⟩ := sameQuantums_erase (index target) rfl tid t' ht'
        exact .inr ⟨rfl, t, ht, hid, hq⟩
    | @blockReady target hst h0 =>
        obtain ⟨t, ht, hid, hq⟩ := sameQuantums_modify (index target)
          (fun t => { t with state := .blocked }) (fun _ => ⟨rfl, rfl⟩) rfl tid t' ht'
        exact .inr ⟨rfl, t, ht, hid, hq⟩
    | @resumeBlocked target hst =>
        obtain ⟨t, ht, hid, hq⟩ := sameQuantums_modify (index target)
          (fun t => { t with state := .ready }) (fun _ => ⟨rfl, rfl⟩) rfl tid t' ht'
        exact .inr ⟨rfl, t, ht, hid, hq⟩
    | blockBlocked | resumeOther => exact .inr ⟨rfl, t', ht', rfl, rfl⟩
  · cases hm with
    | @switch _ s₁ next rest t₀ hl hq ht₀ =>
        have hspawned := (event_of_switched .unbounded hi hx rfl tid).1
        simp only [dispatch, Maps.getElem?_modify] at ht'
        refine .inr ⟨hspawned, ?_⟩
        by_cases hn : next = tid
        · rw [if_pos hn] at ht'
          obtain ⟨t₁, ht₁, rfl⟩ := Option.map_eq_some_iff.mp ht'
          obtain ⟨t, ht, hid, hqt⟩ := sameQuantums_leave hl tid t₁ ht₁
          refine ⟨t, ht, hid, ?_⟩
          simp [Entry.dispatched, hn, hqt, Width.unbounded]
        · rw [if_neg hn] at ht'
          obtain ⟨t, ht, hid, hqt⟩ := sameQuantums_leave hl tid t' ht'
          exact ⟨t, ht, hid, by simp [Entry.dispatched, hn, hqt]⟩

/-- The quantums of the thread object i, while it is live. -/
def quantumOf (s : Scheduler) (i : Nat) : Option Nat :=
  (s.threads.toList.find? (fun e => e.2.id == i)).map (fun e => e.2.quantumT)

/-- The quantums of the thread object i when it was last live. -/
def lastQuantum (h : List Entry) (s : Scheduler) (i : Nat) : Nat :=
  ((s :: h.map (fun x => x.before)).findSome? (fun r => quantumOf r i)).getD 0

theorem quantumOf_eq_some (hc : Config s) {tid : Nat} {t : Thread}
    (ht : s.threads[tid]? = some t) : quantumOf s t.id = some t.quantumT := by
  cases hf : s.threads.toList.find? (fun e => e.2.id == t.id) with
  | none =>
      have hmem := Std.ExtTreeMap.mem_toList_iff_getElem?_eq_some.mpr ht
      have hne := List.find?_eq_none.mp hf _ hmem
      simp at hne
  | some found =>
      have hmem := List.mem_of_find?_eq_some hf
      have hid : found.2.id = t.id := by simpa using List.find?_some hf
      rw [Std.ExtTreeMap.mem_toList_iff_getElem?_eq_some] at hmem
      have htid : found.1 = tid :=
        hc.unique found.1 tid t.id (by simp [idOf, hmem, hid]) (by simp [idOf, ht])
      rw [htid, ht, Option.some.injEq] at hmem
      rw [quantumOf, hf, hmem]
      rfl

theorem exists_of_quantumOf {i q : Nat} (hq : quantumOf s i = some q) :
    ∃ (tid : Nat) (t : Thread), s.threads[tid]? = some t ∧ t.id = i ∧ t.quantumT = q := by
  obtain ⟨found, hf, rfl⟩ := Option.map_eq_some_iff.mp hq
  have hmem := List.mem_of_find?_eq_some hf
  rw [Std.ExtTreeMap.mem_toList_iff_getElem?_eq_some] at hmem
  exact ⟨found.1, found.2, hmem, by simpa using List.find?_some hf, rfl⟩

theorem lastQuantum_cons (hx : x.before = s) (i : Nat) :
    lastQuantum (x :: h) x.after i = (quantumOf x.after i).getD (lastQuantum h s i) := by
  simp only [lastQuantum, List.map_cons, hx]
  rw [List.findSome?_cons]
  cases quantumOf x.after i <;> rfl

theorem lastQuantum_live {i q : Nat} (hq : quantumOf s i = some q) : lastQuantum h s i = q := by
  simp [lastQuantum, hq]

def RunsObject (x : Entry) (i : Nat) : Prop :=
  x.switched = true ∧ idOf x.after x.after.runningThreadTid = some i

instance (x : Entry) (i : Nat) : Decidable (RunsObject x i) := inferInstanceAs (Decidable (_ ∧ _))

theorem dispatched_iff_runsObject (hi : Inv x.after) {tid : Nat} {t : Thread}
    (ht : x.after.threads[tid]? = some t) : x.dispatched tid = true ↔ RunsObject x t.id := by
  have hid : idOf x.after tid = some t.id := by simp [idOf, ht]
  simp only [Entry.dispatched, Bool.and_eq_true, beq_iff_eq, RunsObject]
  constructor
  · rintro ⟨hsw, rfl⟩
    exact ⟨hsw, hid⟩
  · rintro ⟨hsw, hrun⟩
    exact ⟨hsw, hi.config.unique _ _ _ hrun hid⟩

theorem lastQuantum_step (hi : Inv s) (hx : operate .unbounded s e = some x) {i : Nat}
    (hlt : i < s.nextObject) :
    lastQuantum (x :: h) x.after i = lastQuantum h s i + if RunsObject x i then 1 else 0 := by
  have hi' := operate_inv .unbounded hi hx
  rw [lastQuantum_cons (operate_before .unbounded hx)]
  cases hq : quantumOf x.after i with
  | none =>
      have hno : ¬ RunsObject x i := by
        rintro ⟨-, hrun⟩
        obtain ⟨t, ht, -, hid⟩ := exists_running hi'
        rw [hrun, Option.some.injEq] at hid
        rw [hid, quantumOf_eq_some hi'.config ht] at hq
        simp at hq
      simp [hno]
  | some q =>
      obtain ⟨tid, t', ht', rfl, rfl⟩ := exists_of_quantumOf hq
      rcases quantum_step hi hx ht' with ⟨-, -, hnew, -⟩ | ⟨-, t, ht, hid, hqt⟩
      · omega
      · have hlast : lastQuantum h s t'.id = t.quantumT :=
          lastQuantum_live (hid ▸ quantumOf_eq_some hi.config ht)
        simp only [Option.getD_some, hlast, hqt, dispatched_iff_runsObject hi' ht']

theorem nextObject_step (hi : Inv s) (hx : operate .unbounded s e = some x) :
    x.after.nextObject = s.nextObject ∨ (x.after.nextObject = s.nextObject + 1 ∧
      x.switched = false ∧ quantumOf x.after s.nextObject = some 0) := by
  have hi' := operate_inv .unbounded hi hx
  rcases operate_cases .unbounded hi hx with ⟨v, s', hm, rfl⟩ | ⟨i, s', hm, rfl⟩
  · cases hm with
    | @spawn entryPoint tid hfree hlt hmin =>
        refine .inr ⟨rfl, rfl, ?_⟩
        have hnew : (spawn s tid).threads[tid]? = some ⟨s.nextObject, .ready, 0⟩ := by simp [spawn]
        exact quantumOf_eq_some hi'.config hnew
    | fail | read | terminate | blockReady | blockBlocked | resumeBlocked | resumeOther =>
        exact .inl rfl
  · cases hm with
    | switch hl hq ht => cases hl <;> exact .inl rfl

theorem sum_runsObject (hi : Inv x.after) (n : Nat) (hn : x.after.nextObject = n) :
    (∑ i ∈ Finset.range n, if RunsObject x i then 1 else 0) = if x.switched then 1 else 0 := by
  obtain ⟨t, ht, -, hid⟩ := exists_running hi
  have hlt : t.id < n := hn ▸ hi.config.fresh _ _ hid
  cases hsw : x.switched with
  | false => simp [RunsObject, hsw]
  | true =>
      have hiff : ∀ i, RunsObject x i ↔ i = t.id := by
        intro i
        simp [RunsObject, hsw, hid, eq_comm]
      simp [hiff, hlt]

theorem total_eq_sum (hr : Run .unbounded h s) :
    s.totalQuantums = (∑ i ∈ Finset.range s.nextObject, lastQuantum h s i : Nat) := by
  induction hr with
  | @init q s hi =>
      obtain ⟨hq, rfl⟩ := eq_initial .unbounded hi
      have ht : (initial .unbounded q).threads[0]? = some ⟨0, .running, 1⟩ := by simp [initial]
      have hmain : quantumOf (initial .unbounded q) 0 = some 1 :=
        quantumOf_eq_some (inv_initial .unbounded hq).config ht
      have hone : (initial .unbounded q).nextObject = 1 := rfl
      rw [hone, Finset.sum_range_one, lastQuantum_live hmain]
      rfl
  | @step h s e x hr hx ih =>
      have hi := hr.inv .unbounded
      have hi' := operate_inv .unbounded hi hx
      have hold : ∑ i ∈ Finset.range s.nextObject, lastQuantum (x :: h) x.after i =
          ∑ i ∈ Finset.range s.nextObject, lastQuantum h s i +
            ∑ i ∈ Finset.range s.nextObject, if RunsObject x i then 1 else 0 := by
        rw [← Finset.sum_add_distrib]
        exact Finset.sum_congr rfl fun i hlt =>
          lastQuantum_step hi hx (Finset.mem_range.mp hlt)
      rw [total_step hi hx]
      rcases nextObject_step hi hx with hn | ⟨hn, hsw, hnew⟩
      · rw [hn, hold, sum_runsObject hi' _ hn, ih]
        split <;> simp
      · have hnone : ∀ i, ¬ RunsObject x i := fun i hrun => by simp [RunsObject, hsw] at hrun
        rw [hn, Finset.sum_range_succ, hold, lastQuantum_live hnew, hsw]
        simp [hnone, ih]

theorem total_eq_switches (hr : Run .unbounded h s) :
    s.totalQuantums = 1 + (h.countP (fun x => x.switched) : Nat) := by
  induction hr with
  | init hi =>
      obtain ⟨-, rfl⟩ := eq_initial .unbounded hi
      rfl
  | @step h s e x hr hx ih =>
      rw [total_step (hr.inv .unbounded) hx, List.countP_cons, ih]
      split <;> push_cast <;> omega

theorem quantum_eq_dispatches (hr : Run .unbounded h s) {tid : Nat} {t : Thread}
    (ht : s.threads[tid]? = some t) :
    t.quantumT = (life tid h).countP (fun x => x.dispatched tid) + if tid = 0 then 1 else 0 := by
  induction hr generalizing t with
  | @init q s hi =>
      obtain ⟨-, rfl⟩ := eq_initial .unbounded hi
      simp only [initial, Std.ExtTreeMap.getElem?_insert, compare_eq_iff_eq] at ht
      by_cases h0 : 0 = tid
      · rw [if_pos h0, Option.some.injEq] at ht
        simp [life, ← ht, ← h0]
      · simp [h0] at ht
  | @step h s e x hr hx ih =>
      have hi := hr.inv .unbounded
      rcases quantum_step hi hx ht with ⟨hs, -, -, hq⟩ | ⟨hs, t₀, ht₀, -, hq⟩
      · have hmain : tid ≠ 0 := by
          rintro rfl
          exact hi.tables.main.1 (spawned_free .unbounded hi hx hs)
        simp [life_cons, hs, hq, hmain]
      · rw [hq, ih ht₀, life_cons, hs]
        simp only [Bool.false_eq_true, if_false, List.countP_cons]
        omega

theorem quantum_of_no_switch (hi : Inv s) (hx : operate .unbounded s e = some x)
    (hsw : x.switched = false) {tid : Nat} {t t' : Thread} (ht : s.threads[tid]? = some t)
    (ht' : x.after.threads[tid]? = some t') : t'.id = t.id ∧ t'.quantumT = t.quantumT := by
  rcases quantum_step hi hx ht' with ⟨hs, -⟩ | ⟨-, t₀, ht₀, hid, hq⟩
  · have hfree := spawned_free .unbounded hi hx hs
    simp [stateOf, ht] at hfree
  · rw [ht, Option.some.injEq] at ht₀
    subst ht₀
    exact ⟨hid, by simpa [Entry.dispatched, hsw] using hq⟩

def Yields (s : Scheduler) : Event Call → Prop
  | .tick => True
  | .call (.block tid) | .call (.terminate tid) =>
      tid.toInt = s.runningThreadTid ∧ s.runningThreadTid ≠ 0
  | .call (.sleep numQuantums) => 0 < numQuantums.toInt ∧ s.runningThreadTid ≠ 0
  | .call _ => False

theorem yields_iff_leave (hi : Inv s) : Yields s e ↔ ∃ s', Leave .unbounded s e s' := by
  have hrunning : ∀ tid : Int32, tid.toInt = s.runningThreadTid ↔ index tid = s.runningThreadTid :=
    fun tid => (index_eq_iff hi.tables.lt_max).symm
  constructor
  · intro hy
    cases e with
    | tick => exact ⟨_, .tick⟩
    | call c =>
        cases c with
        | block tid => exact ⟨_, .block ((hrunning tid).mp hy.1) hy.2⟩
        | sleep n => exact ⟨_, .sleep hy.1 hy.2⟩
        | terminate tid => exact ⟨_, .terminate ((hrunning tid).mp hy.1) hy.2⟩
        | spawn | resume | getTid | getTotalQuantums | getQuantums => exact hy.elim
  · rintro ⟨s', hl⟩
    cases hl with
    | tick => trivial
    | block hr h0 => exact ⟨(hrunning _).mpr hr, h0⟩
    | sleep hn h0 => exact ⟨hn, h0⟩
    | terminate hr h0 => exact ⟨(hrunning _).mpr hr, h0⟩

theorem yields_iff_switched (hi : Inv s) :
    Yields s e ↔ ∃ x, operate .unbounded s e = some x ∧ x.switched = true := by
  rw [yields_iff_leave hi]
  constructor
  · rintro ⟨s', hl⟩
    obtain ⟨next, rest, t, -, -, hp⟩ := Handover.perform_leave hi hl
    exact ⟨_, operate_of_jump .unbounded hp, rfl⟩
  · rintro ⟨x, hx, hsw⟩
    rcases operate_cases .unbounded hi hx with ⟨v, s', hm, rfl⟩ | ⟨i, s', hm, rfl⟩
    · cases hsw
    · cases hm with
      | switch hl => exact ⟨_, hl⟩

/-- The number of quantums is one more than the number of switches, and it is
shared out among the threads ever created. The switches are the ticks and the
operations by which the running thread blocks, sleeps or ends itself. -/
theorem quantums_conserved (hr : Run .unbounded h s) :
    s.totalQuantums = 1 + (h.countP (fun x => x.switched) : Nat) ∧
    s.totalQuantums = (∑ i ∈ Finset.range s.nextObject, lastQuantum h s i : Nat) ∧
    (∀ (tid : Nat) (t : Thread), s.threads[tid]? = some t →
      t.quantumT = (life tid h).countP (fun x => x.dispatched tid) + if tid = 0 then 1 else 0) ∧
    (∀ e, Yields s e ↔ ∃ x, operate .unbounded s e = some x ∧ x.switched = true) ∧
    ∀ e x, operate .unbounded s e = some x → x.switched = false →
      x.after.totalQuantums = s.totalQuantums ∧
      ∀ (tid : Nat) (t t' : Thread), s.threads[tid]? = some t → x.after.threads[tid]? = some t' →
        t'.quantumT = t.quantumT := by
  have hi := hr.inv .unbounded
  refine ⟨total_eq_switches hr, total_eq_sum hr, fun tid t ht => quantum_eq_dispatches hr ht,
    fun e => yields_iff_switched hi, fun e x hx hsw => ?_⟩
  refine ⟨?_, fun tid t t' ht ht' => (quantum_of_no_switch hi hx hsw ht ht').2⟩
  rw [total_step hi hx, hsw]
  rfl

def reused : List (Event Call) :=
  [.call (.spawn (some 7)), .call (.spawn (some 8)), .tick, .tick, .tick, .tick,
    .call (.terminate 1), .call (.spawn (some 9)), .tick, .tick]

theorem quantums_conserved_reused : ∃ h s, Run .unbounded h s ∧ s.totalQuantums = 8 ∧
    lastQuantum h s 1 = 2 ∧ s.threads[1]? = some (⟨3, .running, 1⟩ : Thread) ∧
    h.countP (fun x => x.switched) = 7 ∧
    (∑ i ∈ Finset.range 4, lastQuantum h s i) = 8 ∧
    (life 1 h).countP (fun x => x.dispatched 1) = 1 ∧
    ∃ x, operate .unbounded s (.call (.sleep 2)) = some x ∧ x.switched = true := by
  have hplays : Plays .unbounded (initial .unbounded 1000) reused (fun xs s =>
      s.totalQuantums = 8 ∧ s.nextObject = 4 ∧ s.runningThreadTid = 1 ∧
        lastQuantum xs.reverse s 1 = 2 ∧ s.threads[1]? = some (⟨3, .running, 1⟩ : Thread)) := by
    decide +kernel
  obtain ⟨xs, s, hr, htotal, hnext, hrun, hlast, hthread⟩ := hplays.exists_run (by decide)
  obtain ⟨hswitches, hsum, hquantum, hyields, -⟩ := quantums_conserved hr
  rw [htotal] at hswitches hsum
  rw [hnext] at hsum
  have hlife := hquantum 1 _ hthread
  refine ⟨_, s, hr, htotal, hlast, hthread, by omega, by omega, hlife.symm, ?_⟩
  exact (hyields _).mp ⟨by decide, by rw [hrun]; decide⟩

end Uthreads.Quantums
