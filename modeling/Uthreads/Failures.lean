import Uthreads.Quantums

namespace Uthreads.Failures

open Program SignalMachine AtomicMachine Tables Source Api Effects Tallies Configs Moves Runs
open Histories Quantums

variable {w : Width} {s s' : Scheduler} {h : List Entry} {e : Event Call} {x : Entry} {n : Nat}

def Exact (w : Width) (n : Nat) : Prop := ∀ k ≤ n, w.int k = k ∧ w.sizeT k = k

/-- The quanta started in a run, the one of uthread_init included. -/
def quanta (h : List Entry) : Nat := 1 + h.countP (fun x => x.switched)

theorem exact_unbounded (n : Nat) : Exact .unbounded n := fun _ _ => ⟨rfl, rfl⟩

theorem exact_lp64 : Exact .lp64 2147483647 := by
  intro k hk
  have hint : (k : Int).bmod (2 ^ 32) = k := by
    apply Int.bmod_eq_of_le <;> omega
  have hsize : sizeOfInt k = k := by
    rw [sizeOfInt]
    omega
  simp only [Width.lp64]
  exact ⟨hint, hsize⟩

theorem Exact.mono {m : Nat} (hw : Exact w n) (hmn : m ≤ n) : Exact w m :=
  fun k hk => hw k (hk.trans hmn)

theorem quanta_cons (x : Entry) (h : List Entry) :
    quanta (x :: h) = quanta h + if x.switched then 1 else 0 := by
  rw [quanta, quanta, List.countP_cons, Nat.add_assoc]

theorem total_eq_quanta (hr : Run w h s) (hw : Exact w (quanta h)) : s.totalQuantums = quanta h := by
  induction hr with
  | init hi =>
      obtain ⟨-, rfl⟩ := eq_initial w hi
      exact (hw 1 (Nat.le_refl 1)).1
  | @step h s e x hr hx ih =>
      rw [quanta_cons] at hw ⊢
      have hs := ih (hw.mono (Nat.le_add_right _ _))
      rcases operate_cases w (hr.inv w) hx with ⟨v, s', hm, rfl⟩ | ⟨i, s', hm, rfl⟩
      · cases hm <;> exact hs
      · cases hm with
        | @switch _ s₁ _ _ _ hl hq ht =>
            have htotal : s₁.totalQuantums = s.totalQuantums := by
              cases hl <;> rfl
            have hnext := (hw _ (Nat.le_refl _)).1
            simp only [if_true, Nat.cast_add, Nat.cast_one] at hnext ⊢
            rw [dispatch_totalQuantums, htotal, hs, hnext]

def QuantumsLe (s : Scheduler) (n : Nat) : Prop :=
  ∀ (tid : Nat) (t : Thread), s.threads[tid]? = some t → t.quantumT ≤ n

theorem QuantumsLe.same (h : QuantumsLe s n) (hs : SameQuantums s s') : QuantumsLe s' n := by
  intro tid t' ht'
  obtain ⟨t, ht, -, hq⟩ := hs tid t' ht'
  exact hq ▸ h tid t ht

theorem QuantumsLe.dispatch (h : QuantumsLe s n) (hw : Exact w (n + 1)) (tid : Nat)
    (rest : List Nat) : QuantumsLe (dispatch w s tid rest) (n + 1) := by
  intro j t' ht'
  simp only [Effects.dispatch, Maps.getElem?_modify] at ht'
  split at ht'
  · obtain ⟨t, ht, rfl⟩ := Option.map_eq_some_iff.mp ht'
    have hle := Nat.succ_le_succ (h j t ht)
    have hq := (hw _ hle).2
    push_cast at hq
    exact hq ▸ hle
  · exact (h j t' ht').trans (Nat.le_succ n)

theorem quantums_le (hr : Run w h s) (hw : Exact w (quanta h)) : QuantumsLe s (quanta h) := by
  induction hr with
  | init hi =>
      obtain ⟨-, rfl⟩ := eq_initial w hi
      intro tid t ht
      simp only [initial, Std.ExtTreeMap.getElem?_insert] at ht
      split at ht
      · exact (Option.some.inj ht) ▸ Nat.le_refl 1
      · simp at ht
  | @step h s e x hr hx ih =>
      rw [quanta_cons] at hw ⊢
      have hs := ih (hw.mono (Nat.le_add_right _ _))
      rcases operate_cases w (hr.inv w) hx with ⟨v, s', hm, rfl⟩ | ⟨i, s', hm, rfl⟩
      · cases hm with
        | fail | read | blockBlocked | resumeOther => exact hs
        | @spawn entryPoint new hfree hlt hmin =>
            intro tid t ht
            simp only [spawn, Std.ExtTreeMap.getElem?_insert] at ht
            split at ht
            · exact (Option.some.inj ht) ▸ Nat.zero_le _
            · exact hs tid t ht
        | terminate => exact hs.same (sameQuantums_erase _ rfl)
        | blockReady =>
            exact hs.same (sameQuantums_modify _ (fun t => { t with state := .blocked })
              (fun _ => ⟨rfl, rfl⟩) rfl)
        | resumeBlocked =>
            exact hs.same (sameQuantums_modify _ (fun t => { t with state := .ready })
              (fun _ => ⟨rfl, rfl⟩) rfl)
      · cases hm with
        | switch hl hq ht => exact (hs.same (sameQuantums_leave hl)).dispatch hw _ _

def Live (s : Scheduler) (tid : Int32) : Prop := ∃ j ∈ s.threads, (j : Int) = tid.toInt

/-- When a call is documented to fail. -/
def Documented (s : Scheduler) : Call → Prop
  | .spawn entryPoint => entryPoint = none ∨ s.threads.size = maxThreadNum
  | .terminate tid | .resume tid | .getQuantums tid => ¬ Live s tid
  | .block tid => ¬ Live s tid ∨ tid = 0
  | .sleep numQuantums => numQuantums.toInt ≤ 0 ∨ s.runningThreadTid = 0
  | .getTid | .getTotalQuantums => False

theorem live_iff (hi : Inv s) (tid : Int32) : Live s tid ↔ stateOf s (index tid) ≠ none := by
  constructor
  · rintro ⟨j, hj, hjt⟩
    have hj := (mem_threads s j).mp hj
    have hindex : index tid = j := (index_eq_iff ((hi.tables.tally j).bound hj)).mpr hjt.symm
    exact hindex ▸ hj
  · intro hl
    exact ⟨index tid, (mem_threads s _).mpr hl, (toInt_of_live hi.tables hl).symm⟩

theorem full_iff (hi : Inv s) :
    s.threads.size = maxThreadNum ↔ ∀ tid < maxThreadNum, stateOf s tid ≠ none := by
  simp only [← mem_threads]
  exact Maps.size_eq_iff _ fun _ => hi.tables.lt_of_mem

theorem documented_iff (hi : Inv s) (c : Call) : Documented s c ↔ Fails s c := by
  cases c with
  | spawn => exact or_congr_right (full_iff hi)
  | terminate | resume | getQuantums => exact (not_congr (live_iff hi _)).trans not_not
  | block => exact or_congr_left ((not_congr (live_iff hi _)).trans not_not)
  | sleep | getTid | getTotalQuantums => exact Iff.rfl

theorem fails_of_move {c : Call} (hm : Move w s (.call c) (.ret (some (-1)) s'))
    (hread : ¬ Reads w s c (-1)) : Fails s c ∧ s' = s := by
  generalize ho : Outcome.ret (some (-1 : Int)) s' = o at hm
  cases hm with
  | fail hf =>
      cases ho
      exact ⟨hf, rfl⟩
  | read hr =>
      cases ho
      exact absurd hr hread
  | @spawn entryPoint tid hfree hlt hmin =>
      simp only [Outcome.ret.injEq, Option.some.injEq] at ho
      omega
  | terminate | blockReady | blockBlocked | resumeBlocked | resumeOther | switch | exit => simp at ho

theorem move_of_fails (hi : Inv s) {c : Call} {o : Outcome Scheduler (Option Int)}
    (hm : Move w s (.call c) o) (hf : Fails s c) : o = .ret (some (-1)) s := by
  cases hm with
  | fail => rfl
  | @read _ v hr =>
      cases c with
      | getQuantums tid =>
          obtain ⟨t, ht, -⟩ := hr
          simp [Fails, stateOf, ht] at hf
      | getTid | getTotalQuantums => exact hf.elim
      | spawn | terminate | block | resume | sleep => exact hr.elim
  | spawn hfree hlt hmin => exact absurd hfree (hf.resolve_left (by simp) _ hlt)
  | terminate hl h0 hr => exact absurd hf hl
  | blockReady hst h0 => exact absurd (hf.resolve_right h0) (by simp [hst])
  | blockBlocked hst h0 => exact absurd (hf.resolve_right h0) (by simp [hst])
  | resumeBlocked hst => exact absurd hf (by simp [Fails, hst])
  | resumeOther hl hst => exact absurd hf hl
  | switch hl hq ht => exact absurd hf (hl.not_fails w hi.tables)
  | exit => exact absurd hf hi.tables.main.1

theorem not_reads (hr : Run w h s) (hw : Exact w (quanta h)) (c : Call) : ¬ Reads w s c (-1) := by
  have htotal := total_eq_quanta hr hw
  cases c with
  | getTid =>
      intro hv
      simp only [Reads] at hv
      omega
  | getTotalQuantums =>
      intro hv
      simp only [Reads] at hv
      omega
  | getQuantums tid =>
      rintro ⟨t, ht, hv⟩
      rw [(hw _ (quantums_le hr hw _ t ht)).1] at hv
      omega
  | spawn | terminate | block | resume | sleep => exact id

/-- In a reachable state whose counters fit their types, a call returns -1 exactly
when it is documented to fail, and then nothing has changed. -/
theorem failure_reported (hr : Run w h s) (hw : Exact w (quanta h)) (c : Call) :
    ((∃ s', perform (uthreads w) (.call c) s = .ret (some (-1)) s') ↔ Documented s c) ∧
    ∀ s', perform (uthreads w) (.call c) s = .ret (some (-1)) s' → s' = s := by
  have hi := hr.inv w
  have hm := perform_move w hi (.call c)
  have hread := not_reads hr hw c
  refine ⟨⟨?_, fun hd => ⟨s, ?_⟩⟩, fun s' ho => ?_⟩
  · rintro ⟨s', ho⟩
    rw [ho] at hm
    exact (documented_iff hi c).mpr (fails_of_move hm hread).1
  · exact move_of_fails hi hm ((documented_iff hi c).mp hd)
  · rw [ho] at hm
    exact (fails_of_move hm hread).2

/-- With threads 0 to 3 live, 1 asleep and 3 blocked. -/
theorem failure_reported_mixed : ∃ h s, Run .lp64 h s ∧ s.runningThreadTid = 2 ∧
    (∃ s', perform (uthreads .lp64) (.call (.terminate 7)) s = .ret (some (-1)) s') ∧
    (∃ s', perform (uthreads .lp64) (.call (.block 0)) s = .ret (some (-1)) s') ∧
    ∀ s', perform (uthreads .lp64) (.call (.resume 3)) s ≠ .ret (some (-1)) s' := by
  have hplays : Plays .lp64 (initial .lp64 1000) mixed (fun xs s => quanta xs.reverse = 3 ∧
      s.runningThreadTid = 2 ∧ stateOf s (index 7) = none ∧ stateOf s (index 3) = some .blocked) := by
    decide +kernel
  obtain ⟨xs, s, hr, hquanta, hrun, h7, h3⟩ := hplays.exists_run (by decide)
  have hi := hr.inv .lp64
  have hw : Exact .lp64 (quanta xs.reverse) := exact_lp64.mono (by rw [hquanta]; decide)
  obtain ⟨hterminate, -⟩ := failure_reported hr hw (.terminate 7)
  obtain ⟨hblock, -⟩ := failure_reported hr hw (.block 0)
  obtain ⟨hresume, -⟩ := failure_reported hr hw (.resume 3)
  refine ⟨_, s, hr, hrun, hterminate.mpr (mt (live_iff hi 7).mp (not_not.mpr h7)),
    hblock.mpr (.inr rfl), fun s' ho => ?_⟩
  exact hresume.mp ⟨s', ho⟩ ((live_iff hi 3).mpr (by simp [h3]))

end Uthreads.Failures
