import Uthreads.Outcomes

namespace Uthreads.Widths

open Program SignalMachine AtomicMachine Tables Source Api Effects Tallies Configs Moves Runs
open Histories Quantums Failures Outcomes

variable {w w' : Width} {N : Nat} {s s' s₁ : Scheduler} {e : Event Call} {x : Entry}
  {xs : List Entry}

/-- The numbers in the tables are read as they are if those up to N are. -/
structure InRange (N : Nat) (s : Scheduler) : Prop where
  pos : 0 < s.totalQuantums
  total : s.totalQuantums ≤ N
  quantums : ∀ (tid : Nat) (t : Thread), s.threads[tid]? = some t → (t.quantumT : Int) ≤ s.totalQuantums
  deadlines : ∀ tid d : Nat, s.sleepingThreads[tid]? = some d → 0 < d ∧ d ≤ N

def Fits (N : Nat) (s : Scheduler) (e : Event Call) : Prop :=
  s.totalQuantums < N ∧ ∀ n, e = .call (.sleep n) → s.totalQuantums + n.toInt < N

theorem int_eq {k : Int} (hw : Exact w N) (h0 : 0 ≤ k) (hN : k ≤ N) : w.int k = k := by
  obtain ⟨n, rfl⟩ := Int.eq_ofNat_of_zero_le h0
  exact (hw n (by exact_mod_cast hN)).1

theorem sizeT_eq {k : Int} (hw : Exact w N) (h0 : 0 ≤ k) (hN : k ≤ N) : w.sizeT k = k.toNat := by
  obtain ⟨n, rfl⟩ := Int.eq_ofNat_of_zero_le h0
  exact (hw n (by exact_mod_cast hN)).2

theorem expired_eq (hw : Exact w N) {d : Nat} (hd : 0 < d) (hN : d ≤ N) :
    expired w s d = decide ((d : Int) - 1 ≤ s.totalQuantums) := by
  rw [expired, int_eq (k := (d : Int)) hw (by omega) (by omega), int_eq hw (by omega) (by omega)]

theorem wake_congr (hw : Exact w N) (hw' : Exact w' N)
    (h : ∀ tid d : Nat, s.sleepingThreads[tid]? = some d → 0 < d ∧ d ≤ N) : wake w s = wake w' s := by
  have hexp : ∀ tid d : Nat, s.sleepingThreads[tid]? = some d → expired w s d = expired w' s d := by
    intro tid d hd
    obtain ⟨h0, hN⟩ := h tid d hd
    rw [expired_eq hw h0 hN, expired_eq hw' h0 hN]
  refine Scheduler.ext rfl rfl rfl rfl rfl rfl ?_ rfl ?_ rfl rfl rfl rfl
  · rw [wake_readyThreads, wake_readyThreads]
    refine congrArg (fun l => s.readyThreads ++ List.map Prod.fst l) (List.filter_congr fun entry hm => ?_)
    rw [hexp entry.1 entry.2 (Std.ExtTreeMap.mem_toList_iff_getElem?_eq_some.mp hm)]
  · rw [wake_sleepingThreads, wake_sleepingThreads]
    apply Std.ExtTreeMap.ext_getElem?
    intro tid
    rw [Maps.getElem?_filter, Maps.getElem?_filter]
    cases hd : s.sleepingThreads[tid]? with
    | none => rfl
    | some d => rw [Option.filter_some, Option.filter_some, hexp tid d hd]

theorem deadline_eq (hw : Exact w N) {n : Int32} (hn : 0 < n.toInt) (hpos : 0 < s.totalQuantums)
    (hN : s.totalQuantums + n.toInt < N) :
    w.sizeT (w.sizeT (w.sizeT s.totalQuantums + sizeOfInt n.toInt) + 1) =
      s.totalQuantums.toNat + sizeOfInt n.toInt + 1 := by
  have hsize := sizeOfInt_of_pos hn
  rw [sizeT_eq hw (k := s.totalQuantums) (by omega) (by omega),
    sizeT_eq hw (k := (s.totalQuantums.toNat : Int) + sizeOfInt n.toInt) (by omega) (by omega),
    sizeT_eq hw (by omega) (by omega)]
  omega

theorem sleep_congr (hw : Exact w N) (hw' : Exact w' N) {n : Int32} (hn : 0 < n.toInt)
    (hpos : 0 < s.totalQuantums) (hN : s.totalQuantums + n.toInt < N) (tid : Nat) :
    sleep w s tid (sizeOfInt n.toInt) = sleep w' s tid (sizeOfInt n.toInt) := by
  rw [sleep, sleep, deadline_eq hw hn hpos hN, deadline_eq hw' hn hpos hN]

theorem dispatch_congr (hw : Exact w N) (hw' : Exact w' N) (h : 0 ≤ s.totalQuantums)
    (hN : s.totalQuantums < N)
    (hq : ∀ (tid : Nat) (t : Thread), s.threads[tid]? = some t → (t.quantumT : Int) ≤ s.totalQuantums)
    (tid : Nat) (rest : List Nat) : dispatch w s tid rest = dispatch w' s tid rest := by
  have htotal : w.int (s.totalQuantums + 1) = w'.int (s.totalQuantums + 1) := by
    rw [int_eq hw (by omega) (by omega), int_eq hw' (by omega) (by omega)]
  have hthreads : (dispatch w s tid rest).threads = (dispatch w' s tid rest).threads := by
    apply Std.ExtTreeMap.ext_getElem?
    intro j
    simp only [dispatch, Maps.getElem?_modify]
    cases ht : s.threads[j]? with
    | none => rfl
    | some t =>
        have hle := hq j t ht
        rw [Option.map_some, Option.map_some, sizeT_eq hw (by omega) (by omega),
          sizeT_eq hw' (by omega) (by omega)]
  exact Scheduler.ext rfl rfl htotal rfl rfl hthreads rfl rfl rfl rfl rfl rfl rfl

theorem InRange.deadlines_sleep (h : InRange N s) (hw : Exact w N) {n : Int32} (hn : 0 < n.toInt)
    (hN : s.totalQuantums + n.toInt < N) :
    ∀ tid d : Nat, (sleep w s s.runningThreadTid (sizeOfInt n.toInt)).sleepingThreads[tid]? = some d →
      0 < d ∧ d ≤ N := by
  intro tid d hd
  simp only [sleep_sleepingThreads, Std.ExtTreeMap.getElem?_insert] at hd
  split at hd
  · have hpos := h.pos
    have hsize := sizeOfInt_of_pos hn
    rw [deadline_eq hw hn h.pos hN, Option.some.injEq] at hd
    omega
  · exact h.deadlines tid d hd

theorem leave_congr (hw : Exact w N) (hw' : Exact w' N) (h : InRange N s) (hf : Fits N s e)
    (hl : Leave w s e s₁) : Leave w' s e s₁ := by
  cases hl with
  | tick =>
      rw [wake_congr hw hw' h.deadlines]
      exact .tick
  | block hr h0 =>
      rw [wake_congr (s := block s s.runningThreadTid) hw hw' h.deadlines]
      exact .block hr h0
  | @sleep n hn h0 =>
      have hN := hf.2 n rfl
      rw [sleep_congr hw hw' hn h.pos hN, wake_congr hw hw' (h.deadlines_sleep hw' hn hN)]
      exact .sleep hn h0
  | terminate hr h0 =>
      rw [wake_congr (s := drop s s.runningThreadTid) hw hw' h.deadlines]
      exact .terminate hr h0

theorem reads_congr (hw : Exact w N) (hw' : Exact w' N) (h : InRange N s) {c : Call} {v : Int}
    (hr : Reads w s c v) : Reads w' s c v := by
  cases c with
  | getQuantums tid =>
      obtain ⟨t, ht, rfl⟩ := hr
      have hle := h.quantums _ t ht
      have hN := h.total
      exact ⟨t, ht, by rw [int_eq hw (by omega) (by omega), int_eq hw' (by omega) (by omega)]⟩
  | getTid | getTotalQuantums => exact hr
  | spawn | terminate | block | resume | sleep => exact hr.elim

theorem leave_total (hl : Leave w s e s₁) : s₁.totalQuantums = s.totalQuantums := by
  cases hl <;> rfl

theorem leave_quantums (h : InRange N s) (hl : Leave w s e s₁) (tid : Nat) (t : Thread)
    (ht : s₁.threads[tid]? = some t) : (t.quantumT : Int) ≤ s₁.totalQuantums := by
  obtain ⟨t₀, ht₀, -, hq⟩ := sameQuantums_leave hl tid t ht
  rw [leave_total hl, hq]
  exact h.quantums tid t₀ ht₀

/-- An operation does the same under two readings of the counters that are exact
for the numbers in the tables. -/
theorem operate_congr (hw : Exact w N) (hw' : Exact w' N) (hi : Inv s) (h : InRange N s)
    (hx : operate w s e = some x) (hf : x.switched = true → Fits N s e) :
    operate w' s e = some x := by
  rcases operate_cases w hi hx with ⟨v, s', hm, rfl⟩ | ⟨i, s', hm, rfl⟩
  · apply operate_of_move_ret hi
    cases hm with
    | fail hfail => exact .fail hfail
    | read hr => exact .read (reads_congr hw hw' h hr)
    | spawn hfree hlt hmin => exact .spawn hfree hlt hmin
    | terminate hl h0 hr => exact .terminate hl h0 hr
    | blockReady hst h0 => exact .blockReady hst h0
    | blockBlocked hst h0 => exact .blockBlocked hst h0
    | resumeBlocked hst => exact .resumeBlocked hst
    | resumeOther hl hst => exact .resumeOther hl hst
  · cases hm with
    | @switch _ s₁ tid rest t hl hq ht =>
        have hpos := h.pos
        have hN := (hf rfl).1
        have htotal := leave_total hl
        rw [dispatch_congr hw hw' (by omega) (by omega) (leave_quantums h hl)]
        exact operate_of_leave hi (leave_congr hw hw' h (hf rfl) hl) hq

theorem InRange.same (h : InRange N s) (htotal : s'.totalQuantums = s.totalQuantums)
    (hq : SameQuantums s s')
    (hd : ∀ tid d : Nat, s'.sleepingThreads[tid]? = some d → s.sleepingThreads[tid]? = some d) :
    InRange N s' where
  pos := htotal ▸ h.pos
  total := htotal ▸ h.total
  quantums := by
    intro tid t' ht'
    obtain ⟨t, ht, -, hqt⟩ := hq tid t' ht'
    rw [htotal, hqt]
    exact h.quantums tid t ht
  deadlines := fun tid d hs => h.deadlines tid d (hd tid d hs)

theorem InRange.spawn (h : InRange N s) (tid : Nat) : InRange N (spawn s tid) where
  pos := h.pos
  total := h.total
  quantums := by
    intro j t ht
    have hpos := h.pos
    simp only [Effects.spawn, Std.ExtTreeMap.getElem?_insert] at ht
    split at ht
    · cases ht
      simp only [spawn_totalQuantums]
      omega
    · exact h.quantums j t ht
  deadlines := h.deadlines

theorem of_wake {tid d : Nat} (hd : (wake w s).sleepingThreads[tid]? = some d) :
    s.sleepingThreads[tid]? = some d := by
  rw [wake_sleepingThreads, Maps.getElem?_filter] at hd
  exact (Option.filter_eq_some_iff.mp hd).1

theorem InRange.leave (hw : Exact w N) (h : InRange N s) (hf : Fits N s e) (hl : Leave w s e s₁) :
    InRange N s₁ where
  pos := (leave_total hl).symm ▸ h.pos
  total := (leave_total hl).symm ▸ h.total
  quantums := leave_quantums h hl
  deadlines := by
    intro tid d hd
    cases hl with
    | tick => exact h.deadlines tid d (of_wake hd)
    | block => exact h.deadlines tid d (of_wake hd)
    | @sleep n hn h0 => exact h.deadlines_sleep hw hn (hf.2 n rfl) tid d (of_wake hd)
    | terminate => exact h.deadlines tid d (of_wake hd)

theorem InRange.dispatch (hw : Exact w N) (h : InRange N s) (hN : s.totalQuantums < N) (tid : Nat)
    (rest : List Nat) : InRange N (dispatch w s tid rest) := by
  have hpos := h.pos
  have htotal : (Effects.dispatch w s tid rest).totalQuantums = s.totalQuantums + 1 := by
    rw [dispatch_totalQuantums, int_eq hw (by omega) (by omega)]
  refine ⟨by omega, by omega, ?_, h.deadlines⟩
  intro j t' ht'
  rw [htotal]
  simp only [Effects.dispatch, Maps.getElem?_modify] at ht'
  split at ht'
  · obtain ⟨t, ht, rfl⟩ := Option.map_eq_some_iff.mp ht'
    have hle := h.quantums j t ht
    simp only
    rw [sizeT_eq hw (by omega) (by omega)]
    omega
  · have hle := h.quantums j t' ht'
    omega

theorem operate_inRange (hw : Exact w N) (hi : Inv s) (h : InRange N s)
    (hx : operate w s e = some x) (hf : x.switched = true → Fits N s e) : InRange N x.after := by
  rcases operate_cases w hi hx with ⟨v, s', hm, rfl⟩ | ⟨i, s', hm, rfl⟩
  · cases hm with
    | fail | read | blockBlocked | resumeOther => exact h
    | spawn hfree hlt hmin => exact h.spawn _
    | @terminate tid hl h0 hr =>
        have hkept : ∀ j d : Nat, (s.sleepingThreads.erase (index tid))[j]? = some d →
            s.sleepingThreads[j]? = some d := by
          intro j d hd
          rw [Std.ExtTreeMap.getElem?_erase] at hd
          split at hd
          · simp at hd
          · exact hd
        exact h.same rfl (sameQuantums_erase _ rfl) hkept
    | blockReady =>
        exact h.same rfl (sameQuantums_modify _ (fun t => { t with state := .blocked })
          (fun _ => ⟨rfl, rfl⟩) rfl) fun _ _ hd => hd
    | resumeBlocked =>
        exact h.same rfl (sameQuantums_modify _ (fun t => { t with state := .ready })
          (fun _ => ⟨rfl, rfl⟩) rfl) fun _ _ hd => hd
  · cases hm with
    | switch hl hq ht =>
        have hN := (leave_total hl).symm ▸ (hf rfl).1
        exact (h.leave hw (hf rfl) hl).dispatch hw hN _ _

theorem inRange_initial (q : Int32) : InRange 2147483647 (initial .unbounded q) where
  pos := by simp [initial, Width.unbounded]
  total := by simp [initial, Width.unbounded]
  quantums := by
    intro tid t ht
    simp only [initial, Std.ExtTreeMap.getElem?_insert] at ht
    split at ht
    · cases ht
      simp [initial, Width.unbounded]
    · simp at ht
  deadlines := by simp [initial]

theorem initial_lp64 (q : Int32) : initial .lp64 q = initial .unbounded q := by
  have htotal : Width.int .lp64 1 = Width.int .unbounded 1 := by
    rw [int_eq exact_lp64 (by omega) (by omega)]
    rfl
  rw [initial, initial, htotal]

theorem trace_congr (hw : Exact w N) (hw' : Exact w' N) (hi : Inv s) (h : InRange N s)
    (hf : ∀ x ∈ xs, x.switched = true → Fits N x.before x.event) (ht : Trace w s xs s') :
    Trace w' s xs s' := by
  induction ht with
  | nil s => exact .nil s
  | @cons s s' e x xs hx ht ih =>
      have hfx := hf x List.mem_cons_self
      rw [operate_before w hx, operate_event w hx] at hfx
      refine .cons (operate_congr hw hw' hi h hx hfx) ?_
      exact ih (operate_inv w hi hx) (operate_inRange hw hi h hx hfx)
        fun y hy => hf y (List.mem_cons_of_mem x hy)

/-- As long as total_quantums stays below the largest int, and so does the sum in
each uthread_sleep that suspends its caller, the program with its int and size_t
counters does what it does with counters that do not wrap. -/
theorem width_exact {q : Int32} (hq : 0 ≤ q.toInt)
    (hf : ∀ x ∈ xs, x.switched = true → Fits 2147483647 x.before x.event) :
    Trace .lp64 (initial .lp64 q) xs s ↔ Trace .unbounded (initial .unbounded q) xs s := by
  have hi := inv_initial .unbounded hq
  have h := inRange_initial q
  rw [initial_lp64]
  exact ⟨trace_congr exact_lp64 (exact_unbounded _) hi h hf,
    trace_congr (exact_unbounded _) exact_lp64 hi h hf⟩

theorem width_exact_sleep : ∃ xs s, s.totalQuantums = 5 ∧ s.readyThreads = [1, 0] ∧
    xs.map (fun x => x.event) = [.call (.spawn (some 7)), .call (.spawn (some 8)), .tick,
      .call (.sleep 2), .tick, .tick] ∧ Trace .lp64 (initial .lp64 1000) xs s := by
  have hplays : Plays .unbounded (initial .unbounded 1000)
      [.call (.spawn (some 7)), .call (.spawn (some 8)), .tick, .call (.sleep 2), .tick, .tick]
      (fun xs s => (s.totalQuantums = 5 ∧ s.readyThreads = [1, 0] ∧
        xs.map (fun x => x.event) = [.call (.spawn (some 7)), .call (.spawn (some 8)), .tick,
          .call (.sleep 2), .tick, .tick]) ∧ ∀ x ∈ xs, x.before.totalQuantums < 100 ∧
            x.numQuantums < 100) := by decide +kernel
  obtain ⟨xs, s, ht, ⟨htotal, hq, hevents⟩, hsmall⟩ := hplays.exists_trace
  refine ⟨xs, s, htotal, hq, hevents, (width_exact (by decide) fun x hx _ => ?_).mpr ht⟩
  obtain ⟨hbefore, hn⟩ := hsmall x hx
  refine ⟨by omega, fun n he => ?_⟩
  rw [Entry.numQuantums, he] at hn
  exact lt_trans (Int.add_lt_add hbefore hn) (by decide)

end Uthreads.Widths
