import Uthreads.Outcomes
import Uthreads.Laws

namespace Uthreads.Batches

open Program SignalMachine AtomicMachine Tables Source Api Effects Tallies Configs Moves Runs
open Failures Outcomes

inductive Act
  | block
  | resume
  | terminate
  deriving DecidableEq

def Act.call : Act → Int32 → Call
  | .block, tid => .block tid
  | .resume, tid => .resume tid
  | .terminate, tid => .terminate tid

def Act.thread : Act → Thread → Option Thread
  | .block, t => some { t with state := .blocked }
  | .resume, t => some (if t.state = .blocked then { t with state := .ready } else t)
  | .terminate, _ => none

variable {w : Width} {s s' s₁ s₂ : Scheduler} {b : Act × Int32} {bs bs' : List (Act × Int32)} {j : Nat}

/-- The act of a batch on thread j. -/
def actOn (bs : List (Act × Int32)) (j : Nat) : Option Act :=
  (bs.find? (fun b => index b.2 = j)).map Prod.fst

/-- The batch resumes the thread, and the resumption puts it in the queue. -/
def queues (s : Scheduler) (b : Act × Int32) : Bool :=
  b.1 = .resume ∧ stateOf s (index b.2) = some .blocked ∧ index b.2 ∉ s.sleepingThreads

def queued (s : Scheduler) (bs : List (Act × Int32)) : List Nat :=
  (bs.filter (queues s)).map (fun b => index b.2)

def threadAfter (o : Option Act) (t : Option Thread) : Option Thread :=
  match o with
  | none => t
  | some act => t.bind act.thread

def fixed (s : Scheduler) : Int × Int × Nat :=
  (s.totalQuantums, s.quantumUsecs, s.runningThreadTid)

/-- What a batch does to the tables. -/
structure Done (bs : List (Act × Int32)) (s s' : Scheduler) : Prop where
  setup : setup s' = setup s
  fixed : fixed s' = fixed s
  threads : ∀ j : Nat, s'.threads[j]? = threadAfter (actOn bs j) s.threads[j]?
  ready : s'.readyThreads =
    s.readyThreads.filter (fun j => stateOf s' j = some .ready) ++ queued s bs
  sleeping : ∀ j : Nat, s'.sleepingThreads[j]? =
    if actOn bs j = some .terminate then none else s.sleepingThreads[j]?

theorem actOn_cons (b : Act × Int32) (bs : List (Act × Int32)) (j : Nat) :
    actOn (b :: bs) j = if index b.2 = j then some b.1 else actOn bs j := by
  rw [actOn, List.find?_cons]
  by_cases hj : index b.2 = j
  · simp [hj]
  · simp [hj, actOn]

theorem actOn_nil (j : Nat) : actOn [] j = none := rfl

theorem actOn_eq_none (h : ∀ b ∈ bs, index b.2 ≠ j) : actOn bs j = none := by
  rw [actOn, Option.map_eq_none_iff, List.find?_eq_none]
  intro b hb
  simpa using h b hb

theorem actOn_eq_some {a : Act} (hnd : (bs.map (fun b => index b.2)).Nodup) :
    actOn bs j = some a ↔ ∃ b ∈ bs, index b.2 = j ∧ b.1 = a := by
  induction bs with
  | nil => simp [actOn_nil]
  | cons b bs ih =>
      obtain ⟨hnew, hnd⟩ := List.nodup_cons.mp hnd
      rw [actOn_cons]
      by_cases hj : index b.2 = j
      · rw [if_pos hj, Option.some.injEq]
        constructor
        · intro ha
          exact ⟨b, List.mem_cons_self, hj, ha⟩
        · rintro ⟨b', hb', hj', ha⟩
          rcases List.mem_cons.mp hb' with rfl | hb'
          · exact ha
          · exact absurd (List.mem_map.mpr ⟨b', hb', hj'.trans hj.symm⟩) hnew
      · rw [if_neg hj, ih hnd]
        constructor
        · rintro ⟨b', hb', h⟩
          exact ⟨b', List.mem_cons_of_mem _ hb', h⟩
        · rintro ⟨b', hb', hj', ha⟩
          rcases List.mem_cons.mp hb' with rfl | hb'
          · exact absurd hj' hj
          · exact ⟨b', hb', hj', ha⟩

theorem actOn_perm (hnd : (bs.map (fun b => index b.2)).Nodup) (hp : bs.Perm bs') (j : Nat) :
    actOn bs j = actOn bs' j := by
  apply Option.ext
  intro a
  rw [actOn_eq_some hnd, actOn_eq_some ((hp.map _).nodup_iff.mp hnd)]
  simp only [hp.mem_iff]

theorem filter_ready (hi : Inv s) {p : Nat → Bool}
    (h : ∀ j, stateOf s j = some .ready → p j = decide (stateOf s' j = some .ready)) :
    s.readyThreads.filter p = s.readyThreads.filter (fun j => stateOf s' j = some .ready) := by
  apply List.filter_congr
  intro j hj
  exact h j ((hi.tables.tally j).ready.mp hj).1

theorem filter_ready_self (hi : Inv s) :
    s.readyThreads = s.readyThreads.filter (fun j => stateOf s j = some .ready) := by
  rw [← filter_ready (p := fun _ => true) hi, List.filter_true]
  intro j hj
  simp [hj]

theorem queued_single (h : queues s b = false) : queued s [b] = [] := by
  simp [queued, h]

theorem done_self (hi : Inv s) (hq : queues s b = false) (hterm : b.1 ≠ .terminate)
    (hsame : ∀ t, s.threads[index b.2]? = some t → b.1.thread t = some t) : Done [b] s s where
  setup := rfl
  fixed := rfl
  threads := by
    intro j
    rw [actOn_cons]
    split
    · rename_i hj
      subst hj
      rw [threadAfter]
      cases ht : s.threads[index b.2]? with
      | none => rfl
      | some t => exact (hsame t ht).symm
    · rfl
  ready := by
    rw [queued_single hq, List.append_nil]
    exact filter_ready_self hi
  sleeping := by
    intro j
    rw [actOn_cons]
    split
    · simp [hterm]
    · rfl

theorem done_block (hi : Inv s) {tid : Int32} :
    Done [(.block, tid)] s (unqueue (block s (index tid)) (index tid)) where
  setup := rfl
  fixed := rfl
  threads := by
    intro j
    rw [actOn_cons]
    refine (threads_mark s (index tid) j .blocked).trans ?_
    split
    · cases s.threads[j]? <;> rfl
    · rfl
  ready := by
    rw [queued_single (by simp [queues]), List.append_nil]
    apply filter_ready hi
    intro j hj
    by_cases ht : index tid = j
    · simp [ht, hj]
    · simp [ht, hj, Ne.symm ht]
  sleeping := by
    intro j
    rw [actOn_cons]
    split <;> simp [actOn_nil]

theorem done_resume (hi : Inv s) {tid : Int32} (hst : stateOf s (index tid) = some .blocked) :
    Done [(.resume, tid)] s (unblock s (index tid)) where
  setup := rfl
  fixed := rfl
  threads := by
    intro j
    rw [actOn_cons]
    refine (threads_mark s (index tid) j .ready).trans ?_
    split
    · rename_i hj
      subst hj
      obtain ⟨t, ht, hts⟩ := exists_thread hst
      simp [ht, threadAfter, Act.thread, hts]
    · rfl
  ready := by
    have hkept : s.readyThreads =
        s.readyThreads.filter (fun j => stateOf (unblock s (index tid)) j = some .ready) := by
      rw [← filter_ready (p := fun _ => true) hi, List.filter_true]
      intro j hj
      by_cases ht : index tid = j
      · simp [ht, hj]
      · simp [ht, hj]
    rw [← hkept, unblock_readyThreads, enqueue_readyThreads, queued]
    by_cases hs : index tid ∈ s.sleepingThreads
    · simp [queues, hs]
    · simp [queues, hs, hst]
  sleeping := by
    intro j
    rw [actOn_cons]
    split <;> simp [actOn_nil]

theorem done_terminate (hi : Inv s) {tid : Int32} :
    Done [(.terminate, tid)] s (terminate s (index tid)) where
  setup := rfl
  fixed := rfl
  threads := by
    intro j
    rw [actOn_cons]
    simp only [terminate, Std.ExtTreeMap.getElem?_erase, compare_eq_iff_eq]
    split
    · cases s.threads[j]? <;> rfl
    · rfl
  ready := by
    rw [queued_single (by simp [queues]), List.append_nil]
    apply filter_ready hi
    intro j hj
    by_cases ht : index tid = j
    · simp [ht]
    · simp [ht, hj, Ne.symm ht]
  sleeping := by
    intro j
    rw [actOn_cons]
    simp only [terminate_sleepingThreads, Std.ExtTreeMap.getElem?_erase, compare_eq_iff_eq]
    split <;> simp [actOn_nil]

def Other (s : Scheduler) (tid : Int32) : Prop :=
  stateOf s (index tid) ≠ none ∧ tid ≠ 0 ∧ index tid ≠ s.runningThreadTid

theorem state_other (hi : Inv s) {tid : Int32} (h : Other s tid) :
    stateOf s (index tid) = some .ready ∨ stateOf s (index tid) = some .blocked := by
  obtain ⟨st, hst⟩ := Option.ne_none_iff_exists'.mp h.1
  cases st with
  | running => exact absurd (Option.some.inj ((hi.tables.tally _).running.mp hst)).symm h.2.2
  | ready => exact .inl hst
  | blocked => exact .inr hst

theorem operate_act (hi : Inv s) (h : Other s b.2) : ∃ s', Done [b] s s' ∧
    operate w s (.call (b.1.call b.2)) =
      some ⟨s, .call (b.1.call b.2), s', false, some 0⟩ := by
  obtain ⟨act, tid⟩ := b
  cases act with
  | block =>
      rcases state_other hi h with hst | hst
      · exact ⟨_, done_block hi, operate_of_move_ret hi (.blockReady hst h.2.1)⟩
      · refine ⟨s, done_self hi (by simp [queues]) (by simp) ?_,
          operate_of_move_ret hi (.blockBlocked hst h.2.1)⟩
        intro t ht
        rw [stateOf, ht, Option.map_some, Option.some.injEq] at hst
        simp [Act.thread, ← hst]
  | resume =>
      rcases state_other hi h with hst | hst
      · have hother : stateOf s (index tid) ≠ some .blocked := by simp [hst]
        refine ⟨s, done_self hi (by simp [queues, hst]) (by simp) ?_,
          operate_of_move_ret hi (.resumeOther h.1 hother)⟩
        intro t ht
        rw [stateOf, ht, Option.map_some, Option.some.injEq] at hst
        simp [Act.thread, hst]
      · exact ⟨_, done_resume hi hst, operate_of_move_ret hi (.resumeBlocked hst)⟩
  | terminate =>
      exact ⟨_, done_terminate hi, operate_of_move_ret hi (.terminate h.1 h.2.1 h.2.2)⟩

theorem Done.stateOf_of_none (h : Done bs s s') (hj : actOn bs j = none) :
    stateOf s' j = stateOf s j := by
  rw [stateOf, stateOf, h.threads, hj]
  rfl

theorem Done.running (h : Done bs s s') : s'.runningThreadTid = s.runningThreadTid :=
  congrArg (fun f : Int × Int × Nat => f.2.2) h.fixed

theorem done_nil (hi : Inv s) : Done [] s s where
  setup := rfl
  fixed := rfl
  threads := fun _ => rfl
  ready := by
    rw [queued, List.filter_nil, List.map_nil, List.append_nil]
    exact filter_ready_self hi
  sleeping := fun _ => rfl

theorem Done.cons (hi : Inv s) (hi₁ : Inv s₁) (h : Done [b] s s₁) (h' : Done bs s₁ s')
    (hnew : ∀ b' ∈ bs, index b'.2 ≠ index b.2) : Done (b :: bs) s s' where
  setup := h'.setup.trans h.setup
  fixed := h'.fixed.trans h.fixed
  threads := by
    intro j
    rw [h'.threads, h.threads, actOn_cons, actOn_cons]
    split
    · rename_i hj
      rw [actOn_eq_none (hj ▸ hnew)]
      rfl
    · rfl
  ready := by
    have hhead : ∀ j, j = index b.2 → stateOf s' j = stateOf s₁ j := by
      rintro j rfl
      exact h'.stateOf_of_none (actOn_eq_none hnew)
    have htail : ∀ j, j ≠ index b.2 → stateOf s₁ j = stateOf s j := by
      intro j hj
      apply h.stateOf_of_none
      rw [actOn_cons, if_neg (Ne.symm hj), actOn_nil]
    have hold : (s.readyThreads.filter (fun j => stateOf s₁ j = some .ready)).filter
        (fun j => stateOf s' j = some .ready) =
          s.readyThreads.filter (fun j => stateOf s' j = some .ready) := by
      rw [List.filter_filter]
      apply filter_ready hi
      intro j hj
      by_cases hb : j = index b.2
      · simp [hhead j hb]
      · simp [htail j hb, hj]
    have hfirst : (queued s [b]).filter (fun j => stateOf s' j = some .ready) = queued s [b] := by
      rw [List.filter_eq_self]
      intro j hj
      obtain ⟨b', hb', rfl⟩ := List.mem_map.mp hj
      obtain ⟨hb', hq⟩ := List.mem_filter.mp hb'
      obtain rfl := List.mem_singleton.mp hb'
      have hmem : index b'.2 ∈ s₁.readyThreads := by
        rw [h.ready]
        exact List.mem_append_right _ hj
      rw [hhead _ rfl, decide_eq_true_eq]
      exact ((hi₁.tables.tally _).ready.mp hmem).1
    have hrest : queued s₁ bs = queued s bs := by
      rw [queued, queued, List.filter_congr]
      intro b' hb'
      have hne := hnew b' hb'
      have hsleep : s₁.sleepingThreads[index b'.2]? = s.sleepingThreads[index b'.2]? := by
        rw [h.sleeping, actOn_cons, if_neg (Ne.symm hne), actOn_nil, if_neg (by simp)]
      simp only [queues, htail _ hne, Std.ExtTreeMap.mem_iff_isSome_getElem?, hsleep]
    rw [h'.ready, h.ready, List.filter_append, hold, hfirst, hrest, queued, queued, queued,
      List.append_assoc, ← List.map_append, ← List.filter_append]
    rfl
  sleeping := by
    intro j
    rw [h'.sleeping, h.sleeping, actOn_cons, actOn_cons]
    by_cases hj : index b.2 = j
    · rw [actOn_eq_none (hj ▸ hnew), if_neg (by simp), if_pos hj, if_pos hj]
    · rw [if_neg hj, if_neg hj, actOn_nil, if_neg (c := none = some Act.terminate) (by simp)]

theorem Done.unique (hi₁ : Inv s₁) (hi₂ : Inv s₂) (h₁ : Done bs s s₁) (h₂ : Done bs' s s₂)
    (hact : ∀ j, actOn bs j = actOn bs' j) (hq : queued s bs = queued s bs') : s₁ = s₂ := by
  have hthreads : s₁.threads = s₂.threads := by
    apply Std.ExtTreeMap.ext_getElem?
    intro j
    rw [h₁.threads, h₂.threads, hact]
  have hstate : ∀ j, stateOf s₁ j = stateOf s₂ j := by
    intro j
    rw [stateOf, stateOf, hthreads]
  have hsetup := h₁.setup.trans h₂.setup.symm
  have hfixed := h₁.fixed.trans h₂.fixed.symm
  simp only [Configs.setup, Prod.mk.injEq] at hsetup
  simp only [Batches.fixed, Prod.mk.injEq] at hfixed
  obtain ⟨hset, haction, htimer, hitimer, hnext, hobjects⟩ := hsetup
  obtain ⟨htotal, husecs, hrunning⟩ := hfixed
  refine Scheduler.ext htimer hset htotal husecs hrunning hthreads ?_ ?_ ?_ haction hitimer hobjects
    hnext
  · simp only [h₁.ready, h₂.ready, hq, hstate]
  · apply Std.ExtTreeSet.ext_mem
    intro j
    rw [(hi₁.tables.tally j).blocked, (hi₂.tables.tally j).blocked, hstate]
  · apply Std.ExtTreeMap.ext_getElem?
    intro j
    rw [h₁.sleeping, h₂.sleeping, hact]

theorem Other.of_done {tid : Int32} (h : Other s tid) (hd : Done [b] s s')
    (hne : index tid ≠ index b.2) : Other s' tid := by
  refine ⟨?_, h.2.1, hd.running ▸ h.2.2⟩
  rw [hd.stateOf_of_none]
  · exact h.1
  · rw [actOn_cons, if_neg hne.symm, actOn_nil]

def Executed (w : Width) (bs : List (Act × Int32)) (s s' : Scheduler) : Prop :=
  ∃ xs, Trace w s xs s' ∧ xs.map (fun x => x.event) = bs.map (fun b => .call (b.1.call b.2)) ∧
    ∀ x ∈ xs, x.value = some 0

theorem executed_batch (hi : Inv s) (hnd : (bs.map (fun b => index b.2)).Nodup)
    (hother : ∀ b ∈ bs, Other s b.2) : ∃ s', Executed w bs s s' ∧ Done bs s s' ∧ Inv s' := by
  induction bs generalizing s with
  | nil => exact ⟨s, ⟨[], .nil s, rfl, by simp⟩, done_nil hi, hi⟩
  | cons b bs ih =>
      obtain ⟨hnew, hnd⟩ := List.nodup_cons.mp hnd
      have hnew : ∀ b' ∈ bs, index b'.2 ≠ index b.2 := fun b' hb' heq =>
        hnew (List.mem_map.mpr ⟨b', hb', heq⟩)
      obtain ⟨s₁, hd, hx⟩ := operate_act (w := w) hi (hother b List.mem_cons_self)
      have hi₁ := operate_inv w hi hx
      obtain ⟨s', ⟨xs, ht, hevents, hvalues⟩, hdone, hi'⟩ := ih hi₁ hnd fun b' hb' =>
        (hother b' (List.mem_cons_of_mem b hb')).of_done hd (hnew b' hb')
      refine ⟨s', ⟨_, .cons hx ht, ?_, ?_⟩, hd.cons hi hi₁ hdone hnew, hi'⟩
      · rw [List.map_cons, List.map_cons, hevents]
      · intro x hx
        rcases List.mem_cons.mp hx with rfl | hx
        · rfl
        · exact hvalues x hx

theorem other_of_live (hi : Inv s) {tid : Int32} (hl : Live s tid) (h0 : tid ≠ 0)
    (hr : tid.toInt ≠ s.runningThreadTid) : Other s tid := by
  have hlive := (live_iff hi tid).mp hl
  refine ⟨hlive, h0, fun he => hr ?_⟩
  rw [Histories.toInt_of_live hi.tables hlive, he]

theorem nodup_index (hi : Inv s) (hnd : (bs.map Prod.snd).Nodup)
    (hother : ∀ b ∈ bs, Other s b.2) : (bs.map (fun b => index b.2)).Nodup := by
  have h : ((bs.map Prod.snd).map index).Nodup := by
    apply List.Nodup.map_on _ hnd
    intro tid ht tid' ht' heq
    obtain ⟨b, hb, rfl⟩ := List.mem_map.mp ht
    obtain ⟨b', hb', rfl⟩ := List.mem_map.mp ht'
    apply Int32.toInt.inj
    rw [Histories.toInt_of_live hi.tables (hother b hb).1,
      Histories.toInt_of_live hi.tables (hother b' hb').1, heq]
  rwa [List.map_map] at h

/-- Calls that block, resume or terminate other threads, each a different one, may
be made in any order: they all return 0, and the order matters only among the
resumptions of threads that are not asleep, which enter the queue in that order
behind those that stay in it. -/
theorem batch_order (hr : Reachable w s) (hnd : (bs.map Prod.snd).Nodup)
    (hlive : ∀ b ∈ bs, Live s b.2 ∧ b.2 ≠ 0 ∧ b.2.toInt ≠ s.runningThreadTid) (hp : bs.Perm bs')
    (hq : queued s bs = queued s bs') : ∃ s', Executed w bs s s' ∧ Executed w bs' s s' ∧
      s'.readyThreads =
        s.readyThreads.filter (fun j => stateOf s' j = some .ready) ++ queued s bs := by
  have hi := hr.inv w
  have hother : ∀ b ∈ bs, Other s b.2 := by
    intro b hb
    obtain ⟨hl, h0, hne⟩ := hlive b hb
    exact other_of_live hi hl h0 hne
  have hindex := nodup_index hi hnd hother
  obtain ⟨s₁, hx₁, hd₁, hi₁⟩ := executed_batch (w := w) hi hindex hother
  obtain ⟨s₂, hx₂, hd₂, hi₂⟩ := executed_batch (w := w) hi ((hp.map _).nodup_iff.mp hindex)
    fun b hb => hother b (hp.mem_iff.mpr hb)
  obtain rfl := hd₁.unique hi₁ hi₂ hd₂ (actOn_perm hindex hp) hq
  exact ⟨s₁, hx₁, hx₂, hd₁.ready⟩

/-- Threads 3 and 4 are blocked, and are resumed in this order in both batches. -/
theorem batch_order_resumed : ∃ s s', Reachable .lp64 s ∧ s.readyThreads = [1, 2, 5] ∧
    Executed .lp64 [(.block, 1), (.resume, 3), (.terminate, 2), (.resume, 4)] s s' ∧
    Executed .lp64 [(.resume, 3), (.terminate, 2), (.resume, 4), (.block, 1)] s s' ∧
    ∃ l, s'.readyThreads = l ++ [3, 4] := by
  have hplays : Plays .lp64 (initial .lp64 1000)
      [.call (.spawn (some 7)), .call (.spawn (some 8)), .call (.spawn (some 9)),
        .call (.spawn (some 10)), .call (.spawn (some 11)), .call (.block 3), .call (.block 4)]
      (fun _ s => s.runningThreadTid = 0 ∧ s.readyThreads = [1, 2, 5] ∧
        (∀ j ∈ ([1, 2, 3, 4] : List Nat), j ∈ s.threads) ∧
        queued s [(.block, 1), (.resume, 3), (.terminate, 2), (.resume, 4)] = [3, 4] ∧
        queued s [(.resume, 3), (.terminate, 2), (.resume, 4), (.block, 1)] = [3, 4]) := by
    decide +kernel
  obtain ⟨xs, s, hr, hrun, hready, hlive, hq, hq'⟩ := hplays.exists_run (by decide)
  have hr : Reachable .lp64 s := ⟨_, hr⟩
  have hother : ∀ b ∈ [(Act.block, (1 : Int32)), (.resume, 3), (.terminate, 2), (.resume, 4)],
      Live s b.2 ∧ b.2 ≠ 0 ∧ b.2.toInt ≠ s.runningThreadTid := by
    rw [hrun]
    simp only [List.forall_mem_cons] at hlive ⊢
    obtain ⟨h1, h2, h3, h4, -⟩ := hlive
    refine ⟨⟨⟨1, h1, rfl⟩, by decide, by decide⟩, ⟨⟨3, h3, rfl⟩, by decide, by decide⟩,
      ⟨⟨2, h2, rfl⟩, by decide, by decide⟩, ⟨⟨4, h4, rfl⟩, by decide, by decide⟩, by simp⟩
  obtain ⟨s', hx, hx', hready'⟩ := batch_order hr (by decide) hother (by decide) (hq.trans hq'.symm)
  rw [hq] at hready'
  exact ⟨s, s', hr, hready, hx, hx', _, hready'⟩

end Uthreads.Batches
