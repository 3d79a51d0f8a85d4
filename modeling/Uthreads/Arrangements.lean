import Uthreads.Preparations

namespace Uthreads.Arrangements

open Program SignalMachine AtomicMachine Tables Source Api Effects Tallies Configs Moves Runs
open Histories Outcomes Batches Preparations

variable {s s' : Scheduler} {act : Act} {q l : List Nat} {b z D Z : Finset Nat} {k : Nat}

/-- Who runs, who waits for the processor and in which order, who is blocked and
who is asleep. -/
structure Arrangement where
  running : Nat
  queue : List Nat
  blocked : Finset Nat
  asleep : Finset Nat
  nodup : (running :: queue).Nodup
  main : 0 ∈ running :: queue
  apart : ∀ tid ∈ running :: queue, tid ∉ blocked ∧ tid ∉ asleep
  bound : ∀ tid, tid ∈ running :: queue ∨ tid ∈ blocked ∨ tid ∈ asleep → tid < maxThreadNum

def Arrangement.state (a : Arrangement) (tid : Nat) : Option State :=
  if tid = a.running then some .running
  else if tid ∈ a.blocked then some .blocked
  else if tid ∈ a.queue ∨ tid ∈ a.asleep then some .ready
  else none

structure Arranged (a : Arrangement) (s : Scheduler) : Prop where
  running : s.runningThreadTid = a.running
  queue : s.readyThreads = a.queue
  blocked : ∀ tid, tid ∈ s.blockedThreads ↔ tid ∈ a.blocked
  asleep : ∀ tid, tid ∈ s.sleepingThreads ↔ tid ∈ a.asleep
  state : ∀ tid, stateOf s tid = a.state tid

/-- The part of the tables that determines the rest. -/
structure Placed (q : List Nat) (b z : Finset Nat) (s : Scheduler) : Prop where
  order : ring s = q
  blocked : ∀ tid, stateOf s tid = some .blocked ↔ tid ∈ b
  asleep : ∀ tid, tid ∈ s.sleepingThreads ↔ tid ∈ z

theorem mem_ring (hi : Inv s) (tid : Nat) : tid ∈ ring s ↔
    stateOf s tid = some .running ∨ (stateOf s tid = some .ready ∧ tid ∉ s.sleepingThreads) := by
  have htally := hi.tables.tally tid
  rw [ring, List.mem_cons, htally.ready, htally.running, Option.some.injEq, eq_comm]

theorem live_cases (hi : Inv s) (tid : Nat) : stateOf s tid ≠ none ↔
    tid ∈ ring s ∨ stateOf s tid = some .blocked ∨ tid ∈ s.sleepingThreads := by
  have hsleep := (hi.tables.tally tid).sleeping
  rw [mem_ring hi]
  cases hst : stateOf s tid with
  | none => simpa [hst] using hsleep
  | some st => cases st <;> simp [em']

theorem Placed.live (hi : Inv s) (h : Placed q b z s) (tid : Nat) :
    stateOf s tid ≠ none ↔ tid ∈ q ∨ tid ∈ b ∨ tid ∈ z := by
  rw [live_cases hi, h.order, h.blocked, h.asleep]

theorem exists_placed (hi : Inv s) : ∃ b z, Placed (ring s) b z s := by
  refine ⟨(Finset.range maxThreadNum).filter (fun tid => stateOf s tid = some .blocked),
    (Finset.range maxThreadNum).filter (fun tid => tid ∈ s.sleepingThreads), rfl, fun tid => ?_,
    fun tid => ?_⟩
  · rw [Finset.mem_filter, Finset.mem_range]
    constructor
    · intro hst
      exact ⟨(hi.tables.tally tid).bound (by simp [hst]), hst⟩
    · exact And.right
  · rw [Finset.mem_filter, Finset.mem_range]
    constructor
    · intro hs
      exact ⟨(hi.tables.tally tid).bound ((hi.tables.tally tid).sleeping hs).1, hs⟩
    · exact And.right

theorem Placed.stateOf_eq {r : Nat} (hi : Inv s) (h : Placed (r :: q) b z s) (tid : Nat) :
    stateOf s tid = if tid = r then some .running else if tid ∈ b then some .blocked
      else if tid ∈ q ∨ tid ∈ z then some .ready else none := by
  have hlive := h.live hi tid
  have hrun : stateOf s tid = some .running ↔ tid = r := by
    rw [(hi.tables.tally tid).running, (List.cons.inj h.order).1, Option.some.injEq, eq_comm]
  rw [List.mem_cons] at hlive
  by_cases hr : tid = r
  · rw [if_pos hr, hrun.mpr hr]
  by_cases hb : tid ∈ b
  · rw [if_neg hr, if_pos hb, (h.blocked tid).mpr hb]
  rw [if_neg hr, if_neg hb]
  by_cases hq : tid ∈ q ∨ tid ∈ z
  · rw [if_pos hq]
    obtain ⟨st, hst⟩ := Option.ne_none_iff_exists'.mp (hlive.mpr (by tauto))
    cases st with
    | running => exact absurd (hrun.mp hst) hr
    | blocked => exact absurd ((h.blocked tid).mp hst) hb
    | ready => exact hst
  · rw [if_neg hq]
    by_contra hst
    rcases hlive.mp hst with (hin | hin) | hin | hin
    · exact hr hin
    · exact hq (.inl hin)
    · exact hb hin
    · exact hq (.inr hin)

theorem arranged_of_placed (hi : Inv s) (a : Arrangement)
    (h : Placed (a.running :: a.queue) a.blocked a.asleep s) : Arranged a s := by
  obtain ⟨hrunning, hqueue⟩ := List.cons.inj h.order
  refine ⟨hrunning, hqueue, fun tid => ?_, h.asleep, h.stateOf_eq hi⟩
  rw [(hi.tables.tally tid).blocked, h.blocked]

theorem exists_arrangement (hi : Inv s) : ∃ a, Arranged a s := by
  obtain ⟨b, z, h⟩ := exists_placed hi
  have hlive := h.live hi
  refine ⟨⟨s.runningThreadTid, s.readyThreads, b, z, ?_, ?_, ?_, ?_⟩, arranged_of_placed hi _ h⟩
  · exact List.nodup_cons.mpr ⟨hi.tables.not_ready, hi.tables.nodup⟩
  · have hmain := hi.tables.main
    exact ((live_cases hi 0).mp hmain.1).resolve_right (not_or.mpr hmain.2)
  · intro tid ht
    rw [← h.blocked, ← h.asleep]
    rcases (mem_ring hi tid).mp ht with hst | ⟨hst, hs⟩
    · refine ⟨by simp [hst], fun hs => ?_⟩
      exact ((hi.tables.tally tid).sleeping hs).2 ((hi.tables.tally tid).running.mp hst)
    · exact ⟨by simp [hst], hs⟩
  · intro tid ht
    exact (hi.tables.tally tid).bound ((hlive tid).mpr ht)

theorem Placed.main (h : Placed (0 :: q) b z s) : s.runningThreadTid = 0 :=
  (List.cons.inj h.order).1

theorem Placed.ready (hr : Reachable .unbounded s) (h : Placed (0 :: q) b z s) {tid : Nat}
    (ht : tid ∈ q) : stateOf s tid = some .ready := by
  rw [← (List.cons.inj h.order).2] at ht
  exact (((hr.inv .unbounded).tables.tally tid).ready.mp ht).1

theorem Placed.batch (act : Act) (hr : Reachable .unbounded s) (h : Placed (0 :: q) b z s)
    (hnd : l.Nodup) (hl : ∀ tid ∈ l, tid ≠ 0 ∧ (tid ∈ q ∨ tid ∈ b ∨ tid ∈ z)) :
    ∃ s', Leads s s' ∧ (∀ k, Calm k s → Calm k s') ∧
      ring s' = 0 :: (q.filter (fun tid => stateOf s' tid = some .ready) ++
        queued s (each act l)) ∧
      (∀ tid, stateOf s' tid =
        if tid ∈ l then (stateOf s tid).bind (afterAct act) else stateOf s tid) ∧
      ∀ tid, tid ∈ s'.sleepingThreads ↔ tid ∈ z ∧ ¬ (tid ∈ l ∧ act = .terminate) := by
  have hi := hr.inv .unbounded
  have hmain := h.main
  have hlive : ∀ tid ∈ l, stateOf s tid ≠ none ∧ tid ≠ 0 ∧ tid ≠ s.runningThreadTid := by
    intro tid ht
    obtain ⟨h0, hin⟩ := hl tid ht
    refine ⟨(h.live hi tid).mpr ?_, h0, hmain ▸ h0⟩
    rw [List.mem_cons, or_assoc]
    exact .inr hin
  have hlt : ∀ tid ∈ l, tid < maxThreadNum := fun tid ht =>
    (hi.tables.tally tid).bound (hlive tid ht).1
  obtain ⟨s', hs', hdone⟩ := leads_each act hr hnd hlive
  refine ⟨s', hs', fun k => calm_done hdone, ?_, stateOf_each hdone hlt, fun tid => ?_⟩
  · rw [ring, hdone.running, hmain, hdone.ready, (List.cons.inj h.order).2]
  · rw [sleeping_each hdone hlt, h.asleep]

theorem queued_each (hact : act ≠ .resume) : queued s (each act l) = [] := by
  rw [queued, List.map_eq_nil_iff, List.filter_eq_nil_iff]
  intro b hb
  obtain ⟨tid, -, rfl⟩ := List.mem_map.mp hb
  simp [queues, hact]

theorem Placed.remove (act : Act) (hact : act ≠ .resume) (hr : Reachable .unbounded s)
    (h : Placed (0 :: q) b z s) (hD : ∀ tid ∈ D, tid ≠ 0 ∧ (tid ∈ q ∨ tid ∈ b ∨ tid ∈ z)) :
    ∃ s', Leads s s' ∧ (∀ k, Calm k s → Calm k s') ∧
      ring s' = 0 :: q.filter (fun tid => tid ∉ D) ∧
      (∀ tid, stateOf s' tid =
        if tid ∈ D then (stateOf s tid).bind (afterAct act) else stateOf s tid) ∧
      ∀ tid, tid ∈ s'.sleepingThreads ↔ tid ∈ z ∧ ¬ (tid ∈ D ∧ act = .terminate) := by
  obtain ⟨s', hs', hc, hring, hstate, hasleep⟩ :=
    h.batch act hr D.nodup_toList (by simpa using hD)
  simp only [Finset.mem_toList] at hstate hasleep
  refine ⟨s', hs', hc, ?_, hstate, hasleep⟩
  rw [hring, queued_each hact, List.append_nil]
  congr 1
  apply List.filter_congr
  intro tid ht
  rw [hstate, h.ready hr ht]
  by_cases hin : tid ∈ D
  · cases act with
    | block | terminate => simp [hin, afterAct]
    | resume => exact absurd rfl hact
  · simp [hin]

theorem Placed.terminate (hr : Reachable .unbounded s) (h : Placed (0 :: q) b z s)
    (hD : ∀ tid ∈ D, tid ≠ 0 ∧ (tid ∈ q ∨ tid ∈ b ∨ tid ∈ z)) : ∃ s', Leads s s' ∧
      (∀ k, Calm k s → Calm k s') ∧
      Placed (0 :: q.filter (fun tid => tid ∉ D)) (b \ D) (z \ D) s' := by
  obtain ⟨s', hs', hc, hring, hstate, hasleep⟩ := h.remove .terminate (by simp) hr hD
  refine ⟨s', hs', hc, hring, fun tid => ?_, fun tid => ?_⟩
  · rw [hstate, Finset.mem_sdiff, ← h.blocked]
    by_cases hin : tid ∈ D <;> cases hst : stateOf s tid <;> simp [hin, afterAct]
  · rw [hasleep, Finset.mem_sdiff]
    simp

theorem Placed.block (hr : Reachable .unbounded s) (h : Placed (0 :: q) b z s)
    (hD : ∀ tid ∈ D, tid ≠ 0 ∧ (tid ∈ q ∨ tid ∈ b ∨ tid ∈ z)) : ∃ s', Leads s s' ∧
      (∀ k, Calm k s → Calm k s') ∧ Placed (0 :: q.filter (fun tid => tid ∉ D)) (b ∪ D) z s' := by
  obtain ⟨s', hs', hc, hring, hstate, hasleep⟩ := h.remove .block (by simp) hr hD
  refine ⟨s', hs', hc, hring, fun tid => ?_, fun tid => ?_⟩
  · have hlive := h.live (hr.inv .unbounded) tid
    rw [hstate, Finset.mem_union, ← h.blocked]
    by_cases hin : tid ∈ D
    · obtain ⟨st, hst⟩ := Option.ne_none_iff_exists'.mp
        (hlive.mpr (by simpa [or_assoc] using .inr (hD tid hin).2))
      simp [hin, hst, afterAct]
    · simp [hin]
  · rw [hasleep]
    simp

theorem Placed.resume (hr : Reachable .unbounded s) (h : Placed (0 :: q) b z s) (hnd : l.Nodup)
    (hl : ∀ tid ∈ l, tid ≠ 0 ∧ tid ∈ b ∧ tid ∉ z) : ∃ s', Leads s s' ∧
      (∀ k, Calm k s → Calm k s') ∧ Placed (0 :: q ++ l) (b \ l.toFinset) z s' := by
  have hi := hr.inv .unbounded
  obtain ⟨s', hs', hc, hring, hstate, hasleep⟩ :=
    h.batch .resume hr hnd (fun tid ht => ⟨(hl tid ht).1, .inr (.inl (hl tid ht).2.1)⟩)
  refine ⟨s', hs', hc, ?_, fun tid => ?_, fun tid => ?_⟩
  · have hkept : q.filter (fun tid => stateOf s' tid = some .ready) = q := by
      rw [List.filter_eq_self]
      intro tid ht
      rw [hstate, h.ready hr ht]
      by_cases hin : tid ∈ l <;> simp [hin, afterAct]
    have hlt : ∀ tid ∈ l, tid < maxThreadNum := by
      intro tid ht
      apply (hi.tables.tally tid).bound
      rw [(h.blocked tid).mpr (hl tid ht).2.1]
      simp
    have hqueued : queued s (each .resume l) = l := by
      rw [queued, List.filter_eq_self.mpr, map_index_each hlt]
      intro b hb
      obtain ⟨tid, ht, rfl⟩ := List.mem_map.mp hb
      obtain ⟨-, hblocked, hz⟩ := hl tid ht
      simp [queues, index_ofNat (hlt tid ht), (h.blocked tid).mpr hblocked, h.asleep, hz]
    rw [hring, hkept, hqueued, List.cons_append]
  · rw [hstate, Finset.mem_sdiff, List.mem_toFinset, ← h.blocked]
    by_cases hin : tid ∈ l
    · simp [hin, (h.blocked tid).mpr (hl tid hin).2.1, afterAct]
    · simp [hin]
  · rw [hasleep]
    simp

theorem Placed.spawn (hr : Reachable .unbounded s) (h : Placed q b z s) (tid : Nat)
    (hfree : stateOf s tid = none) (hlt : tid < maxThreadNum)
    (hmin : ∀ j < tid, stateOf s j ≠ none) :
    ∃ s', Leads s s' ∧ Placed (q ++ [tid]) b z s' := by
  have hx := operate_spawn .unbounded (hr.inv .unbounded) 0 tid hfree hlt hmin
  refine ⟨_, leads_step hx, ?_, fun j => ?_, h.asleep⟩
  · rw [← h.order]
    rfl
  · rw [stateOf_spawn, ← h.blocked]
    split
    · rename_i hj
      simp [← hj, hfree]
    · rfl

theorem Placed.spawns (n : Nat) (hr : Reachable .unbounded s) (h : Placed [0] ∅ ∅ s)
    (hn : n < maxThreadNum) : ∃ s', Leads s s' ∧ Placed (List.range (n + 1)) ∅ ∅ s' := by
  induction n with
  | zero => exact ⟨s, .refl s, h⟩
  | succ n ih =>
      obtain ⟨s₁, h₁, hp₁⟩ := ih (Nat.lt_of_succ_lt hn)
      have hr₁ := h₁.reachable hr
      have hlive := hp₁.live (hr₁.inv .unbounded)
      simp only [List.mem_range, Finset.notMem_empty, or_false] at hlive
      obtain ⟨s', h', hp'⟩ := hp₁.spawn hr₁ (n + 1)
        (not_not.mp (mt (hlive (n + 1)).mp (Nat.lt_irrefl _))) hn fun j hj => (hlive j).mpr hj
      exact ⟨s', h₁.trans h', List.range_succ ▸ hp'⟩

theorem Placed.park (hr : Reachable .unbounded s) (h : Placed [0] b z s) {tid : Nat}
    (h0 : tid ≠ 0) (hb : tid ∈ b) (hz : tid ∉ z) (hc : Calm (k + 2) s) (hk : k < 1000000) :
    ∃ s', Leads s s' ∧ Calm k s' ∧ Placed [0] (b.erase tid) (insert tid z) s' := by
  obtain ⟨s₁, h₁, hc₁, hp₁⟩ := h.resume hr (l := [tid]) (List.nodup_singleton tid)
    (by simp [h0, hb, hz])
  have hr₁ := h₁.reachable hr
  obtain ⟨s₂, h₂, hring₂, hc₂, hblocked₂, hasleep₂⟩ := leads_tick hr₁ (hc₁ _ hc)
  rw [hp₁.order] at hring₂
  obtain ⟨hrunning, hready⟩ := List.cons.inj hring₂
  change s₂.runningThreadTid = tid at hrunning
  have hn : (k : Int) < (1000000 : Int32).toInt := by
    change (k : Int) < 1000000
    omega
  obtain ⟨s', h', hring', hc', hblocked', hasleep'⟩ :=
    leads_sleep (h₂.reachable hr₁) (hrunning ▸ h0) hc₂ hn
  refine ⟨s', h₁.trans (h₂.trans h'), hc', hring'.trans hready, fun j => ?_, fun j => ?_⟩
  · rw [hblocked', hblocked₂, hp₁.blocked]
    simp [and_comm]
  · rw [hasleep', hasleep₂, hp₁.asleep, hrunning, Finset.mem_insert, eq_comm]

theorem Placed.parks (hr : Reachable .unbounded s) (h : Placed [0] b ∅ s) (h0 : 0 ∉ b) (Z : Finset Nat)
    (hZ : Z ⊆ b) (hk : k + 2 * Z.card ≤ 1000000) :
    ∃ s', Leads s s' ∧ Calm k s' ∧ Placed [0] (b \ Z) Z s' := by
  induction Z using Finset.induction_on generalizing k with
  | empty =>
      refine ⟨s, .refl s, fun tid d hd => ?_, by simpa using h⟩
      have hs := (h.asleep tid).mp ((Maps.mem_iff _).mpr ⟨d, hd⟩)
      exact absurd hs (Finset.notMem_empty tid)
  | @insert tid Z hnew ih =>
      obtain ⟨hin, hZ⟩ := Finset.insert_subset_iff.mp hZ
      rw [Finset.card_insert_of_notMem hnew] at hk
      obtain ⟨s₁, h₁, hc₁, hp₁⟩ := ih (k := k + 2) hZ (by omega)
      obtain ⟨s', h', hc', hp'⟩ := hp₁.park (h₁.reachable hr) (ne_of_mem_of_not_mem hin h0)
        (Finset.mem_sdiff.mpr ⟨hin, hnew⟩) hnew hc₁ (by omega)
      refine ⟨s', h₁.trans h', hc', ?_⟩
      rwa [Finset.sdiff_insert]

theorem leads_alone (hr : Reachable .unbounded s) : ∃ s', Leads s s' ∧ Placed [0] ∅ ∅ s' := by
  obtain ⟨s₁, h₁, hmain⟩ := leads_main hr
  have hr₁ := h₁.reachable hr
  have hi₁ := hr₁.inv .unbounded
  obtain ⟨b, z, hp⟩ := exists_placed hi₁
  rw [ring, hmain] at hp
  obtain ⟨s', h', -, hp'⟩ := hp.terminate hr₁ (D := s₁.readyThreads.toFinset ∪ b ∪ z) (by
    intro tid ht
    rw [Finset.mem_union, Finset.mem_union, List.mem_toFinset, or_assoc] at ht
    refine ⟨?_, ht⟩
    rintro rfl
    rcases ht with hq | hb | hz
    · exact hi₁.tables.not_ready (hmain ▸ hq)
    · exact hi₁.tables.main.2.1 ((hp.blocked 0).mpr hb)
    · exact hi₁.tables.main.2.2 ((hp.asleep 0).mpr hz))
  refine ⟨s', h₁.trans h', ?_⟩
  have hq : s₁.readyThreads.filter (fun tid => tid ∉ s₁.readyThreads.toFinset ∪ b ∪ z) = [] := by
    rw [List.filter_eq_nil_iff]
    intro tid ht
    simp [ht]
  have hb : b \ (s₁.readyThreads.toFinset ∪ b ∪ z) = ∅ := by
    rw [Finset.sdiff_eq_empty_iff_subset]
    intro tid ht
    simp [ht]
  have hz : z \ (s₁.readyThreads.toFinset ∪ b ∪ z) = ∅ := by
    rw [Finset.sdiff_eq_empty_iff_subset]
    exact Finset.subset_union_right
  rwa [hq, hb, hz] at hp'

def others : Finset Nat := (Finset.range maxThreadNum).erase 0

theorem mem_others {tid : Nat} : tid ∈ others ↔ tid ≠ 0 ∧ tid < maxThreadNum := by
  rw [others, Finset.mem_erase, Finset.mem_range]

/-- All ids are in use, and main alone can run. -/
theorem leads_full (hr : Reachable .unbounded s) : ∃ s', Leads s s' ∧ Placed [0] others ∅ s' := by
  obtain ⟨s₁, h₁, hp₁⟩ := leads_alone hr
  have hr₁ := h₁.reachable hr
  obtain ⟨s₂, h₂, hp₂⟩ := hp₁.spawns 99 hr₁ (by decide)
  rw [List.range_succ_eq_map] at hp₂
  have hD : ∀ tid ∈ others, tid ∈ (List.range 99).map Nat.succ := by
    intro tid ht
    obtain ⟨h0, hlt⟩ := mem_others.mp ht
    have hlt : tid < 100 := hlt
    exact List.mem_map.mpr ⟨tid - 1, List.mem_range.mpr (by omega), by omega⟩
  obtain ⟨s', h', -, hp'⟩ := hp₂.block (h₂.reachable hr₁) (D := others) fun tid ht =>
    ⟨(mem_others.mp ht).1, .inl (hD tid ht)⟩
  refine ⟨s', h₁.trans (h₂.trans h'), ?_⟩
  have hq : ((List.range 99).map Nat.succ).filter (fun tid => tid ∉ others) = [] := by
    rw [List.filter_eq_nil_iff]
    intro tid ht
    obtain ⟨j, hj, rfl⟩ := List.mem_map.mp ht
    have hlt : j.succ < maxThreadNum := Nat.succ_lt_succ (List.mem_range.mp hj)
    simp [mem_others, hlt]
  rwa [hq, Finset.empty_union] at hp'

section Target

variable (a : Arrangement)

theorem exists_turn : ∃ pre post : List Nat, a.running :: a.queue = pre ++ 0 :: post ∧
    (post ++ pre).Nodup ∧ ∀ tid, tid ∈ post ++ pre ↔ tid ≠ 0 ∧ tid ∈ a.running :: a.queue := by
  obtain ⟨pre, post, hsplit⟩ := List.append_of_mem a.main
  have hperm : (a.running :: a.queue).Perm (0 :: (post ++ pre)) := by
    rw [hsplit]
    exact List.perm_append_comm
  obtain ⟨h0, hnd⟩ := List.nodup_cons.mp (hperm.nodup_iff.mp a.nodup)
  refine ⟨pre, post, hsplit, hnd, fun tid => ?_⟩
  rw [hperm.mem_iff, List.mem_cons]
  constructor
  · intro ht
    exact ⟨ne_of_mem_of_not_mem ht h0, .inr ht⟩
  · rintro ⟨hne, ht⟩
    exact ht.resolve_left hne

theorem asleep_subset : a.asleep ⊆ others := by
  intro tid ht
  refine mem_others.mpr ⟨?_, a.bound tid (.inr (.inr ht))⟩
  rintro rfl
  exact (a.apart 0 a.main).2 ht

theorem card_asleep_le : a.asleep.card ≤ 100 :=
  (Finset.card_le_card ((asleep_subset a).trans (Finset.erase_subset 0 _))).trans
    (Finset.card_range maxThreadNum).le

theorem length_le {l : List Nat} (hnd : l.Nodup) (hl : ∀ tid ∈ l, tid ∈ a.running :: a.queue) :
    l.length ≤ 100 := by
  have hsub : l ⊆ List.range maxThreadNum := fun tid ht =>
    List.mem_range.mpr (a.bound tid (.inl (hl tid ht)))
  simpa [maxThreadNum] using (hnd.subperm hsub).length_le

def absent : Finset Nat :=
  others.filter (fun tid => tid ∉ a.running :: a.queue ∧ tid ∉ a.blocked ∧ tid ∉ a.asleep)

def waiting : Finset Nat := (a.running :: a.queue).toFinset.erase 0

theorem mem_waiting {tid : Nat} : tid ∈ waiting a ↔ tid ≠ 0 ∧ tid ∈ a.running :: a.queue := by
  rw [waiting, Finset.mem_erase, List.mem_toFinset]

theorem mem_absent {tid : Nat} : tid ∈ absent a ↔ (tid ≠ 0 ∧ tid < maxThreadNum) ∧
    tid ∉ a.running :: a.queue ∧ tid ∉ a.blocked ∧ tid ∉ a.asleep := by
  rw [absent, Finset.mem_filter, mem_others]

/-- Everything is in its place, but for the threads that shall be able to run,
which are blocked. -/
theorem leads_blocked (hr : Reachable .unbounded s) (hk : k ≤ 1000) : ∃ s', Leads s s' ∧
    Calm k s' ∧ Placed [0] (a.blocked ∪ waiting a) a.asleep s' := by
  have hcard := card_asleep_le a
  obtain ⟨s₁, h₁, hp₁⟩ := leads_full hr
  have hr₁ := h₁.reachable hr
  obtain ⟨s₂, h₂, hc₂, hp₂⟩ := hp₁.parks (k := k) hr₁ (by simp [mem_others]) a.asleep
    (asleep_subset a) (by omega)
  have hr₂ := h₂.reachable hr₁
  obtain ⟨s₃, h₃, hc₃, hp₃⟩ := hp₂.terminate hr₂ (D := absent a) (by
    intro tid ht
    obtain ⟨hin, -, -, hz⟩ := (mem_absent a).mp ht
    exact ⟨hin.1, .inr (.inl (Finset.mem_sdiff.mpr ⟨mem_others.mpr hin, hz⟩))⟩)
  have hasleep : a.asleep \ absent a = a.asleep := by
    rw [Finset.sdiff_eq_self_iff_disjoint, Finset.disjoint_left]
    intro tid hz ht
    exact ((mem_absent a).mp ht).2.2.2 hz
  rw [List.filter_nil, hasleep] at hp₃
  obtain ⟨s', h', hc', hp'⟩ := hp₃.block (h₃.reachable hr₂) (D := a.blocked ∩ a.asleep) (by
    intro tid ht
    obtain ⟨-, hz⟩ := Finset.mem_inter.mp ht
    exact ⟨(mem_others.mp (asleep_subset a hz)).1, .inr (.inr hz)⟩)
  refine ⟨s', h₁.trans (h₂.trans (h₃.trans h')), hc' _ (hc₃ _ hc₂), ?_⟩
  have hblocked : (others \ a.asleep) \ absent a ∪ a.blocked ∩ a.asleep =
      a.blocked ∪ waiting a := by
    ext tid
    have hapart := a.apart tid
    have hbound := a.bound tid
    have hmain : tid ∈ a.blocked → tid ≠ 0 := fun hb h0 => (a.apart 0 a.main).1 (h0 ▸ hb)
    simp only [Finset.mem_union, Finset.mem_sdiff, Finset.mem_inter, mem_others, mem_absent,
      mem_waiting]
    grind
  rwa [List.filter_nil, hblocked] at hp'

theorem leads_arranged (hr : Reachable .unbounded s) : ∃ s', Leads s s' ∧ Arranged a s' := by
  obtain ⟨pre, post, hsplit, hnd, hmem⟩ := exists_turn a
  have hlen := length_le a hnd fun tid ht => ((hmem tid).mp ht).2
  rw [List.length_append] at hlen
  obtain ⟨s₁, h₁, hc₁, hp₁⟩ := leads_blocked a hr (k := post.length + 1) (by omega)
  have hr₁ := h₁.reachable hr
  obtain ⟨s₂, h₂, hc₂, hp₂⟩ := hp₁.resume hr₁ hnd (by
    intro tid ht
    obtain ⟨h0, hin⟩ := (hmem tid).mp ht
    exact ⟨h0, Finset.mem_union_right _ ((mem_waiting a).mpr ⟨h0, hin⟩), (a.apart tid hin).2⟩)
  have hr₂ := h₂.reachable hr₁
  obtain ⟨s', h', hring, hblocked, hasleep⟩ := leads_ticks (post.length + 1) hr₂ (hc₂ _ hc₁)
  have hleads := h₁.trans (h₂.trans h')
  refine ⟨s', hleads, arranged_of_placed ((hleads.reachable hr).inv .unbounded) a ⟨?_, ?_, ?_⟩⟩
  · rw [hring, hp₂.order, hsplit]
    exact List.rotate_append_length_eq (0 :: post) pre
  · intro tid
    have hapart := a.apart tid
    rw [hblocked, hp₂.blocked, Finset.mem_sdiff, Finset.mem_union, List.mem_toFinset, hmem,
      mem_waiting]
    have hmain : tid ∈ a.blocked → tid ≠ 0 := fun hb h0 => (a.apart 0 a.main).1 (h0 ▸ hb)
    tauto
  · intro tid
    rw [hasleep, hp₂.asleep]

end Target

/-- The tables of every reachable state form an arrangement, and from every
reachable state every arrangement can be reached. -/
theorem arrangements_reachable (hr : Reachable .unbounded s) : (∃ a, Arranged a s) ∧
    ∀ a, ∃ xs s', Trace .unbounded s xs s' ∧ Arranged a s' := by
  refine ⟨exists_arrangement (hr.inv .unbounded), fun a => ?_⟩
  obtain ⟨s', ⟨xs, ht⟩, ha⟩ := leads_arranged a hr
  exact ⟨xs, s', ht, ha⟩

/-- Thread 2 runs, main waits, thread 3 is blocked, 4 is asleep, and 5 is both. -/
def mixed : Arrangement where
  running := 2
  queue := [0]
  blocked := {3, 5}
  asleep := {4, 5}
  nodup := by decide
  main := by decide
  apart := by decide
  bound := by
    intro tid ht
    simp only [List.mem_cons, List.not_mem_nil, or_false, Finset.mem_insert,
      Finset.mem_singleton] at ht
    change tid < 100
    omega

theorem arrangements_reachable_mixed :
    ∃ xs s', Trace .unbounded (initial .unbounded 1000) xs s' ∧ Arranged mixed s' :=
  (arrangements_reachable (reachable_initial .unbounded (q := 1000) (by decide))).2 mixed

end Uthreads.Arrangements
