import Uthreads.Removal

namespace Uthreads.Objects

open Program SignalMachine AtomicMachine Tables Source Api Effects Tallies Configs Moves Runs
open Histories Removal

variable {w : Width} {s s' : Scheduler} {e : Event Call} {x : Entry} {h : List Entry} {o : Nat}

def removedBy (x : Entry) : Option Nat :=
  match x.event with
  | .call (.terminate tid) => idOf x.before (index tid)
  | _ => none

def removed (h : List Entry) : List Nat := h.filterMap removedBy

theorem mem_removed_cons : o ∈ removed (x :: h) ↔ removedBy x = some o ∨ o ∈ removed h := by
  rw [removed, List.mem_filterMap]
  simp [removed, eq_comm]

structure Changes (s : Scheduler) (x : Entry) (made : List Nat) : Prop where
  objects : x.after.objects = made ++ s.objects
  next : x.after.nextObject = s.nextObject + made.length
  fresh : made = [] ∨ made = [s.nextObject]
  ids : ∀ o, (∃ tid, idOf x.after tid = some o) ↔
    o ∈ made ∨ ((∃ tid, idOf s tid = some o) ∧ removedBy x ≠ some o)

theorem idOf_none {tid : Nat} (hl : stateOf s tid = none) : idOf s tid = none := by
  rw [stateOf, Option.map_eq_none_iff] at hl
  rw [idOf, hl, Option.map_none]

theorem idOf_mark (s : Scheduler) (tid j : Nat) (st : State) : idOf (mark s tid st) j = idOf s j :=
  idOf_modify s tid j _ fun _ => rfl

theorem idOf_drop (s : Scheduler) (tid j : Nat) :
    idOf (drop s tid) j = if tid = j then none else idOf s j := idOf_erase s tid j

theorem idOf_spawn (s : Scheduler) (tid j : Nat) :
    idOf (spawn s tid) j = if tid = j then some s.nextObject else idOf s j := by
  simp only [idOf, spawn, Std.ExtTreeMap.getElem?_insert, compare_eq_iff_eq]
  split <;> rfl

theorem changes_of_same (hobjects : x.after.objects = s.objects)
    (hnext : x.after.nextObject = s.nextObject) (hids : ∀ tid, idOf x.after tid = idOf s tid)
    (hremoved : removedBy x = none) : Changes s x [] where
  objects := hobjects
  next := hnext
  fresh := .inl rfl
  ids := by simp [hids, hremoved]

theorem changes_of_drop {tid : Nat} (hc : Config s) (hobjects : x.after.objects = s.objects)
    (hnext : x.after.nextObject = s.nextObject)
    (hids : ∀ j, idOf x.after j = if tid = j then none else idOf s j)
    (hremoved : removedBy x = idOf s tid) : Changes s x [] where
  objects := hobjects
  next := hnext
  fresh := .inl rfl
  ids := by
    intro o
    rw [hremoved]
    constructor
    · rintro ⟨j, hj⟩
      rw [hids] at hj
      split at hj
      · exact absurd hj (by simp)
      · exact .inr ⟨⟨j, hj⟩, fun ht => ‹tid ≠ j› (hc.unique tid j o ht hj)⟩
    · rintro (hm | ⟨⟨j, hj⟩, hne⟩)
      · exact absurd hm (by simp)
      · refine ⟨j, ?_⟩
        rw [hids, if_neg]
        · exact hj
        · rintro rfl
          exact hne hj

theorem changes_spawn {entryPoint tid : Nat} (hfree : stateOf s tid = none) (v : Option Int) :
    Changes s ⟨s, .call (.spawn (some entryPoint)), spawn s tid, false, v⟩ [s.nextObject] where
  objects := rfl
  next := rfl
  fresh := .inr rfl
  ids := by
    intro o
    have hnone : removedBy ⟨s, .call (.spawn (some entryPoint)), spawn s tid, false, v⟩ = none := rfl
    simp only [hnone, idOf_spawn]
    constructor
    · rintro ⟨j, hj⟩
      split at hj
      · exact .inl (by simpa using hj.symm)
      · exact .inr ⟨⟨j, hj⟩, by simp⟩
    · rintro (hm | ⟨⟨j, hj⟩, -⟩)
      · refine ⟨tid, ?_⟩
        rw [if_pos rfl, List.mem_singleton.mp hm]
      · refine ⟨j, ?_⟩
        rw [if_neg, hj]
        rintro rfl
        rw [idOf_none hfree] at hj
        exact absurd hj (by simp)

theorem operate_changes (hi : Inv s) (hx : operate w s e = some x) : ∃ made, Changes s x made := by
  rcases operate_cases w hi hx with ⟨v, s', hm, rfl⟩ | ⟨i, s', hm, rfl⟩
  · cases hm with
    | @fail c hf =>
        refine ⟨[], changes_of_same rfl rfl (fun _ => rfl) ?_⟩
        cases c with
        | terminate tid => exact idOf_none hf
        | _ => rfl
    | @read c v hr =>
        refine ⟨[], changes_of_same rfl rfl (fun _ => rfl) ?_⟩
        cases c with
        | terminate tid => exact hr.elim
        | _ => rfl
    | spawn hfree hlt hmin => exact ⟨_, changes_spawn hfree _⟩
    | @terminate tid hl h0 hr =>
        exact ⟨[], changes_of_drop hi.config rfl rfl (fun j => idOf_erase s (index tid) j) rfl⟩
    | blockReady hst h0 => exact ⟨[], changes_of_same rfl rfl (fun j => idOf_mark s _ j _) rfl⟩
    | blockBlocked hst h0 => exact ⟨[], changes_of_same rfl rfl (fun _ => rfl) rfl⟩
    | resumeBlocked hst => exact ⟨[], changes_of_same rfl rfl (fun j => idOf_mark s _ j _) rfl⟩
    | resumeOther hl hst => exact ⟨[], changes_of_same rfl rfl (fun _ => rfl) rfl⟩
  · cases hm with
    | @switch _ s₁ tid rest t hl hq ht =>
        have hdispatch : ∀ j, idOf (dispatch w s₁ tid rest) j = idOf s₁ j :=
          fun j => idOf_modify s₁ tid j _ fun _ => rfl
        cases hl with
        | tick =>
            refine ⟨[], changes_of_same rfl rfl (fun j => (hdispatch j).trans ?_) rfl⟩
            exact idOf_mark s _ j _
        | block hr h0 =>
            refine ⟨[], changes_of_same rfl rfl (fun j => (hdispatch j).trans ?_) rfl⟩
            exact idOf_mark s _ j _
        | sleep hn h0 =>
            refine ⟨[], changes_of_same rfl rfl (fun j => (hdispatch j).trans ?_) rfl⟩
            exact idOf_mark s _ j _
        | @terminate tid' hr h0 =>
            refine ⟨[], changes_of_drop hi.config rfl rfl (fun j => (hdispatch j).trans ?_)
              (congrArg (idOf s) hr)⟩
            exact idOf_drop s _ j

structure Tracked (h : List Entry) (s : Scheduler) : Prop where
  nodup : s.objects.Nodup
  old : ∀ o ∈ s.objects, o < s.nextObject
  mem : ∀ o, o ∈ s.objects ↔ (∃ tid, idOf s tid = some o) ∨ o ∈ removed h
  dead : ∀ o ∈ removed h, ¬ ∃ tid, idOf s tid = some o

theorem tracked_initial (w : Width) (q : Int32) : Tracked [] (initial w q) where
  nodup := List.nodup_singleton 0
  old := by simp [initial]
  mem := by
    intro o
    simp only [idOf_initial, removed]
    simp [initial, eq_comm]
  dead := by simp [removed]

theorem removedBy_live (hx : operate w s e = some x) (hr : removedBy x = some o) :
    ∃ tid, idOf s tid = some o := by
  rw [removedBy, operate_before w hx] at hr
  split at hr
  · exact ⟨_, hr⟩
  · exact absurd hr (by simp)

theorem Tracked.step (ht : Tracked h s) (hi : Inv s) (hx : operate w s e = some x) :
    Tracked (x :: h) x.after := by
  obtain ⟨made, hc⟩ := operate_changes hi hx
  have hnew : ∀ o ∈ made, o = s.nextObject := by
    rcases hc.fresh with rfl | rfl <;> simp
  have hlt : ∀ {o}, (∃ tid, idOf s tid = some o) → o < s.nextObject :=
    fun ⟨tid, htid⟩ => hi.config.fresh tid _ htid
  have hold : ∀ {o}, o ∈ removed (x :: h) → o ∈ s.objects := by
    intro o ho
    rw [ht.mem]
    rcases mem_removed_cons.mp ho with hr | hr
    · exact .inl (removedBy_live hx hr)
    · exact .inr hr
  refine ⟨?_, ?_, fun o => ?_, ?_⟩
  · rw [hc.objects, List.nodup_append]
    refine ⟨?_, ht.nodup, ?_⟩
    · rcases hc.fresh with rfl | rfl <;> simp
    · rintro o ho o' ho' rfl
      exact Nat.lt_irrefl _ (hnew o ho ▸ ht.old o ho')
  · intro o ho
    rw [hc.objects, List.mem_append] at ho
    rw [hc.next]
    rcases ho with ho | ho
    · have hpos := List.length_pos_of_mem ho
      rw [hnew o ho]
      omega
    · exact Nat.lt_add_right _ (ht.old o ho)
  · rw [hc.objects, List.mem_append, ht.mem, hc.ids, mem_removed_cons]
    have hback := @removedBy_live w s e x o hx
    tauto
  · rintro o ho hlive
    have hobj := hold ho
    rcases (hc.ids o).mp hlive with hm | ⟨hl, hne⟩
    · exact Nat.lt_irrefl _ (hnew o hm ▸ ht.old o hobj)
    · rcases mem_removed_cons.mp ho with hr | hr
      · exact hne hr
      · exact ht.dead o hr hl

theorem tracked (hr : Run w h s) : Tracked h s := by
  induction hr with
  | init hi =>
      obtain ⟨-, rfl⟩ := eq_initial w hi
      exact tracked_initial w _
  | step hr hx ih => exact ih.step (hr.inv w) hx

/-- The object of the thread that terminated itself with the last operation. -/
def Lingers (h : List Entry) (o : Nat) : Prop :=
  ∃ x h', h = x :: h' ∧ removedBy x = some o ∧ idOf x.before x.before.runningThreadTid = some o

/-- After the run h, and in the operation e that may end it, the objects are those
of the live threads, none is deleted twice, at the exit none is left, and the
stack that is executing is not deleted. Main executes on the stack of the process. -/
structure Owned (w : Width) (h : List Entry) (s : Scheduler) (e : Event Call) : Prop where
  exact : ∀ o, o ∈ s.objects ↔ (∃ tid, idOf s tid = some o) ∨ Lingers h o
  bounded : s.objects.length ≤ maxThreadNum + 1
  once : s.objects.Nodup ∧ ∀ why, perform (uthreads w) e s ≠ .fault why
  exit : ∀ code s', perform (uthreads w) e s = .exit code s' → s'.objects = [] ∧
    ∀ o, idOf s s.runningThreadTid = some o → o ∉ s'.objects → s.runningThreadTid = 0

/-- No thread has been terminated, but for a self-termination in the last operation. -/
def Unterminated : List Entry → Prop
  | [] => True
  | x :: h => removed h = [] ∧
      ∀ o, removedBy x = some o → idOf x.before x.before.runningThreadTid = some o

instance : (h : List Entry) → Decidable (Unterminated h)
  | [] => .isTrue trivial
  | x :: h => inferInstanceAs (Decidable (removed h = [] ∧
      ∀ o ∈ removedBy x, idOf x.before x.before.runningThreadTid = some o))

theorem lingers_of_unterminated (hu : Unterminated h) (ho : o ∈ removed h) : Lingers h o := by
  cases h with
  | nil => simp [removed] at ho
  | cons x h =>
      rcases mem_removed_cons.mp ho with hr | hr
      · exact ⟨x, h, rfl, hr, hu.2 o hr⟩
      · rw [hu.1] at hr
        exact absurd hr (by simp)

theorem mem_removed_of_lingers (hl : Lingers h o) : o ∈ removed h := by
  obtain ⟨x, h', rfl, hr, -⟩ := hl
  exact mem_removed_cons.mpr (.inl hr)

theorem exact_iff (hr : Run w h s) :
    (∀ o, o ∈ s.objects ↔ (∃ tid, idOf s tid = some o) ∨ Lingers h o) ↔ Unterminated h := by
  have ht := tracked hr
  constructor
  · intro hexact
    have hlingers : ∀ o ∈ removed h, Lingers h o := by
      intro o ho
      rcases (hexact o).mp ((ht.mem o).mpr (.inr ho)) with hl | hl
      · exact absurd hl (ht.dead o ho)
      · exact hl
    cases hr with
    | init => trivial
    | @step h₀ s₀ e₀ x hr₀ hx =>
        constructor
        · apply List.eq_nil_iff_forall_not_mem.mpr
          intro o ho
          obtain ⟨x', h', heq, hrem, -⟩ := hlingers o (mem_removed_cons.mpr (.inr ho))
          cases heq
          exact (tracked hr₀).dead o ho (removedBy_live hx hrem)
        · intro o hrem
          obtain ⟨x', h', heq, -, hself⟩ := hlingers o (mem_removed_cons.mpr (.inl hrem))
          cases heq
          exact hself
  · intro hu o
    rw [ht.mem]
    constructor
    · rintro (hl | ho)
      · exact .inl hl
      · exact .inr (lingers_of_unterminated hu ho)
    · rintro (hl | hl)
      · exact .inl hl
      · exact .inr (mem_removed_of_lingers hl)

theorem length_removed (hu : Unterminated h) : (removed h).length ≤ 1 := by
  cases h with
  | nil => exact Nat.zero_le _
  | cons x h =>
      have hnil : h.filterMap removedBy = [] := hu.1
      rw [removed, List.filterMap_cons]
      split <;> simp [hnil]

theorem mem_ids : (∃ tid, idOf s tid = some o) ↔ o ∈ s.threads.toList.map (fun e => e.2.id) := by
  rw [List.mem_map]
  constructor
  · rintro ⟨tid, htid⟩
    obtain ⟨t, ht, rfl⟩ := Option.map_eq_some_iff.mp htid
    exact ⟨(tid, t), Std.ExtTreeMap.mem_toList_iff_getElem?_eq_some.mpr ht, rfl⟩
  · rintro ⟨⟨tid, t⟩, ht, rfl⟩
    refine ⟨tid, ?_⟩
    rw [idOf, Std.ExtTreeMap.mem_toList_iff_getElem?_eq_some.mp ht, Option.map_some]

theorem length_objects (hr : Run w h s) (hu : Unterminated h) :
    s.objects.length ≤ maxThreadNum + 1 := by
  have ht := tracked hr
  have hi := hr.inv w
  have hsub : s.objects ⊆ s.threads.toList.map (fun e => e.2.id) ++ removed h := by
    intro o ho
    rw [List.mem_append, ← mem_ids]
    exact (ht.mem o).mp ho
  have hsize := size_threads_le hi
  have hlen := (ht.nodup.subperm hsub).length_le
  rw [List.length_append, List.length_map, Std.ExtTreeMap.length_toList] at hlen
  exact hlen.trans (Nat.add_le_add hsize (length_removed hu))

theorem mem_clear (hr : Run w h s) : o ∈ (clear s).objects ↔ o ∈ removed h := by
  have ht := tracked hr
  rw [clear, ht.nodup.mem_sdiff_iff, ht.mem, ← mem_ids]
  constructor
  · rintro ⟨hl | ho, hnl⟩
    · exact absurd hl hnl
    · exact ho
  · exact fun ho => ⟨.inr ho, ht.dead o ho⟩

theorem eq_terminate_main {code : Int} (hi : Inv s) (hp : perform (uthreads w) e s = .exit code s') :
    e = .call (.terminate 0) := by
  have hm := perform_move w hi e
  rw [hp] at hm
  cases hm
  rfl

theorem exit_iff (hr : Run w h s) :
    (∀ code s', perform (uthreads w) e s = .exit code s' → s'.objects = [] ∧
      ∀ o, idOf s s.runningThreadTid = some o → o ∉ s'.objects → s.runningThreadTid = 0) ↔
    (e = .call (.terminate 0) → removed h = [] ∧ s.runningThreadTid = 0) := by
  have hi := hr.inv w
  have hclear : (clear s).objects = [] ↔ removed h = [] := by
    simp only [List.eq_nil_iff_forall_not_mem, mem_clear hr]
  constructor
  · rintro hexit rfl
    obtain ⟨hnil, hself⟩ := hexit 0 (clear s) (perform_terminate_main w hi.config)
    obtain ⟨t, hrun, -⟩ := run_running hi.tables
    refine ⟨hclear.mp hnil, hself t.id (by rw [idOf, hrun, Option.map_some]) ?_⟩
    rw [hnil]
    exact List.not_mem_nil
  · intro hcond code s' hp
    obtain rfl := eq_terminate_main hi hp
    obtain ⟨hnil, h0⟩ := hcond rfl
    rw [perform_terminate_main w hi.config] at hp
    cases hp
    exact ⟨hclear.mpr hnil, fun _ _ _ => h0⟩

/-- Objects are owned as they should be in the runs that terminate no thread, but
for a last self-termination, and that main ends. -/
theorem owned_iff (hr : Run w h s) (e : Event Call) :
    Owned w h s e ↔ Unterminated h ∧
      (e = .call (.terminate 0) → removed h = [] ∧ s.runningThreadTid = 0) := by
  constructor
  · exact fun ho => ⟨(exact_iff hr).mp ho.exact, (exit_iff hr).mp ho.exit⟩
  · rintro ⟨hu, hcond⟩
    have hfault : ∀ why, perform (uthreads w) e s ≠ .fault why := by
      intro why hf
      have hm := perform_move w (hr.inv w) e
      rw [hf] at hm
      cases hm
    exact ⟨(exact_iff hr).mpr hu, length_objects hr hu, ⟨(tracked hr).nodup, hfault⟩,
      (exit_iff hr).mpr hcond⟩

def selfTerminated : List (Event Call) :=
  [.call (.spawn (some 7)), .call (.spawn (some 8)), .tick, .call (.terminate 1)]

theorem owned_iff_self : ∃ h s, Run .lp64 h s ∧ s.runningThreadTid = 2 ∧ idOf s 1 = none ∧
    s.objects = [2, 1, 0] ∧ removed h = [1] ∧ Owned .lp64 h s .tick := by
  have hplays : Plays .lp64 (initial .lp64 1000) selfTerminated (fun xs s =>
      (s.runningThreadTid = 2 ∧ idOf s 1 = none ∧ s.objects = [2, 1, 0]) ∧
        removed xs.reverse = [1] ∧ Unterminated xs.reverse) := by decide +kernel
  obtain ⟨xs, s, hr, ⟨hrun, hid, hobjects⟩, hremoved, hu⟩ := hplays.exists_run (by decide)
  exact ⟨_, s, hr, hrun, hid, hobjects, hremoved, (owned_iff hr .tick).mpr ⟨hu, by simp⟩⟩

theorem index_eq_one : index 1 = 1 := rfl

/-- Main spawns a thread and terminates it: its object is never deleted. -/
theorem terminated_object_leaks : ∃ h s, Run .lp64 h s ∧ s.objects = [1, 0] ∧
    (∀ tid, idOf s tid ≠ some 1) ∧ ¬ Owned .lp64 h s .tick := by
  have hr₀ := run_initial .lp64 (q := 1000) (by decide)
  have hspawn := operate_spawn .lp64 (hr₀.inv .lp64) 7 1 (by simp [stateOf_initial]) (by decide)
    (by simp [stateOf_initial])
  have hr₁ := hr₀.step hspawn
  have hterminate : perform (uthreads .lp64) (.call (.terminate 1)) (spawn (initial .lp64 1000) 1) =
      .ret (some 0) (without (spawn (initial .lp64 1000) 1) (index 1)) :=
    perform_terminate_other .lp64 (hr₁.inv .lp64) (by simp [index_eq_one]) (by simp [index_eq_one])
      (by simp [index_eq_one, initial])
  have hr₂ := hr₁.step (operate_of_ret .lp64 hterminate)
  have hbefore : ∀ tid, idOf (spawn (initial .lp64 1000) 1) tid =
      if 1 = tid then some 1 else if 0 = tid then some 0 else none := by
    intro tid
    rw [idOf_spawn, idOf_initial]
    rfl
  have hids : ∀ tid, idOf (without (spawn (initial .lp64 1000) 1) (index 1)) tid ≠ some 1 := by
    intro tid
    rw [index_eq_one, without, idOf, idOf_erase, hbefore]
    split
    · simp
    · split <;> simp
  refine ⟨_, _, hr₂, rfl, hids, fun ho => ?_⟩
  have hself := ((exact_iff hr₂).mp ho.exact).2 1
    (by simp only [removedBy, hbefore, index_eq_one, if_true])
  rw [hbefore] at hself
  simp [initial] at hself

end Uthreads.Objects
