import Mathlib

namespace Uthreads.Fifo

variable {α : Type}

/-- What can happen to a queue: entries drop out, wherever they stand, or the
head is served. Either way new entries may enter at the back before. -/
inductive Turn (α : Type)
  | drop (gone : α → Bool)
  | serve (a : α)

def Turn.served : Turn α → Option α
  | drop _ => none
  | serve a => some a

def Turn.gone : Turn α → α → Bool
  | drop gone => gone
  | serve _ => fun _ => false

inductive Step : List α → Turn α → List α → Prop
  | drop {q q' : List α} {gone : α → Bool} (new : List α)
      (h : q' = q.filter (fun a => !gone a) ++ new) : Step q (.drop gone) q'
  | serve {q q' : List α} {a : α} (new : List α) (h : q ++ new = a :: q') : Step q (.serve a) q'

inductive Steps : List α → List (Turn α) → List α → Prop
  | nil (q : List α) : Steps q [] q
  | cons {q q' q'' : List α} {turn : Turn α} {turns : List (Turn α)} (h : Step q turn q')
      (hs : Steps q' turns q'') : Steps q (turn :: turns) q''

variable {q q' : List α} {a : α} {pre post : List α} {turn : Turn α} {turns : List (Turn α)}

theorem Step.enter (new : List α) {gone : α → Bool} (hgone : ∀ b ∈ q, gone b = false)
    (hq : q' = q ++ new) : Step q (.drop gone) q' := by
  have hfilter : q.filter (fun b => !gone b) = q :=
    List.filter_eq_self.mpr fun b hb => by simp [hgone b hb]
  exact .drop new (by rw [hfilter, hq])

theorem Step.ahead (hs : Step (pre ++ a :: post) turn q') (ha : turn.gone a = false) :
    (turn = .serve a ∧ pre = []) ∨
    (∃ b pre' post', turn = .serve b ∧ pre = b :: pre' ∧ q' = pre' ++ a :: post') ∨
    ∃ gone post', turn = .drop gone ∧ q' = pre.filter (fun b => !gone b) ++ a :: post' := by
  cases hs with
  | @drop _ gone new h =>
      have hkeep : gone a = false := ha
      refine .inr (.inr ⟨gone, post.filter (fun b => !gone b) ++ new, rfl, ?_⟩)
      simp [h, hkeep]
  | @serve _ b new h =>
      cases pre with
      | nil =>
          obtain ⟨rfl, -⟩ := List.cons.inj h
          exact .inl ⟨rfl, rfl⟩
      | cons c pre' =>
          rw [List.cons_append, List.cons_append] at h
          obtain ⟨rfl, hq⟩ := List.cons.inj h
          exact .inr (.inl ⟨c, pre', post ++ new, rfl, rfl, by simp [← hq]⟩)

variable [DecidableEq α]

def before (a : α) (turns : List (Turn α)) : List α :=
  (turns.filterMap Turn.served).takeWhile (fun b => b ≠ a)

@[simp] theorem before_drop (gone : α → Bool) : before a (.drop gone :: turns) = before a turns := rfl

@[simp] theorem before_serve_self : before a (.serve a :: turns) = [] := by
  simp [before, Turn.served]

theorem before_serve_of_ne {b : α} (h : b ≠ a) :
    before a (.serve b :: turns) = b :: before a turns := by
  simp [before, Turn.served, h]

/-- Only entries ahead of a are served before it, each at most as often as it
stands there, and in their order. -/
theorem Steps.before_sublist (hs : Steps q turns q') (hq : q = pre ++ a :: post) (ha : a ∉ pre)
    (hstay : ∀ turn ∈ turns, turn.gone a = false) : (before a turns).Sublist pre := by
  induction hs generalizing pre post with
  | nil => exact List.nil_sublist _
  | @cons q q₁ q₂ turn turns h hs ih =>
      subst hq
      have hrest : ∀ turn ∈ turns, turn.gone a = false := fun t ht => hstay t (List.mem_cons_of_mem _ ht)
      rcases h.ahead (hstay turn List.mem_cons_self) with
        ⟨rfl, rfl⟩ | ⟨b, pre', post', rfl, rfl, rfl⟩ | ⟨gone, post', rfl, rfl⟩
      · rw [before_serve_self]
      · obtain ⟨hb, ha'⟩ := not_or.mp (List.mem_cons.not.mp ha)
        rw [before_serve_of_ne (Ne.symm hb)]
        exact (ih rfl ha' hrest).cons_cons b
      · rw [before_drop]
        exact (ih rfl (fun hm => ha (List.mem_of_mem_filter hm)) hrest).trans List.filter_sublist

theorem Steps.served_or_gone (hs : Steps q turns q') (hq : q = pre ++ a :: post) (ha : a ∉ pre)
    (hstay : ∀ turn ∈ turns, turn.gone a = false) (hserved : a ∈ turns.filterMap Turn.served)
    {b : α} (hb : b ∈ pre) :
    b ∈ before a turns ∨
      ∃ turn ∈ turns.takeWhile (fun turn => turn.served ≠ some a), turn.gone b = true := by
  induction hs generalizing pre post with
  | nil => simp at hserved
  | @cons q q₁ q₂ turn turns h hs ih =>
      subst hq
      have hrest : ∀ turn ∈ turns, turn.gone a = false := fun t ht => hstay t (List.mem_cons_of_mem _ ht)
      rcases h.ahead (hstay turn List.mem_cons_self) with
        ⟨rfl, rfl⟩ | ⟨c, pre', post', rfl, rfl, rfl⟩ | ⟨gone, post', rfl, rfl⟩
      · exact absurd hb List.not_mem_nil
      · obtain ⟨hc, ha'⟩ := not_or.mp (List.mem_cons.not.mp ha)
        have hne : Turn.served (.serve c) ≠ some a := by
          intro he
          exact hc (Option.some.inj he).symm
        rw [before_serve_of_ne (Ne.symm hc), List.takeWhile_cons, if_pos (by simpa using hne)]
        rcases List.mem_cons.mp hb with rfl | hb
        · exact .inl List.mem_cons_self
        · have hserved' : a ∈ turns.filterMap Turn.served := by
            simpa [Turn.served, hc] using hserved
          rcases ih rfl ha' hrest hserved' hb with hmem | ⟨t, ht, hg⟩
          · exact .inl (List.mem_cons_of_mem _ hmem)
          · exact .inr ⟨t, List.mem_cons_of_mem _ ht, hg⟩
      · rw [before_drop, List.takeWhile_cons, if_pos (by simp [Turn.served])]
        by_cases hg : gone b = true
        · exact .inr ⟨_, List.mem_cons_self, hg⟩
        · have hb' : b ∈ pre.filter (fun b => !gone b) := List.mem_filter.mpr ⟨hb, by simpa using hg⟩
          have hserved' : a ∈ turns.filterMap Turn.served := by simpa [Turn.served] using hserved
          rcases ih rfl (fun hm => ha (List.mem_of_mem_filter hm)) hrest hserved' hb' with
            hmem | ⟨t, ht, hgt⟩
          · exact .inl hmem
          · exact .inr ⟨t, List.mem_cons_of_mem _ ht, hgt⟩

/-- After as many services as there are entries ahead of a, and one more, a has
been served. -/
theorem Steps.served_within (hs : Steps q turns q') (hq : q = pre ++ a :: post) (ha : a ∉ pre)
    (hstay : ∀ turn ∈ turns, turn.gone a = false)
    (hlong : pre.length < (turns.filterMap Turn.served).length) :
    a ∈ (turns.filterMap Turn.served).take (pre.length + 1) := by
  have hle := (hs.before_sublist hq ha hstay).length_le
  rw [before] at hle
  generalize turns.filterMap Turn.served = ds at hlong hle ⊢
  have hmem : a ∈ ds := by
    by_contra hmem
    have hall : ds.takeWhile (fun b => decide (b ≠ a)) = ds :=
      List.takeWhile_eq_self_iff.mpr fun b hb => by simpa using ne_of_mem_of_not_mem hb hmem
    rw [hall] at hle
    omega
  obtain ⟨front, back, rfl, hfront⟩ := List.eq_append_cons_of_mem hmem
  have hall : front.takeWhile (fun b => decide (b ≠ a)) = front :=
    List.takeWhile_eq_self_iff.mpr fun b hb => by simpa using ne_of_mem_of_not_mem hb hfront
  have hlen : front.length ≤ pre.length := by
    rw [List.takeWhile_append, hall, if_pos rfl, List.length_append] at hle
    omega
  rw [List.take_append, Nat.sub_add_comm hlen, List.take_succ_cons]
  exact List.mem_append_right _ List.mem_cons_self

theorem idxOf_split (h : a ∉ pre) : (pre ++ a :: post).idxOf a = pre.length := by
  rw [List.idxOf_append_of_notMem h, List.idxOf_cons_self, Nat.add_zero]

theorem Step.idxOf_le (hs : Step q turn q') (hq : a ∈ q) (ha : turn.gone a = false)
    (hserved : turn.served ≠ some a) :
    a ∈ q' ∧ turn.served.toList.length + q'.idxOf a ≤ q.idxOf a := by
  obtain ⟨pre, post, rfl, hpre⟩ := List.eq_append_cons_of_mem hq
  rcases hs.ahead ha with ⟨rfl, rfl⟩ | ⟨b, pre', post', rfl, rfl, rfl⟩ | ⟨gone, post', rfl, rfl⟩
  · exact absurd rfl hserved
  · have hpre' : a ∉ pre' := fun hm => hpre (List.mem_cons_of_mem _ hm)
    refine ⟨by simp, ?_⟩
    rw [idxOf_split hpre, idxOf_split hpre', List.length_cons, Nat.add_comm]
    exact Nat.le_refl _
  · have hpre' : a ∉ pre.filter (fun b => !gone b) := fun hm => hpre (List.mem_of_mem_filter hm)
    refine ⟨by simp, ?_⟩
    rw [idxOf_split hpre, idxOf_split hpre']
    simpa [Turn.served] using List.length_filter_le _ pre

end Uthreads.Fifo
