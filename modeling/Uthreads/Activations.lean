import Uthreads.Simulation

namespace Uthreads.Activations

open Program SignalMachine AtomicMachine Discipline Simulation

variable {σ φ κ α : Type}

/-- The activation that executed the sigsetjmp of a context has not returned. -/
def Live (m : Machine σ φ κ) (c : Ctx σ φ κ) : Prop :=
  ∀ k f rest, c.acts = (k, f) :: rest → k ∉ m.returned

def Leaving : Ctl σ φ κ → Prop
  | .call _ _ p => Leaves p
  | .handler _ p _ _ => Leaves p
  | _ => False

def Returned (m : Machine σ φ κ) (c : Ctx σ φ κ) : Prop :=
  ∃ k f rest, c.acts = (k, f) :: rest ∧ k ∈ m.returned

/-- The activation that filled a buffer has returned, or is the innermost one and
returns next. -/
def Gone (m : Machine σ φ κ) : Prop :=
  ∀ i c n ctl, m.env i = some c → c.point = .resume n ctl → Returned m c ∨
    (m.masked = true ∧ Leaving m.ctl ∧ c.acts = m.acts ∧ m.acts ≠ [])

variable {S : Sys σ φ κ} {I : σ → Prop} {m m' : Machine σ φ κ} {a : Atomic σ φ κ} {d : Bool}
  {p : Prog σ φ α} {wrap : Bool → Prog σ φ α → Ctl σ φ κ} {done : α → Machine σ φ κ}

theorem Returned.mono {c : Ctx σ φ κ} (h : Returned m c) (hr : m.returned ⊆ m'.returned) :
    Returned m' c := by
  obtain ⟨k, f, rest, hacts, hk⟩ := h
  exact ⟨k, f, rest, hacts, hr hk⟩

theorem Gone.returned (h : Gone m) (hl : ¬ Leaving m.ctl) {i n : Nat} {c : Ctx σ φ κ}
    {ctl : Ctl σ φ κ} (hi : m.env i = some c) (hp : c.point = .resume n ctl) : Returned m c :=
  (h i c n ctl hi hp).resolve_right fun hw => hl hw.2.1

theorem Gone.same (h : Gone m) (hl : ¬ Leaving m.ctl) (henv : m'.env = m.env)
    (hr : m.returned ⊆ m'.returned) : Gone m' :=
  fun i _ _ _ hi hp => .inl ((h.returned hl (congrFun henv i ▸ hi) hp).mono hr)

theorem Gone.leave (h : Gone m) (ctl : Ctl σ φ κ) : Gone { m.remark .leave with ctl := ctl } := by
  intro i c n ctl' hi hp
  refine .inl ?_
  rcases h i c n ctl' hi hp with hr | ⟨-, -, hacts, hne⟩
  · exact hr.mono (List.subset_append_right _ _)
  · obtain ⟨⟨k, f⟩, rest, hcons⟩ := List.exists_cons_of_ne_nil hne
    refine ⟨k, f, rest, hacts.trans hcons, ?_⟩
    simp [Machine.remark, hcons]

theorem Gone.save (h : Gone m) (hl : ¬ Leaving m.ctl) {i : Nat} {ctl ctl' : Ctl σ φ κ}
    (hmask : m.masked = true) (hacts : m.acts ≠ []) (hleave : Leaving ctl)
    {lastSave : Nat → Option Nat} : Gone
      { m with
        env := Function.update m.env i (some ⟨m.cur, .resume m.saved ctl', m.masked, m.acts⟩)
        saved := m.saved + 1
        lastSave := lastSave
        ctl := ctl } := by
  intro j c n ctl₁ hj hp
  by_cases hij : j = i
  · subst hij
    simp only [Function.update_self, Option.some.injEq] at hj
    subst hj
    exact .inr ⟨hmask, hleave, rfl, hacts⟩
  · simp only [Function.update_of_ne hij] at hj
    exact .inl (h.returned hl hj hp)

theorem Gone.make (h : Gone m) (hl : ¬ Leaving m.ctl) {i e : Nat} {mask : Bool} {ctl : Ctl σ φ κ}
    {entries : Nat → Option Nat} : Gone
      { m with
        env := Function.update m.env i (some ⟨i, .entry e, mask, []⟩)
        entries := entries
        ctl := ctl } := by
  intro j c n ctl₁ hj hp
  by_cases hij : j = i
  · subst hij
    simp only [Function.update_self, Option.some.injEq] at hj
    subst hj
    simp at hp
  · simp only [Function.update_of_ne hij] at hj
    exact .inl (h.returned hl hj hp)

theorem Gone.node (h : Gone m) (hctl : m.ctl = wrap d p)
    (hwrap : ∀ d p, Leaving (wrap d p) ↔ Leaves p)
    (hset : ∀ i k, p = .sigsetjmp i k → m.masked = true ∧ m.acts ≠ [] ∧ Leaves (k false))
    (hdone : ∀ v, (done v).env = m.env ∧ (done v).returned = m.returned) :
    Gone (m.node wrap done d p) := by
  have hnot : ¬ Leaves p → ¬ Leaving m.ctl := fun hn hl => hn ((hwrap d p).mp (hctl ▸ hl))
  cases p with
  | pure v =>
      rw [Machine.node]
      refine h.same (hnot (fun hl => by cases hl)) (hdone v).1 fun k hk => ?_
      rw [(hdone v).2]
      exact hk
  | get k => exact h.same (hnot (fun hl => by cases hl)) rfl (List.Subset.refl _)
  | set f k => exact h.same (hnot (fun hl => by cases hl)) rfl (List.Subset.refl _)
  | sigprocmask b sel k => exact h.same (hnot (fun hl => by cases hl)) rfl (List.Subset.refl _)
  | sigsetjmp i k =>
      obtain ⟨hmask, hacts, hleave⟩ := hset i k rfl
      exact h.save (hnot (fun hl => by cases hl)) hmask hacts ((hwrap d _).mpr hleave)
  | siglongjmp i =>
      rw [Machine.node]
      cases hi : m.env i with
      | none => exact h.same (hnot (fun hl => by cases hl)) rfl (List.Subset.refl _)
      | some c => exact h.same (hnot (fun hl => by cases hl)) rfl (List.Subset.refl _)
  | makecontext i e mask k => exact h.make (hnot (fun hl => by cases hl))
  | note n k =>
      cases n with
      | leave => exact h.leave _
      | enter f => exact h.same (hnot (fun hl => by cases hl)) rfl (List.Subset.refl _)
      | print text => exact h.same (hnot (fun hl => by cases hl)) rfl (List.Subset.refl _)
  | exit c => exact h.same (hnot (fun hl => by cases hl)) rfl (List.Subset.refl _)
  | fault why => exact h.same (hnot (fun hl => by cases hl)) rfl (List.Subset.refl _)

theorem setjmp_call (hp : Phase S I m a) {c : Option κ} {i : Nat} {k : Bool → Prog σ φ Int}
    (hctl : m.ctl = .call c d (.sigsetjmp i k)) :
    m.masked = true ∧ m.acts ≠ [] ∧ Leaves (k false) := by
  cases hp with
  | settled xs hdata hmid hnone hidle =>
      rw [hctl] at hidle
      cases hidle with
      | opening h => cases h
      | answered h => cases h
  | call hctl' hbusy =>
      rw [hctl', Ctl.call.injEq] at hctl
      obtain ⟨-, -, rfl⟩ := hctl
      obtain ⟨n, hn, hsect⟩ := hbusy.sect
      cases hsect with
      | setjmp h hl ht =>
          refine ⟨hbusy.masked, ?_, hl⟩
          exact List.ne_nil_of_length_pos (Nat.lt_of_lt_of_le (Nat.succ_pos _) hn)
  | tick hctl' => simp [hctl'] at hctl
  | exited hctl' => simp [hctl'] at hctl

theorem setjmp_handler (hp : Phase S I m a) {i : Nat} {k : Bool → Prog σ φ Unit} {mask : Bool}
    {below : Ctl σ φ κ} (hctl : m.ctl = .handler d (.sigsetjmp i k) mask below) :
    m.masked = true ∧ m.acts ≠ [] ∧ Leaves (k false) := by
  cases hp with
  | settled xs hdata hmid hnone hidle =>
      rw [hctl] at hidle
      cases hidle with
      | handler h => cases h
  | tick hctl' hbelow hbusy =>
      rw [hctl', Ctl.handler.injEq] at hctl
      obtain ⟨-, rfl, -⟩ := hctl
      obtain ⟨n, hn, hsect⟩ := hbusy.sect
      cases hsect with
      | setjmp h hl ht =>
          refine ⟨hbusy.masked, ?_, hl⟩
          exact List.ne_nil_of_length_pos (Nat.lt_of_lt_of_le (Nat.succ_pos _) hn)
  | call hctl' => simp [hctl'] at hctl
  | exited hctl' => simp [hctl'] at hctl

theorem Gone.step {l : Label κ} (h : Gone m) (hp : Phase S I m a) (hs : m.step S l = some m') :
    Gone m' := by
  rcases Machine.step_cases hs with ⟨-, -, -, rfl⟩ | ⟨-, hmask, -, -, rfl⟩ |
    ⟨-, -, m₁, hexec, rfl⟩ | ⟨c, -, hctl, -, rfl⟩
  · exact h
  · intro i c n ctl hi hp
    refine .inl ((h i c n ctl hi hp).resolve_right fun hw => ?_)
    exact absurd (hw.1.symm.trans hmask) (by simp)
  · have hgone : Gone m₁ := by
      rcases Machine.exec_cases hexec with ⟨c, d, p, hctl, rfl⟩ | ⟨d, p, mask, below, hctl, rfl⟩
      · exact h.node hctl (fun _ _ => Iff.rfl) (fun i k hk => setjmp_call hp (hk ▸ hctl))
          fun v => ⟨rfl, rfl⟩
      · have hset : ∀ i k, p = .sigsetjmp i k →
            m.masked = true ∧ m.acts ≠ [] ∧ Leaves (k false) :=
          fun i k hk => setjmp_handler hp (hk ▸ hctl)
        have hwrap : ∀ (d : Bool) (p : Prog σ φ Unit),
            Leaving (Ctl.handler d p mask below : Ctl σ φ κ) ↔ Leaves p := fun _ _ => Iff.rfl
        exact h.node hctl hwrap hset fun v => ⟨rfl, rfl⟩
    exact hgone
  · exact h.same (by simp [hctl, Leaving]) rfl (List.Subset.refl _)

/-- Wherever a suspended thread is continued, the activation that suspended it is gone. -/
theorem Gone.not_live (h : Gone m) {c : Ctx σ φ κ} (ht : m.target = some c) {n : Nat}
    {ctl : Ctl σ φ κ} (hp : c.point = .resume n ctl) : ¬ Live m c := by
  have hret : ∀ {i}, ¬ Leaving m.ctl → m.env i = some c → ¬ Live m c := by
    intro i hl hi hlive
    obtain ⟨k, f, rest, hacts, hk⟩ := h.returned hl hi hp
    exact hlive k f rest hacts hk
  simp only [Machine.target] at ht
  split at ht
  · rename_i hctl
    exact hret (by rw [hctl]; exact fun hl => by cases hl) ht
  · rename_i hctl
    exact hret (by rw [hctl]; exact fun hl => by cases hl) ht
  · simp at ht

end Uthreads.Activations
