import Uthreads.SignalMachine

namespace Uthreads.Expiries

open Program SignalMachine

variable {σ φ κ α : Type}

/-- The jump of m₀ starts a quantum in m₁, which the handler entered in m₂ ends.
It handles the expiry of time t. -/
structure Ended (S : Sys σ φ κ) (m₀ m₁ m₂ : Machine σ φ κ) (t : Nat) : Prop where
  jump : ∃ c, m₀.target = some c
  starts : m₀.step S .exec = some m₁
  lasts : ∃ ls, .deliver ∉ ls ∧ m₁.steps S ls = some m₂
  same : m₂.started = m₁.started
  pending : m₂.pending = some t
  ends : ∃ m₃, m₂.step S .deliver = some m₃

def Past (m : Machine σ φ κ) : Prop := ∀ t, m.pending = some t → t < m.clock

variable {S : Sys σ φ κ} {m m' m₀ m₁ m₂ : Machine σ φ κ} {l : Label κ} {ls ls₁ ls₂ : List (Label κ)}
  {t t₀ : Nat}

theorem node_timing {wrap : Bool → Prog σ φ α → Ctl σ φ κ} {done : α → Machine σ φ κ}
    (hdone : ∀ v, (done v).pending = m.pending ∧ (done v).clock = m.clock) (d : Bool)
    (p : Prog σ φ α) : (m.node wrap done d p).pending = m.pending ∧
      (m.node wrap done d p).clock = m.clock := by
  cases p with
  | pure v => exact hdone v
  | note n k =>
      rw [Machine.node]
      cases n <;> exact ⟨rfl, rfl⟩
  | siglongjmp i =>
      rw [Machine.node]
      cases m.env i <;> exact ⟨rfl, rfl⟩
  | get | set | sigprocmask | sigsetjmp | makecontext | exit | fault => exact ⟨rfl, rfl⟩

theorem exec_timing (h : m.exec = some m') : m'.pending = m.pending ∧ m'.clock = m.clock := by
  rcases Machine.exec_cases h with ⟨c, d, p, -, rfl⟩ | ⟨d, p, mask, below, -, rfl⟩
  · apply node_timing
    exact fun v => ⟨rfl, rfl⟩
  · apply node_timing
    exact fun v => ⟨rfl, rfl⟩

theorem step_timing (h : m.step S l = some m') : m'.clock = m.clock + 1 ∧
    (m'.pending = m.pending ∨ (l = .expire ∧ m'.pending = m.pending.or (some m.clock)) ∨
      (l = .deliver ∧ m'.pending = none)) := by
  rcases Machine.step_cases h with ⟨rfl, -, -, rfl⟩ | ⟨rfl, -, -, -, rfl⟩ | ⟨-, -, m₁, hexec, rfl⟩ |
    ⟨c, -, -, -, rfl⟩
  · exact ⟨rfl, .inr (.inl ⟨rfl, rfl⟩)⟩
  · exact ⟨rfl, .inr (.inr ⟨rfl, rfl⟩)⟩
  · obtain ⟨hp, -⟩ := exec_timing hexec
    exact ⟨rfl, .inl hp⟩
  · exact ⟨rfl, .inl rfl⟩

theorem Past.step (h : Past m) (hs : m.step S l = some m') : Past m' := by
  obtain ⟨hclock, hp⟩ := step_timing hs
  intro t ht
  rw [hclock]
  rcases hp with hp | ⟨-, hp⟩ | ⟨-, hp⟩
  · exact Nat.lt_succ_of_lt (h t (hp ▸ ht))
  · rw [hp, Option.or_eq_some_iff] at ht
    rcases ht with ht | ⟨-, ht⟩
    · exact Nat.lt_succ_of_lt (h t ht)
    · exact Option.some.inj ht ▸ Nat.lt_succ_self _
  · rw [hp] at ht
    cases ht

theorem pending_kept (hd : .deliver ∉ ls) (h : m.steps S ls = some m') (ht : m.pending = some t) :
    m'.pending = some t := by
  refine Machine.steps_induction_of_mem (P := fun m => m.pending = some t) ?_ h ht
  intro m l hl m' ht hs
  rcases (step_timing hs).2 with hp | ⟨-, hp⟩ | ⟨rfl, -⟩
  · rw [hp, ht]
  · rw [hp, ht, Option.some_or]
  · exact absurd hl hd

theorem stamped_later (hs : m.steps S ls = some m') (hm : m.pending = none) (ht : m'.pending = some t) :
    m.clock ≤ t := by
  have h : m.clock ≤ m'.clock ∧ ∀ t, m'.pending = some t → m.clock ≤ t := by
    refine Machine.steps_induction (P := fun m' => m.clock ≤ m'.clock ∧
      ∀ t, m'.pending = some t → m.clock ≤ t) ?_ hs ⟨Nat.le_refl _, by simp [hm]⟩
    rintro m₁ l m₂ ⟨hle, hlater⟩ hs
    obtain ⟨hclock, hp⟩ := step_timing hs
    refine ⟨hclock ▸ Nat.le_succ_of_le hle, fun t ht => ?_⟩
    rcases hp with hp | ⟨-, hp⟩ | ⟨-, hp⟩
    · exact hlater t (hp ▸ ht)
    · rw [hp, Option.or_eq_some_iff] at ht
      rcases ht with ht | ⟨-, ht⟩
      · exact hlater t ht
      · exact Option.some.inj ht ▸ hle
    · rw [hp] at ht
      cases ht
  exact h.2 t ht

/-- The run from m₀ by ls₁ ++ ls₂ has the signal blocked in all states of its part ls₂;
the step before that part blocked it, if there is one. -/
def Sealed (S : Sys σ φ κ) (m₀ : Machine σ φ κ) (ls₁ ls₂ : List (Label κ)) : Prop :=
  (∀ ls₃ ls₄ m, ls₂ = ls₃ ++ ls₄ → m₀.steps S (ls₁ ++ ls₃) = some m → m.masked = true) ∧
  (ls₁ = [] ∨ ∃ ls₀ l m, ls₁ = ls₀ ++ [l] ∧ (l = .exec ∨ l = .deliver) ∧
    m₀.steps S ls₀ = some m ∧ m.masked = false)

theorem Sealed.concat (h : Sealed S m₀ ls₁ ls₂) (hs : m₀.steps S (ls₁ ++ ls₂ ++ [l]) = some m)
    (hm : m.masked = true) : Sealed S m₀ ls₁ (ls₂ ++ [l]) := by
  refine ⟨fun ls₃ ls₄ m' heq hm' => ?_, h.2⟩
  rcases List.eq_nil_or_concat ls₄ with rfl | ⟨ls₅, l', rfl⟩
  · rw [List.append_nil] at heq
    rw [← heq, ← List.append_assoc, hs] at hm'
    exact Option.some.inj hm' ▸ hm
  · rw [List.concat_eq_append, ← List.append_assoc] at heq
    exact h.1 ls₃ ls₅ m' (List.append_inj_left' heq rfl) hm'

theorem pending_concat (hm : m.masked = true) (hs : m.step S l = some m')
    (h : m.pending = none ↔ .expire ∉ ls) : m'.pending = none ↔ .expire ∉ ls ++ [l] := by
  rw [List.mem_append, List.mem_singleton, not_or]
  rcases Machine.step_cases hs with ⟨rfl, -, -, rfl⟩ | ⟨rfl, hm', -⟩ | ⟨rfl, -, m₁, hexec, rfl⟩ |
    ⟨c, rfl, -, -, rfl⟩
  · cases hp : m.pending <;> simp
  · simp [hm] at hm'
  · have hp := (exec_timing hexec).1
    simp [hp, h]
  · simp [h]

theorem pending_of_sealing (hm : m.masked = false) (hs : m.step S l = some m')
    (hm' : m'.masked = true) : (l = .exec ∨ l = .deliver) ∧ m'.pending = none := by
  rcases Machine.step_cases hs with ⟨-, -, -, rfl⟩ | ⟨rfl, -, -, -, rfl⟩ | ⟨rfl, hdue, m₁, hexec, rfl⟩ |
    ⟨c, -, -, -, rfl⟩
  · simp [hm] at hm'
  · exact ⟨.inr rfl, rfl⟩
  · have hp : m.pending = none := by simpa [Machine.due, hm] using hdue
    exact ⟨.inl rfl, (exec_timing hexec).1.trans hp⟩
  · simp [hm] at hm'

/-- In a state with the signal blocked, an expiry is pending exactly if the timer has
expired since the signal was blocked. -/
theorem exists_sealed (hp : m₀.pending = none) (h : m₀.steps S ls = some m) (hm : m.masked = true) :
    ∃ ls₁ ls₂, ls = ls₁ ++ ls₂ ∧ Sealed S m₀ ls₁ ls₂ ∧ (m.pending = none ↔ .expire ∉ ls₂) := by
  induction ls using List.reverseRecOn generalizing m with
  | nil =>
      cases h
      refine ⟨[], [], rfl, ⟨fun ls₃ ls₄ m' heq hm' => ?_, .inl rfl⟩, by simp [hp]⟩
      obtain ⟨rfl, -⟩ := List.append_eq_nil_iff.mp heq.symm
      cases hm'
      exact hm
  | append_singleton ls l ih =>
      obtain ⟨m₁, h₁, hs⟩ := Machine.steps_concat h
      by_cases hm₁ : m₁.masked = true
      · obtain ⟨ls₁, ls₂, rfl, hsealed, hiff⟩ := ih h₁ hm₁
        exact ⟨ls₁, ls₂ ++ [l], List.append_assoc .., hsealed.concat h hm,
          pending_concat hm₁ hs hiff⟩
      · rw [Bool.not_eq_true] at hm₁
        obtain ⟨hl, hnone⟩ := pending_of_sealing hm₁ hs hm
        refine ⟨ls ++ [l], [], by simp, ⟨fun ls₃ ls₄ m' heq hm' => ?_, ?_⟩, by simp [hnone]⟩
        · obtain ⟨rfl, -⟩ := List.append_eq_nil_iff.mp heq.symm
          rw [List.append_nil, h] at hm'
          exact Option.some.inj hm' ▸ hm
        · exact .inr ⟨ls, l, m₁, rfl, hl, h₁, hm₁⟩

theorem exec_target {c : Ctx σ φ κ} (h : m.target = some c) : m.exec = some (m.land c) := by
  simp only [Machine.target] at h
  split at h
  · rename_i hctl
    simp only [Machine.exec, hctl, Machine.node, h]
  · rename_i hctl
    simp only [Machine.exec, hctl, Machine.node, h]
  · cases h

theorem step_target {c : Ctx σ φ κ} (hc : m.target = some c) (hs : m.step S .exec = some m') :
    m'.started = m.clock + 1 ∧ m'.clock = m.clock + 1 ∧ m'.pending = m.pending := by
  rcases Machine.step_cases hs with ⟨hl, -⟩ | ⟨hl, -⟩ | ⟨-, -, m₁, hexec, rfl⟩ | ⟨c, hl, -⟩
  · cases hl
  · cases hl
  · rw [exec_target hc] at hexec
    cases hexec
    exact ⟨rfl, rfl, rfl⟩
  · cases hl

theorem Ended.fresh_iff (h : Ended S m₀ m₁ m₂ t) (hpast : Past m₀) :
    m₁.started ≤ t ↔ m₀.pending = none := by
  obtain ⟨c, hc⟩ := h.jump
  obtain ⟨ls, hd, hls⟩ := h.lasts
  obtain ⟨hstarted, hclock, hpending⟩ := step_target hc h.starts
  cases hp : m₀.pending with
  | none =>
      have ht := stamped_later hls (hpending.trans hp) h.pending
      rw [hclock] at ht
      simp [hstarted, ht]
  | some t₀ =>
      have hkept := pending_kept hd hls (hpending.trans hp)
      have heq : t₀ = t := Option.some.inj (hkept.symm.trans h.pending)
      have hlt := hpast t₀ hp
      simp only [reduceCtorEq, iff_false, hstarted]
      omega

end Uthreads.Expiries
