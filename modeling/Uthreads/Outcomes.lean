import Uthreads.Failures
import Uthreads.Handover

namespace Uthreads.Outcomes

open Program SignalMachine AtomicMachine Tables Source Api Effects Tallies Configs Moves Runs
open Failures

variable {w : Width} {s s' s₁ : Scheduler} {e : Event Call} {o : Outcome Scheduler (Option Int)}

theorem reads_unique {c : Call} {v v' : Int} (h : Reads w s c v) (h' : Reads w s c v') : v = v' := by
  cases c with
  | getTid | getTotalQuantums => exact h.trans h'.symm
  | getQuantums tid =>
      obtain ⟨t, ht, rfl⟩ := h
      obtain ⟨t', ht', rfl⟩ := h'
      rw [Option.some.inj (ht.symm.trans ht')]
  | spawn | terminate | block | resume | sleep => exact h.elim

theorem move_ret_unique {v : Option Int} (hi : Inv s) (h : Move w s e (.ret v s')) (h' : Move w s e o) :
    o = .ret v s' := by
  have hm := h
  cases h with
  | fail hf => exact move_of_fails hi h' hf
  | @read c v hr =>
      cases c with
      | getTid | getTotalQuantums | getQuantums =>
          cases h' with
          | fail hf => exact (move_of_fails hi hm hf).symm
          | read hr' => rw [reads_unique hr hr']
          | switch hl => cases hl
      | spawn | terminate | block | resume | sleep => exact hr.elim
  | @spawn entryPoint tid hfree hlt hmin =>
      cases h' with
      | fail hf => exact (move_of_fails hi hm hf).symm
      | read hr => exact hr.elim
      | @spawn _ tid' hfree' hlt' hmin' =>
          rcases lt_trichotomy tid tid' with hl | rfl | hl
          · exact absurd hfree (hmin' tid hl)
          · rfl
          · exact absurd hfree' (hmin tid' hl)
      | switch hl => cases hl
  | @terminate tid hl h0 hr =>
      cases h' with
      | fail hf => exact (move_of_fails hi hm hf).symm
      | read hr => exact hr.elim
      | terminate => rfl
      | switch hleave => cases hleave with
        | terminate hr' => exact absurd hr' hr
      | exit => exact absurd rfl h0
  | @blockReady tid hst h0 =>
      cases h' with
      | fail hf => exact (move_of_fails hi hm hf).symm
      | read hr => exact hr.elim
      | blockReady => rfl
      | blockBlocked hst' => simp [hst] at hst'
      | switch hleave => cases hleave with
        | block hr => simp [hr, hi.tables.stateOf_running] at hst
  | @blockBlocked tid hst h0 =>
      cases h' with
      | fail hf => exact (move_of_fails hi hm hf).symm
      | read hr => exact hr.elim
      | blockReady hst' => simp [hst] at hst'
      | blockBlocked => rfl
      | switch hleave => cases hleave with
        | block hr => simp [hr, hi.tables.stateOf_running] at hst
  | resumeBlocked hst =>
      cases h' with
      | fail hf => exact (move_of_fails hi hm hf).symm
      | read hr => exact hr.elim
      | resumeBlocked => rfl
      | resumeOther _ hst' => exact absurd hst hst'
      | switch hleave => cases hleave
  | resumeOther hl hst =>
      cases h' with
      | fail hf => exact (move_of_fails hi hm hf).symm
      | read hr => exact hr.elim
      | resumeBlocked hst' => exact absurd hst' hst
      | resumeOther => rfl
      | switch hleave => cases hleave

theorem operate_of_move_ret {v : Option Int} (hi : Inv s) (h : Move w s e (.ret v s')) :
    operate w s e = some ⟨s, e, s', false, v⟩ :=
  operate_of_ret w (move_ret_unique hi h (perform_move w hi e))

theorem operate_of_leave {tid : Nat} {rest : List Nat} (hi : Inv s) (hl : Leave w s e s₁)
    (hq : s₁.readyThreads = tid :: rest) :
    operate w s e = some ⟨s, e, dispatch w s₁ tid rest, true, none⟩ := by
  obtain ⟨next, rest', t, hq', -, hp⟩ := Handover.perform_leave hi hl
  obtain ⟨rfl, rfl⟩ := List.cons.inj (hq.symm.trans hq')
  exact operate_of_jump w hp

/-- A relation that operations keep relates the ends of runs. -/
theorem trace_simulate {β : Type} (see : Entry → β) {R : Scheduler → Scheduler → Prop}
    (hstep : ∀ s s' e x, R s s' → operate w s e = some x →
      ∃ x', operate w s' e = some x' ∧ see x' = see x ∧ R x.after x'.after)
    {xs : List Entry} (ht : Trace w s xs s₁) (h : R s s') :
    ∃ xs' s₁', Trace w s' xs' s₁' ∧ xs'.map see = xs.map see ∧ R s₁ s₁' := by
  induction ht generalizing s' with
  | nil s => exact ⟨[], s', .nil s', rfl, h⟩
  | cons hx ht ih =>
      obtain ⟨x', hx', hsee, h'⟩ := hstep _ _ _ _ h hx
      obtain ⟨xs', s₁', ht', hmap, h₁⟩ := ih h'
      exact ⟨x' :: xs', s₁', .cons hx' ht', by rw [List.map_cons, List.map_cons, hsee, hmap], h₁⟩

end Uthreads.Outcomes
