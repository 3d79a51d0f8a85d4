import Uthreads.SignalMachine

namespace Uthreads.AtomicMachine

open Program SignalMachine

variable {σ φ κ α : Type}

inductive Event (κ : Type)
  | tick
  | call (c : κ)
  deriving DecidableEq

def perform (S : Sys σ φ κ) : Event κ → σ → Outcome σ (Option Int)
  | .tick, s => (S.handler.run s).bind (fun _ s => .ret none s)
  | .call c, s => ((S.api c).run s).bind (fun v s => .ret (some v) s)

/-- The content of a buffer between operations: an entry point, a call that
waits to be continued, or a handler that waits to be continued. -/
inductive Token (σ φ κ : Type)
  | entry (e : Nat)
  | call (c : κ) (q : Prog σ φ Int)
  | tick (q : Prog σ φ Unit)

def Token.Continues : Token σ φ κ → σ → σ → Prop
  | .entry _, s, s' => s' = s
  | .call _ q, s, s' => ∃ v, q.run s = .ret v s'
  | .tick q, s, s' => q.run s = .ret () s'

/-- The machine in which operations are atomic and the handler interrupts user
code only. A buffer is emptied when it is continued. -/
structure Atomic (σ φ κ : Type) where
  data : σ
  cur : Nat
  env : Nat → Option (Token σ φ κ)
  ran : List Nat
  log : Nat → List (Option κ × Int)

def storeAll (mk : Prog σ φ α → Token σ φ κ) :
    List (Write σ φ α) → (Nat → Option (Token σ φ κ)) → Nat → Option (Token σ φ κ)
  | [], env => env
  | .save i q :: ws, env => storeAll mk ws (Function.update env i (some (mk q)))
  | .make i e _ :: ws, env => storeAll mk ws (Function.update env i (some (.entry e)))

namespace Atomic

def start (s : σ) (v : Int) : Atomic σ φ κ where
  data := s
  cur := 0
  env := fun _ => none
  ran := [0]
  log := Function.update (fun _ => []) 0 [(none, v)]

def answer (a : Atomic σ φ κ) (c : Option κ) (v : Int) : Atomic σ φ κ :=
  { a with log := Function.update a.log a.cur (a.log a.cur ++ [(c, v)]) }

/-- Thread i continues from its buffer until it is back in user code. -/
def land (a : Atomic σ φ κ) (i : Nat) : Option (Atomic σ φ κ) :=
  let b := { a with cur := i, env := Function.update a.env i none, ran := i :: a.ran }
  match a.env i with
  | none => none
  | some (.entry _) => some b
  | some (.call c q) =>
      match q.run a.data with
      | .ret v s => some (answer { b with data := s } (some c) v)
      | _ => none
  | some (.tick q) =>
      match q.run a.data with
      | .ret _ s => some { b with data := s }
      | _ => none

def step (S : Sys σ φ κ) (a : Atomic σ φ κ) : Event κ → Option (Atomic σ φ κ)
  | .call c =>
      let env := storeAll (.call c) ((S.api c).writes a.data) a.env
      match (S.api c).run a.data with
      | .ret v s => some (answer { a with data := s, env := env } (some c) v)
      | .jump i s => land { a with data := s, env := env } i
      | _ => none
  | .tick =>
      let env := storeAll .tick (S.handler.writes a.data) a.env
      match S.handler.run a.data with
      | .ret _ s => some { a with data := s, env := env }
      | .jump i s => land { a with data := s, env := env } i
      | _ => none

def stored (S : Sys σ φ κ) (a : Atomic σ φ κ) : Event κ → Nat → Option (Token σ φ κ)
  | .call c => storeAll (.call c) ((S.api c).writes a.data) a.env
  | .tick => storeAll .tick (S.handler.writes a.data) a.env

theorem land_cases {a a' : Atomic σ φ κ} {i : Nat} (h : a.land i = some a') :
    ∃ tok, a.env i = some tok ∧ a'.cur = i ∧ a'.env = Function.update a.env i none ∧
      a'.ran = i :: a.ran ∧ (∀ j ≠ i, a'.log j = a.log j) ∧ tok.Continues a.data a'.data := by
  simp only [land] at h
  cases htok : a.env i with
  | none => simp [htok] at h
  | some tok =>
      refine ⟨tok, rfl, ?_⟩
      cases tok with
      | entry entry =>
          simp only [htok, Option.some.injEq] at h
          subst h
          exact ⟨rfl, rfl, rfl, fun _ _ => rfl, rfl⟩
      | call c q =>
          simp only [htok] at h
          split at h
          · rename_i v s hq
            cases h
            exact ⟨rfl, rfl, rfl, fun j hj => Function.update_of_ne hj _ _, v, hq⟩
          · simp at h
      | tick q =>
          simp only [htok] at h
          split at h
          · rename_i v s hq
            cases h
            exact ⟨rfl, rfl, rfl, fun _ _ => rfl, hq⟩
          · simp at h

theorem step_cases {S : Sys σ φ κ} {a a' : Atomic σ φ κ} {e : Event κ} (h : a.step S e = some a') :
    (∃ v, perform S e a.data = .ret v a'.data ∧ a'.cur = a.cur ∧ a'.env = a.stored S e ∧
      a'.ran = a.ran ∧ ∀ i ≠ a.cur, a'.log i = a.log i) ∨
    (∃ i s, perform S e a.data = .jump i s ∧
      land { a with data := s, env := a.stored S e } i = some a') := by
  cases e with
  | call c =>
      simp only [step] at h
      split at h
      · rename_i v s hrun
        cases h
        refine .inl ⟨some v, ?_, rfl, rfl, rfl, fun i hi => Function.update_of_ne hi _ _⟩
        simp only [perform, hrun, Outcome.ret_bind, answer]
      · rename_i i s hrun
        exact .inr ⟨i, s, by simp only [perform, hrun, Outcome.jump_bind], h⟩
      · simp at h
  | tick =>
      simp only [step] at h
      split at h
      · rename_i v s hrun
        cases h
        refine .inl ⟨none, ?_, rfl, rfl, rfl, fun _ _ => rfl⟩
        simp only [perform, hrun, Outcome.ret_bind]
      · rename_i i s hrun
        exact .inr ⟨i, s, by simp only [perform, hrun, Outcome.jump_bind], h⟩
      · simp at h

theorem land_log {a a' : Atomic σ φ κ} {j : Nat} (h : a.land j = some a') (i : Nat) :
    a'.log i = a.log i ∨ ∃ c v, a'.log i = a.log i ++ [(some c, v)] ∧
      ∃ q s, a.env i = some (.call c q) ∧ q.run s = .ret v a'.data := by
  simp only [land] at h
  split at h
  · simp at h
  · cases h
    exact .inl rfl
  · rename_i c q htok
    split at h
    · rename_i v s hq
      cases h
      by_cases hi : i = j
      · subst hi
        exact .inr ⟨c, v, by simp [answer], q, a.data, htok, hq⟩
      · exact .inl (by simp [answer, hi])
    · simp at h
  · split at h
    · cases h
      exact .inl rfl
    · simp at h

theorem step_log {S : Sys σ φ κ} {a a' : Atomic σ φ κ} {e : Event κ} (h : a.step S e = some a')
    (i : Nat) : a'.log i = a.log i ∨ ∃ c v, a'.log i = a.log i ++ [(some c, v)] ∧
      ((e = .call c ∧ i = a.cur ∧ perform S e a.data = .ret (some v) a'.data) ∨
        ∃ q s, a.stored S e i = some (.call c q) ∧ q.run s = .ret v a'.data) := by
  cases e with
  | call c =>
      simp only [step] at h
      split at h
      · rename_i v s hrun
        cases h
        by_cases hi : i = a.cur
        · subst hi
          refine .inr ⟨c, v, by simp [answer], .inl ⟨rfl, rfl, ?_⟩⟩
          simp only [perform, hrun, Outcome.ret_bind, answer]
        · exact .inl (by simp [answer, hi])
      · rcases land_log h i with hsame | ⟨c', v, hlog, hq⟩
        · exact .inl hsame
        · exact .inr ⟨c', v, hlog, .inr hq⟩
      · simp at h
  | tick =>
      simp only [step] at h
      split at h
      · cases h
        exact .inl rfl
      · rcases land_log h i with hsame | ⟨c', v, hlog, hq⟩
        · exact .inl hsame
        · exact .inr ⟨c', v, hlog, .inr hq⟩
      · simp at h

def steps (S : Sys σ φ κ) (a : Atomic σ φ κ) : List (Event κ) → Option (Atomic σ φ κ)
  | [] => some a
  | e :: es => (a.step S e).bind (fun a' => a'.steps S es)

theorem steps_append (S : Sys σ φ κ) (a : Atomic σ φ κ) (es es' : List (Event κ)) :
    a.steps S (es ++ es') = (a.steps S es).bind (fun a' => a'.steps S es') := by
  induction es generalizing a with
  | nil => rfl
  | cons e es ih =>
      simp only [List.cons_append, steps]
      cases a.step S e with
      | none => rfl
      | some a' => exact ih a'

theorem steps_induction {S : Sys σ φ κ} {P : Atomic σ φ κ → Prop}
    (hstep : ∀ a e a', P a → a.step S e = some a' → P a') {a a' : Atomic σ φ κ}
    {es : List (Event κ)} (h : a.steps S es = some a') (ha : P a) : P a' := by
  induction es generalizing a with
  | nil => cases h; exact ha
  | cons e es ih =>
      simp only [steps, Option.bind_eq_some_iff] at h
      obtain ⟨a₁, h₁, h₂⟩ := h
      exact ih h₂ (hstep a e a₁ ha h₁)

end Atomic

end Uthreads.AtomicMachine
