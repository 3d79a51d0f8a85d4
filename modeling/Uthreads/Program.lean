import Mathlib

namespace Uthreads.Program

variable {σ φ α β γ : Type}

/-- Marks that leave the data alone: entering and leaving a function, and
writing a line to the standard error stream. -/
inductive Note (φ : Type)
  | enter (f : φ)
  | leave
  | print (text : String)

def Note.depth : Note φ → Nat → Nat
  | .enter _, d => d + 1
  | .leave, d => d - 1
  | .print _, d => d

theorem Note.depth_mono (n : Note φ) {d d' : Nat} (h : d ≤ d') : n.depth d ≤ n.depth d' := by
  cases n with
  | enter f => exact Nat.succ_le_succ h
  | leave => exact Nat.sub_le_sub_right h 1
  | print text => exact h

/-- Code for one processor with one maskable signal, one atomic step for each
constructor. The buffers of the jumps and the made contexts are numbered. A
sigsetjmp continues with false when it saves and with true when a siglongjmp
to its buffer returns through it. -/
inductive Prog (σ φ α : Type)
  | pure (a : α)
  | get (k : σ → Prog σ φ α)
  | set (f : σ → σ) (k : Prog σ φ α)
  | sigprocmask (block : Bool) (sel : σ → Bool) (k : Prog σ φ α)
  | sigsetjmp (i : Nat) (k : Bool → Prog σ φ α)
  | siglongjmp (i : Nat)
  | makecontext (i entry : Nat) (mask : Bool) (k : Prog σ φ α)
  | note (n : Note φ) (k : Prog σ φ α)
  | exit (code : Int)
  | fault (why : String)

namespace Prog

def bind : Prog σ φ α → (α → Prog σ φ β) → Prog σ φ β
  | pure a, f => f a
  | get k, f => get (fun s => (k s).bind f)
  | set g k, f => set g (k.bind f)
  | sigprocmask b sel k, f => sigprocmask b sel (k.bind f)
  | sigsetjmp i k, f => sigsetjmp i (fun b => (k b).bind f)
  | siglongjmp i, _ => siglongjmp i
  | makecontext i e m k, f => makecontext i e m (k.bind f)
  | note n k, f => note n (k.bind f)
  | exit c, _ => exit c
  | fault why, _ => fault why

instance : Monad (Prog σ φ) where
  pure := pure
  bind := bind

theorem bind_eq (p : Prog σ φ α) (f : α → Prog σ φ β) : p >>= f = p.bind f := rfl

theorem bind_pure_self (p : Prog σ φ α) : p.bind pure = p := by
  induction p with
  | pure | siglongjmp | exit | fault => rfl
  | get k ih => exact congrArg get (funext ih)
  | set f k ih => exact congrArg (set f) ih
  | sigprocmask b sel k ih => exact congrArg (sigprocmask b sel) ih
  | sigsetjmp i k ih => exact congrArg (sigsetjmp i) (funext ih)
  | makecontext i e m k ih => exact congrArg (makecontext i e m) ih
  | note n k ih => exact congrArg (note n) ih

theorem bind_bind (p : Prog σ φ α) (f : α → Prog σ φ β) (g : β → Prog σ φ γ) :
    (p.bind f).bind g = p.bind (fun a => (f a).bind g) := by
  induction p with
  | pure | siglongjmp | exit | fault => rfl
  | get k ih => exact congrArg get (funext ih)
  | set f k ih => exact congrArg (set f) ih
  | sigprocmask b sel k ih => exact congrArg (sigprocmask b sel) ih
  | sigsetjmp i k ih => exact congrArg (sigsetjmp i) (funext ih)
  | makecontext i e m k ih => exact congrArg (makecontext i e m) ih
  | note n k ih => exact congrArg (note n) ih

instance : LawfulMonad (Prog σ φ) :=
  LawfulMonad.mk' _ bind_pure_self (fun _ _ => rfl) bind_bind

def state : Prog σ φ σ := get pure

def modify (f : σ → σ) : Prog σ φ Unit := set f (pure ())

def print (text : String) : Prog σ φ Unit := note (.print text) (pure ())

/-- A function call: the body runs in an activation of its own. -/
def call (f : φ) (body : Prog σ φ α) : Prog σ φ α :=
  note (.enter f) (body.bind (fun a => note .leave (pure a)))

end Prog

inductive Outcome (σ α : Type)
  | ret (a : α) (s : σ)
  | jump (i : Nat) (s : σ)
  | exit (code : Int) (s : σ)
  | fault (why : String)

namespace Outcome

def bind : Outcome σ α → (α → σ → Outcome σ β) → Outcome σ β
  | ret a s, f => f a s
  | jump i s, _ => jump i s
  | exit c s, _ => exit c s
  | fault why, _ => fault why

@[simp] theorem ret_bind (a : α) (s : σ) (f : α → σ → Outcome σ β) : (ret a s).bind f = f a s := rfl

@[simp] theorem jump_bind (i : Nat) (s : σ) (f : α → σ → Outcome σ β) :
    (jump i s : Outcome σ α).bind f = jump i s := rfl

@[simp] theorem exit_bind (c : Int) (s : σ) (f : α → σ → Outcome σ β) :
    (exit c s : Outcome σ α).bind f = exit c s := rfl

@[simp] theorem fault_bind (why : String) (f : α → σ → Outcome σ β) :
    (fault why : Outcome σ α).bind f = fault why := rfl

end Outcome

namespace Prog

/-- Uninterrupted execution, seen from the data. A sigsetjmp is taken at its
first return; execution ends where the code returns or jumps away. -/
def run : Prog σ φ α → σ → Outcome σ α
  | pure a, s => .ret a s
  | get k, s => (k s).run s
  | set f k, s => k.run (f s)
  | sigprocmask _ _ k, s => k.run s
  | sigsetjmp _ k, s => (k false).run s
  | siglongjmp i, s => .jump i s
  | makecontext _ _ _ k, s => k.run s
  | note _ k, s => k.run s
  | exit c, s => .exit c s
  | fault why, _ => .fault why

@[simp] theorem run_pure (a : α) (s : σ) : (Pure.pure a : Prog σ φ α).run s = .ret a s := rfl

@[simp] theorem run_bind (p : Prog σ φ α) (f : α → Prog σ φ β) (s : σ) :
    (p >>= f).run s = (p.run s).bind (fun a s => (f a).run s) := by
  rw [bind_eq]
  induction p generalizing s with
  | pure | siglongjmp | exit | fault => rfl
  | get k ih => exact ih s s
  | set g k ih => exact ih (g s)
  | sigprocmask _ _ k ih | makecontext _ _ _ k ih | note _ k ih => exact ih s
  | sigsetjmp _ k ih => exact ih false s

@[simp] theorem run_map (g : α → β) (p : Prog σ φ α) (s : σ) :
    (g <$> p).run s = (p.run s).bind (fun a s => .ret (g a) s) :=
  run_bind p (fun a => Pure.pure (g a)) s

@[simp] theorem run_state (s : σ) : (state : Prog σ φ σ).run s = .ret s s := rfl

@[simp] theorem run_modify (f : σ → σ) (s : σ) :
    (modify f : Prog σ φ Unit).run s = .ret () (f s) := rfl

@[simp] theorem run_print (text : String) (s : σ) :
    (print text : Prog σ φ Unit).run s = .ret () s := rfl

@[simp] theorem run_fault (why : String) (s : σ) : (fault why : Prog σ φ α).run s = .fault why := rfl

@[simp] theorem run_exit (c : Int) (s : σ) : (exit c : Prog σ φ α).run s = .exit c s := rfl

@[simp] theorem run_siglongjmp (i : Nat) (s : σ) :
    (siglongjmp i : Prog σ φ α).run s = .jump i s := rfl

@[simp] theorem run_sigprocmask (b : Bool) (sel : σ → Bool) (k : Prog σ φ α) (s : σ) :
    (sigprocmask b sel k).run s = k.run s := rfl

@[simp] theorem run_sigsetjmp (i : Nat) (k : Bool → Prog σ φ α) (s : σ) :
    (sigsetjmp i k).run s = (k false).run s := rfl

@[simp] theorem run_makecontext (i e : Nat) (m : Bool) (k : Prog σ φ α) (s : σ) :
    (makecontext i e m k).run s = k.run s := rfl

@[simp] theorem run_call (f : φ) (p : Prog σ φ α) (s : σ) : (call f p).run s = p.run s := by
  have h := run_bind p (fun a => note .leave (pure a)) s
  rw [bind_eq] at h
  rw [call, run, h]
  cases p.run s <;> rfl

@[simp] theorem run_ite (c : Prop) [Decidable c] (p q : Prog σ φ α) (s : σ) :
    (if c then p else q).run s = if c then p.run s else q.run s := by
  split <;> rfl

end Prog

/-- What an execution stores in a buffer: the point where a sigsetjmp saved,
or the entry point and signal mask of a made context. -/
inductive Write (σ φ α : Type)
  | save (i : Nat) (q : Prog σ φ α)
  | make (i entry : Nat) (mask : Bool)

def Write.andThen (f : α → Prog σ φ β) : Write σ φ α → Write σ φ β
  | save i q => save i (q >>= f)
  | make i e m => make i e m

namespace Prog

def writes : Prog σ φ α → σ → List (Write σ φ α)
  | pure _, _ | siglongjmp _, _ | exit _, _ | fault _, _ => []
  | get k, s => (k s).writes s
  | set f k, s => k.writes (f s)
  | sigprocmask _ _ k, s | note _ k, s => k.writes s
  | sigsetjmp i k, s => .save i (k true) :: (k false).writes s
  | makecontext i e m k, s => .make i e m :: k.writes s

end Prog

def Outcome.writesThen (f : α → Prog σ φ β) : Outcome σ α → List (Write σ φ β)
  | ret a s => (f a).writes s
  | _ => []

@[simp] theorem Outcome.ret_writesThen (f : α → Prog σ φ β) (a : α) (s : σ) :
    (Outcome.ret a s).writesThen f = (f a).writes s := rfl

@[simp] theorem Outcome.jump_writesThen (f : α → Prog σ φ β) (i : Nat) (s : σ) :
    (Outcome.jump i s).writesThen f = [] := rfl

namespace Prog

@[simp] theorem writes_pure (a : α) (s : σ) : (Pure.pure a : Prog σ φ α).writes s = [] := rfl

@[simp] theorem writes_bind (p : Prog σ φ α) (f : α → Prog σ φ β) (s : σ) :
    (p >>= f).writes s = (p.writes s).map (Write.andThen f) ++ (p.run s).writesThen f := by
  rw [bind_eq]
  induction p generalizing s with
  | pure | siglongjmp | exit | fault => rfl
  | get k ih => exact ih s s
  | set g k ih => exact ih (g s)
  | sigprocmask _ _ k ih | note _ k ih => exact ih s
  | sigsetjmp _ k ih => exact congrArg (List.cons _) (ih false s)
  | makecontext _ _ _ k ih => exact congrArg (List.cons _) (ih s)

@[simp] theorem writes_state (s : σ) : (state : Prog σ φ σ).writes s = [] := rfl

@[simp] theorem writes_modify (f : σ → σ) (s : σ) : (modify f : Prog σ φ Unit).writes s = [] := rfl

@[simp] theorem writes_print (text : String) (s : σ) :
    (print text : Prog σ φ Unit).writes s = [] := rfl

@[simp] theorem writes_call (f : φ) (p : Prog σ φ α) (s : σ) :
    (call f p).writes s = (p.writes s).map (Write.andThen (fun a => note .leave (pure a))) := by
  have h := writes_bind p (fun a => note .leave (pure a)) s
  rw [bind_eq] at h
  rw [call, writes, h]
  cases p.run s <;> simp [Outcome.writesThen, writes]

def Plain (p : Prog σ φ α) : Prop := ∀ s, p.writes s = []

theorem writes_bind_plain {f : α → Prog σ φ β} (hf : ∀ a, Plain (f a)) (p : Prog σ φ α) (s : σ) :
    (p >>= f).writes s = (p.writes s).map (Write.andThen f) := by
  rw [writes_bind]
  cases p.run s with
  | ret a s' => rw [Outcome.ret_writesThen, hf a s', List.append_nil]
  | jump | exit | fault => exact List.append_nil _

theorem Plain.bind {p : Prog σ φ α} {f : α → Prog σ φ β} (hp : Plain p) (hf : ∀ a, Plain (f a)) :
    Plain (p >>= f) := by
  intro s
  rw [writes_bind_plain hf, hp s, List.map_nil]

theorem Plain.call {f : φ} {p : Prog σ φ α} (hp : Plain p) : Plain (Prog.call f p) := by
  intro s
  rw [writes_call, hp s, List.map_nil]

theorem writes_after {p : Prog σ φ α} {f : α → Prog σ φ β} {s s' : σ} {a : α}
    (hw : p.writes s = []) (hrun : p.run s = .ret a s') : (p >>= f).writes s = (f a).writes s' := by
  rw [writes_bind, hw, hrun, Outcome.ret_writesThen]
  rfl

/-- Code that from s on stores one point, in buffer i; the point returns v. -/
def Saves (p : Prog σ φ α) (s : σ) (i : Nat) (v : α) : Prop :=
  ∃ q, p.writes s = [.save i q] ∧ ∀ s', q.run s' = .ret v s'

theorem Saves.bind {p : Prog σ φ α} {f : α → Prog σ φ β} {s : σ} {i : Nat} {v : α} {u : β}
    (h : Saves p s i v) (hf : ∀ a, Plain (f a)) (hv : ∀ s', (f v).run s' = .ret u s') :
    Saves (p >>= f) s i u := by
  obtain ⟨q, hw, hq⟩ := h
  refine ⟨q >>= f, ?_, fun s' => ?_⟩
  · rw [writes_bind_plain hf, hw]
    rfl
  · rw [run_bind, hq, Outcome.ret_bind, hv]

theorem Saves.after {p : Prog σ φ α} {f : α → Prog σ φ β} {s s' : σ} {i : Nat} {a : α} {u : β}
    (hw : p.writes s = []) (hrun : p.run s = .ret a s') (h : Saves (f a) s' i u) :
    Saves (p >>= f) s i u := by
  obtain ⟨q, hf, hq⟩ := h
  exact ⟨q, (writes_after hw hrun).trans hf, hq⟩

theorem Saves.call {f : φ} {p : Prog σ φ α} {s : σ} {i : Nat} {v : α} (h : Saves p s i v) :
    Saves (Prog.call f p) s i v :=
  h.bind (fun _ _ => rfl) (fun _ => rfl)

@[simp] theorem writes_ite (c : Prop) [Decidable c] (p q : Prog σ φ α) (s : σ) :
    (if c then p else q).writes s = if c then p.writes s else q.writes s := by
  split <;> rfl

section AtEnter

variable [DecidableEq φ] (g : φ)

/-- The data with which an uninterrupted execution first enters the function g. -/
def atEnter : Prog σ φ α → σ → Option σ
  | pure _, _ | siglongjmp _, _ | exit _, _ | fault _, _ => none
  | get k, s => (k s).atEnter s
  | set f k, s => k.atEnter (f s)
  | sigprocmask _ _ k, s | makecontext _ _ _ k, s => k.atEnter s
  | sigsetjmp _ k, s => (k false).atEnter s
  | note (.enter f) k, s => if f = g then some s else k.atEnter s
  | note .leave k, s | note (.print _) k, s => k.atEnter s

theorem atEnter_bind (p : Prog σ φ α) (f : α → Prog σ φ β) (s : σ) :
    (p >>= f).atEnter g s = (p.atEnter g s).or
      (match p.run s with
        | .ret a s' => (f a).atEnter g s'
        | _ => none) := by
  rw [bind_eq]
  induction p generalizing s with
  | pure | siglongjmp | exit | fault => rfl
  | get k ih => exact ih s s
  | set h k ih => exact ih (h s)
  | sigprocmask _ _ k ih | makecontext _ _ _ k ih => exact ih s
  | sigsetjmp _ k ih => exact ih false s
  | note n k ih =>
      cases n with
      | enter h =>
          simp only [bind, atEnter, run]
          split
          · rfl
          · exact ih s
      | leave | print => exact ih s

def Avoids (p : Prog σ φ α) : Prop := ∀ s, p.atEnter g s = none

variable {g}

theorem atEnter_after {p : Prog σ φ α} {f : α → Prog σ φ β} {s s' : σ} {a : α} (hp : Avoids g p)
    (hrun : p.run s = .ret a s') : (p >>= f).atEnter g s = (f a).atEnter g s' := by
  rw [atEnter_bind, hp s, hrun, Option.none_or]

theorem Avoids.bind {p : Prog σ φ α} {f : α → Prog σ φ β} (hp : Avoids g p)
    (hf : ∀ a, Avoids g (f a)) : Avoids g (p >>= f) := by
  intro s
  rw [atEnter_bind, hp s, Option.none_or]
  cases p.run s with
  | ret a s' => exact hf a s'
  | jump | exit | fault => rfl

theorem atEnter_call {f : φ} (hf : f ≠ g) (p : Prog σ φ α) (s : σ) :
    (call f p).atEnter g s = p.atEnter g s := by
  have h := atEnter_bind g p (fun a => note .leave (pure a)) s
  rw [bind_eq] at h
  rw [call, atEnter, if_neg hf, h]
  cases p.run s with
  | ret | jump | exit | fault => exact Option.or_none

theorem Avoids.call {f : φ} {p : Prog σ φ α} (hf : f ≠ g) (hp : Avoids g p) :
    Avoids g (Prog.call f p) := by
  intro s
  rw [atEnter_call hf, hp s]

theorem Avoids.ite {c : Prop} [Decidable c] {p q : Prog σ φ α} (hp : Avoids g p)
    (hq : Avoids g q) : Avoids g (if c then p else q) := by
  split
  · exact hp
  · exact hq

end AtEnter

end Prog

end Uthreads.Program
