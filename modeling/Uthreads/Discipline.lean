import Uthreads.SignalMachine

namespace Uthreads.Discipline

open Program

variable {σ φ α β : Type}

/-- Code that only has to return v: it writes and saves nothing, and may
unblock the signal. -/
inductive Quiet (I : σ → Prop) (v : α) : Prog σ φ α → Prop
  | pure : Quiet I v (.pure v)
  | get {k : σ → Prog σ φ α} (h : ∀ s, Quiet I v (k s)) : Quiet I v (.get k)
  | unmask {sel : σ → Bool} {k : Prog σ φ α} (hsel : ∀ s, I s → sel s = true) (h : Quiet I v k) :
      Quiet I v (.sigprocmask false sel k)
  | note {n : Note φ} {k : Prog σ φ α} (h : Quiet I v k) : Quiet I v (.note n k)

inductive Closing (I : σ → Prop) (v : α) : Prog σ φ α → Prop
  | get {k : σ → Prog σ φ α} (h : ∀ s, Closing I v (k s)) : Closing I v (.get k)
  | unmask {sel : σ → Bool} {k : Prog σ φ α} (hsel : ∀ s, I s → sel s = true) (h : Quiet I v k) :
      Closing I v (.sigprocmask false sel k)
  | note {n : Note φ} {k : Prog σ φ α} (h : Closing I v k) : Closing I v (.note n k)

inductive Leaves : Prog σ φ α → Prop
  | leave (k : Prog σ φ α) : Leaves (.note .leave k)

/-- Code that runs with the signal blocked and leaves it so, d activations deep. It
makes no context and saves no point. -/
inductive Steady (I : σ → Prop) : Nat → Prog σ φ α → Prop
  | pure {v : α} : Steady I 0 (.pure v)
  | get {d : Nat} {k : σ → Prog σ φ α} (h : ∀ s, Steady I d (k s)) : Steady I d (.get k)
  | set {d : Nat} {f : σ → σ} {k : Prog σ φ α} (hf : ∀ s, I s → I (f s)) (h : Steady I d k) :
      Steady I d (.set f k)
  | mask {d : Nat} {sel : σ → Bool} {k : Prog σ φ α} (h : Steady I d k) :
      Steady I d (.sigprocmask true sel k)
  | longjmp {d i : Nat} : Steady I d (.siglongjmp i)
  | enter {d : Nat} {f : φ} {k : Prog σ φ α} (h : Steady I (d + 1) k) : Steady I d (.note (.enter f) k)
  | leave {d : Nat} {k : Prog σ φ α} (h : Steady I d k) : Steady I (d + 1) (.note .leave k)
  | print {d : Nat} {text : String} {k : Prog σ φ α} (h : Steady I d k) :
      Steady I d (.note (.print text) k)
  | exit {d : Nat} {c : Int} : Steady I d (.exit c)
  | fault {d : Nat} {why : String} : Steady I d (.fault why)

/-- Code that runs with the signal blocked until it unblocks it or jumps, at least
d activations deep. It saves a point in an activation only. Once it has done so
it has to jump, and the saved point has only to return. It may return with the
signal blocked if r holds. -/
inductive Section (I : σ → Prop) (r : Prop) : Bool → Nat → Prog σ φ α → Prop
  | pure {d : Nat} {v : α} (h : r) : Section I r false d (.pure v)
  | get {l : Bool} {d : Nat} {k : σ → Prog σ φ α} (h : ∀ s, Section I r l d (k s)) :
      Section I r l d (.get k)
  | set {l : Bool} {d : Nat} {f : σ → σ} {k : Prog σ φ α} (hf : ∀ s, I s → I (f s))
      (h : Section I r l d k) : Section I r l d (.set f k)
  | mask {l : Bool} {d : Nat} {sel : σ → Bool} {k : Prog σ φ α} (h : Section I r l d k) :
      Section I r l d (.sigprocmask true sel k)
  | unmask {d : Nat} {v : α} {sel : σ → Bool} {k : Prog σ φ α} (hsel : ∀ s, I s → sel s = true)
      (h : Quiet I v k) : Section I r false d (.sigprocmask false sel k)
  | setjmp {d : Nat} {v : α} {i : Nat} {k : Bool → Prog σ φ α} (h : Section I r true (d + 1) (k false))
      (hl : Leaves (k false)) (ht : Closing I v (k true)) : Section I r false (d + 1) (.sigsetjmp i k)
  | longjmp {l : Bool} {d i : Nat} : Section I r l d (.siglongjmp i)
  | make {l : Bool} {d i e : Nat} {k : Prog σ φ α} (h : Section I r l d k) :
      Section I r l d (.makecontext i e false k)
  | note {l : Bool} {d : Nat} {n : Note φ} {k : Prog σ φ α} (h : Section I r l (n.depth d) k) :
      Section I r l d (.note n k)
  | exit {l : Bool} {d : Nat} {c : Int} : Section I r l d (.exit c)
  | fault {l : Bool} {d : Nat} {why : String} : Section I r l d (.fault why)

/-- Code that nothing protects yet: it blocks the signal before all else, or
reads the data once and returns. -/
inductive Opening (I : σ → Prop) (r : Prop) : Prog σ φ α → Prop
  | mask {sel : σ → Bool} {k : Prog σ φ α} (hsel : ∀ s, I s → sel s = true)
      (h : Section I r false 0 k) : Opening I r (.sigprocmask true sel k)
  | read {k : σ → Prog σ φ α} (h : ∀ s, ∃ v, Quiet I v (k s)) : Opening I r (.get k)
  | note {n : Note φ} {k : Prog σ φ α} (h : Opening I r k) : Opening I r (.note n k)

variable {I : σ → Prop} {r : Prop} {l : Bool} {d e : Nat} {v : α} {u : β}
  {p : Prog σ φ α} {f : α → Prog σ φ β}

theorem Quiet.run (h : Quiet I v p) (s : σ) : p.run s = .ret v s := by
  induction h with
  | pure => rfl
  | get h ih => exact ih s
  | unmask hsel h ih => exact ih
  | note h ih => exact ih

theorem Quiet.writes (h : Quiet I v p) (s : σ) : p.writes s = [] := by
  induction h with
  | pure => rfl
  | get h ih => exact ih s
  | unmask hsel h ih => exact ih
  | note h ih => exact ih

theorem Closing.quiet (h : Closing I v p) : Quiet I v p := by
  induction h with
  | get h ih => exact .get ih
  | unmask hsel h => exact .unmask hsel h
  | note h ih => exact .note ih

theorem Section.mono {r' : Prop} (hr : r → r') (h : Section I r l d p) : Section I r' l d p := by
  induction h with
  | pure h => exact .pure (hr h)
  | get h ih => exact .get ih
  | set hs h ih => exact .set hs ih
  | mask h ih => exact .mask ih
  | unmask hsel h => exact .unmask hsel h
  | setjmp h hl ht ih => exact .setjmp ih hl ht
  | longjmp => exact .longjmp
  | make h ih => exact .make ih
  | note h ih => exact .note ih
  | exit => exact .exit
  | fault => exact .fault

theorem Opening.mono {r' : Prop} (hr : r → r') (h : Opening I r p) : Opening I r' p := by
  induction h with
  | mask hsel h => exact .mask hsel (h.mono hr)
  | read h => exact .read h
  | note h ih => exact .note ih

theorem Steady.plain (h : Steady I d p) : p.Plain := by
  intro s
  induction h generalizing s with
  | pure | longjmp | exit | fault => rfl
  | get h ih => exact ih s s
  | set hs h ih => exact ih _
  | mask h ih => exact ih s
  | enter h ih => exact ih s
  | leave h ih => exact ih s
  | print h ih => exact ih s

theorem Quiet.bind (h : Quiet I v p) (hf : Quiet I u (f v)) : Quiet I u (p >>= f) := by
  induction h with
  | pure => exact hf
  | get h ih => exact .get ih
  | unmask hsel h ih => exact .unmask hsel ih
  | note h ih => exact .note ih

theorem Steady.section_bind_of_deep (h : Steady I d p) (hf : ∀ a, Section I r l e (f a)) :
    Section I r l (e + d) (p >>= f) := by
  induction h with
  | pure => exact hf _
  | get h ih => exact .get ih
  | set hs h ih => exact .set hs ih
  | mask h ih => exact .mask ih
  | longjmp => exact .longjmp
  | enter h ih => exact .note ih
  | leave h ih => exact .note ih
  | print h ih => exact .note ih
  | exit => exact .exit
  | fault => exact .fault

theorem Steady.section_bind (h : Steady I 0 p) (hf : ∀ a, Section I r l d (f a)) :
    Section I r l d (p >>= f) :=
  h.section_bind_of_deep hf

theorem Steady.bind_of_deep (h : Steady I d p) (hf : ∀ a, Steady I e (f a)) :
    Steady I (e + d) (p >>= f) := by
  induction h with
  | pure => exact hf _
  | get h ih => exact .get ih
  | set hs h ih => exact .set hs ih
  | mask h ih => exact .mask ih
  | longjmp => exact .longjmp
  | enter h ih => exact .enter ih
  | leave h ih => exact .leave ih
  | print h ih => exact .print ih
  | exit => exact .exit
  | fault => exact .fault

theorem Steady.bind (h : Steady I 0 p) (hf : ∀ a, Steady I 0 (f a)) : Steady I 0 (p >>= f) :=
  h.bind_of_deep hf

theorem Section.bind_of_saved (h : Section I r true d p) : Section I r true d (p >>= f) := by
  generalize hl : true = l at h
  induction h with
  | pure | unmask | setjmp => simp at hl
  | get h ih => exact .get fun s => ih s hl
  | set hs h ih => exact .set hs (ih hl)
  | mask h ih => exact .mask (ih hl)
  | longjmp => exact .longjmp
  | make h ih => exact .make (ih hl)
  | note h ih => exact .note (ih hl)
  | exit => exact .exit
  | fault => exact .fault

theorem Steady.call {g : φ} (h : Steady I 0 p) : Steady I 0 (Prog.call g p) :=
  .enter (h.bind_of_deep (e := 1) fun _ => .leave .pure)

theorem Section.quiet_of_saved {i : Nat} {q : Prog σ φ α} {s : σ} (h : Section I r l d p)
    (hm : .save i q ∈ p.writes s) : ∃ v, Quiet I v q := by
  induction h generalizing s with
  | pure | longjmp | exit | fault => exact absurd hm List.not_mem_nil
  | get h ih => exact ih s hm
  | set hs h ih => exact ih hm
  | mask h ih => exact ih hm
  | unmask hsel h => exact absurd (h.writes s ▸ hm) List.not_mem_nil
  | setjmp h hl ht ih =>
      rcases List.mem_cons.mp hm with heq | hm
      · obtain ⟨-, rfl⟩ := Write.save.inj heq
        exact ⟨_, ht.quiet⟩
      · exact ih hm
  | make h ih => exact ih ((List.mem_cons.mp hm).resolve_left (by simp))
  | note h ih => exact ih hm

theorem Opening.quiet_of_saved {i : Nat} {q : Prog σ φ α} {s : σ} (h : Opening I r p)
    (hm : .save i q ∈ p.writes s) : ∃ v, Quiet I v q := by
  induction h with
  | mask hsel h => exact h.quiet_of_saved hm
  | read h =>
      obtain ⟨v, hq⟩ := h s
      exact absurd (hq.writes s ▸ hm) List.not_mem_nil
  | note h ih => exact ih hm

end Uthreads.Discipline
