import Uthreads.Program

namespace Uthreads.SignalMachine

open Program

structure Sys (σ φ κ : Type) where
  api : κ → Prog σ φ Int
  handler : Prog σ φ Unit
  armed : σ → Bool

/-- What the processor executes: the user code of a thread, a call that user
code made (none is the initial one), or the handler above the control it
interrupted. The flag records whether the operation has written data. -/
inductive Ctl (σ φ κ : Type)
  | user
  | call (c : Option κ) (dirty : Bool) (p : Prog σ φ Int)
  | handler (dirty : Bool) (p : Prog σ φ Unit) (mask : Bool) (below : Ctl σ φ κ)
  | exited (code : Int)
  | faulted (why : String)

/-- Where a buffer continues. A saved point carries the number of its sigsetjmp. -/
inductive Point (σ φ κ : Type)
  | entry (e : Nat)
  | resume (n : Nat) (c : Ctl σ φ κ)

structure Ctx (σ φ κ : Type) where
  owner : Nat
  point : Point σ φ κ
  mask : Bool
  acts : List (Nat × φ)

/-- The fields from acted on are history, read by no transition. Activations
are numbered; acts is the call stack, innermost first. -/
structure Machine (σ φ κ : Type) where
  data : σ
  masked : Bool
  pending : Option Nat
  ctl : Ctl σ φ κ
  cur : Nat
  env : Nat → Option (Ctx σ φ κ)
  acts : List (Nat × φ)
  acted : Nat
  returned : List Nat
  saved : Nat
  lastSave : Nat → Option Nat
  resumed : List Nat
  entries : Nat → Option Nat
  ran : List Nat
  clock : Nat
  started : Nat
  stderr : List String
  log : Nat → List (Option κ × Int)

variable {σ φ κ α : Type}

namespace Machine

def boot (s : σ) (masked : Bool) (init : Prog σ φ Int) : Machine σ φ κ where
  data := s
  masked := masked
  pending := none
  ctl := .call none false init
  cur := 0
  env := fun _ => none
  acts := []
  acted := 0
  returned := []
  saved := 0
  lastSave := fun _ => none
  resumed := []
  entries := fun _ => none
  ran := [0]
  clock := 0
  started := 0
  stderr := []
  log := fun _ => []

def Running : Ctl σ φ κ → Bool
  | .exited _ | .faulted _ => false
  | _ => true

def due (m : Machine σ φ κ) : Bool := m.pending.isSome && !m.masked

def remark (m : Machine σ φ κ) : Note φ → Machine σ φ κ
  | .enter f => { m with acts := (m.acted, f) :: m.acts, acted := m.acted + 1 }
  | .leave =>
      { m with acts := m.acts.tail, returned := (m.acts.take 1).map Prod.fst ++ m.returned }
  | .print text => { m with stderr := m.stderr ++ [text] }

theorem length_acts_remark (m : Machine σ φ κ) (n : Note φ) :
    (m.remark n).acts.length = n.depth m.acts.length := by
  cases n with
  | enter f => rfl
  | leave => exact List.length_tail
  | print text => rfl

/-- A siglongjmp through a buffer, which starts a quantum of the owner. It restores the
mask and the point in one step. A C library may restore the mask first, and run its last
instructions on the old stack with the signal unblocked: that window is not modelled. -/
def land (m : Machine σ φ κ) (c : Ctx σ φ κ) : Machine σ φ κ :=
  { m with
    masked := c.mask
    ctl := match c.point with
      | .entry _ => .user
      | .resume _ ctl => ctl
    cur := c.owner
    acts := c.acts
    resumed := match c.point with
      | .entry _ => m.resumed
      | .resume n _ => n :: m.resumed
    ran := c.owner :: m.ran
    started := m.clock + 1 }

def node (wrap : Bool → Prog σ φ α → Ctl σ φ κ) (done : α → Machine σ φ κ) (dirty : Bool)
    (m : Machine σ φ κ) : Prog σ φ α → Machine σ φ κ
  | .pure a => done a
  | .get k => { m with ctl := wrap dirty (k m.data) }
  | .set f k => { m with data := f m.data, ctl := wrap true k }
  | .sigprocmask b sel k =>
      { m with masked := if sel m.data then b else m.masked, ctl := wrap dirty k }
  | .sigsetjmp i k =>
      { m with
        env := Function.update m.env i
          (some ⟨m.cur, .resume m.saved (wrap dirty (k true)), m.masked, m.acts⟩)
        saved := m.saved + 1
        lastSave := Function.update m.lastSave m.cur (some m.saved)
        ctl := wrap dirty (k false) }
  | .siglongjmp i =>
      match m.env i with
      | some c => m.land c
      | none => { m with ctl := .faulted "jump through an empty buffer" }
  | .makecontext i e mask k =>
      { m with
        env := Function.update m.env i (some ⟨i, .entry e, mask, []⟩)
        entries := Function.update m.entries i (some e)
        ctl := wrap dirty k }
  | .note n k => { m.remark n with ctl := wrap dirty k }
  | .exit c => { m with ctl := .exited c }
  | .fault why => { m with ctl := .faulted why }

def answer (m : Machine σ φ κ) (c : Option κ) (v : Int) : Machine σ φ κ :=
  { m with ctl := .user, log := Function.update m.log m.cur (m.log m.cur ++ [(c, v)]) }

def exec (m : Machine σ φ κ) : Option (Machine σ φ κ) :=
  match m.ctl with
  | .call c d p => some (m.node (.call c) (m.answer c) d p)
  | .handler d p mask below =>
      some (m.node (fun d p => .handler d p mask below)
        (fun _ => { m with masked := mask, ctl := below }) d p)
  | .user | .exited _ | .faulted _ => none

theorem exec_cases {m m' : Machine σ φ κ} (h : m.exec = some m') :
    (∃ c d p, m.ctl = .call c d p ∧ m' = m.node (.call c) (m.answer c) d p) ∨
    (∃ d p mask below, m.ctl = .handler d p mask below ∧
      m' = m.node (fun d p => .handler d p mask below)
        (fun _ => { m with masked := mask, ctl := below }) d p) := by
  simp only [exec] at h
  split at h
  · rename_i c d p hctl
    exact .inl ⟨c, d, p, hctl, (Option.some.inj h).symm⟩
  · rename_i d p mask below hctl
    exact .inr ⟨d, p, mask, below, hctl, (Option.some.inj h).symm⟩
  all_goals simp at h

theorem node_entries {m : Machine σ φ κ} (wrap : Bool → Prog σ φ α → Ctl σ φ κ)
    (done : α → Machine σ φ κ) (hdone : ∀ v, (done v).entries = m.entries) (d : Bool) (p : Prog σ φ α) :
    (m.node wrap done d p).entries = m.entries ∨ ∃ i e mask k, p = .makecontext i e mask k ∧
      (m.node wrap done d p).entries = Function.update m.entries i (some e) := by
  cases p with
  | pure v => exact .inl (hdone v)
  | makecontext i e mask k => exact .inr ⟨i, e, mask, k, rfl, rfl⟩
  | note n k =>
      rw [node]
      cases n <;> exact .inl rfl
  | siglongjmp i =>
      rw [node]
      cases m.env i <;> exact .inl rfl
  | get | set | sigprocmask | sigsetjmp | exit | fault => exact .inl rfl

theorem exec_entries {m m' : Machine σ φ κ} (h : m.exec = some m') : m'.entries = m.entries ∨
    ∃ i e mask, m'.entries = Function.update m.entries i (some e) ∧
      ((∃ c d k, m.ctl = .call c d (.makecontext i e mask k)) ∨
        ∃ d k mask' below, m.ctl = .handler d (.makecontext i e mask k) mask' below) := by
  rcases exec_cases h with ⟨c, d, p, hctl, rfl⟩ | ⟨d, p, mask', below, hctl, rfl⟩
  · rcases node_entries (.call c) (m.answer c) (fun _ => rfl) d p with
      heq | ⟨i, e, mask, k, rfl, heq⟩
    · exact .inl heq
    · exact .inr ⟨i, e, mask, heq, .inl ⟨c, d, k, hctl⟩⟩
  · rcases node_entries (m := m) (fun d p => .handler d p mask' below)
      (fun _ => { m with masked := mask', ctl := below }) (fun _ => rfl) d p with
      heq | ⟨i, e, mask, k, rfl, heq⟩
    · exact .inl heq
    · exact .inr ⟨i, e, mask, heq, .inr ⟨d, k, mask', below, hctl⟩⟩

def target (m : Machine σ φ κ) : Option (Ctx σ φ κ) :=
  match m.ctl with
  | .call _ _ (.siglongjmp i) => m.env i
  | .handler _ (.siglongjmp i) _ _ => m.env i
  | _ => none

end Machine

inductive Label (κ : Type)
  | expire
  | deliver
  | exec
  | call (c : κ)

namespace Machine

/-- The timer may expire at any step while it is armed; the expiry sets the
pending bit, stamped with its time. An unblocked pending signal is delivered
before any other step, and the handler runs with the signal blocked. -/
def advance (S : Sys σ φ κ) (m : Machine σ φ κ) : Label κ → Option (Machine σ φ κ)
  | .expire =>
      if S.armed m.data && Running m.ctl then
        some { m with pending := m.pending.or (some m.clock) } else none
  | .deliver =>
      if m.due && Running m.ctl then
        some { m with
          pending := none
          masked := true
          ctl := .handler false S.handler m.masked m.ctl }
      else none
  | .exec => if m.due then none else m.exec
  | .call c =>
      match m.ctl with
      | .user => if m.due then none else some { m with ctl := .call (some c) false (S.api c) }
      | _ => none

def step (S : Sys σ φ κ) (m : Machine σ φ κ) (l : Label κ) : Option (Machine σ φ κ) :=
  (m.advance S l).map (fun m' : Machine σ φ κ => { m' with clock := m.clock + 1 })

def steps (S : Sys σ φ κ) (m : Machine σ φ κ) : List (Label κ) → Option (Machine σ φ κ)
  | [] => some m
  | l :: ls => (m.step S l).bind (fun m' => m'.steps S ls)

theorem steps_induction_of_mem {S : Sys σ φ κ} {P : Machine σ φ κ → Prop} {m m' : Machine σ φ κ}
    {ls : List (Label κ)} (hstep : ∀ m, ∀ l ∈ ls, ∀ m', P m → m.step S l = some m' → P m')
    (h : m.steps S ls = some m') (hm : P m) : P m' := by
  induction ls generalizing m with
  | nil => cases h; exact hm
  | cons l ls ih =>
      simp only [steps, Option.bind_eq_some_iff] at h
      obtain ⟨m₁, h₁, h₂⟩ := h
      have hm₁ : P m₁ := hstep m l List.mem_cons_self m₁ hm h₁
      exact ih (fun m l hl => hstep m l (List.mem_cons_of_mem _ hl)) h₂ hm₁

theorem steps_induction {S : Sys σ φ κ} {P : Machine σ φ κ → Prop}
    (hstep : ∀ m l m', P m → m.step S l = some m' → P m') {m m' : Machine σ φ κ}
    {ls : List (Label κ)} (h : m.steps S ls = some m') (hm : P m) : P m' :=
  steps_induction_of_mem (fun m l _ => hstep m l) h hm

theorem steps_append (S : Sys σ φ κ) (m : Machine σ φ κ) (ls ls' : List (Label κ)) :
    m.steps S (ls ++ ls') = (m.steps S ls).bind (fun m' => m'.steps S ls') := by
  induction ls generalizing m with
  | nil => rfl
  | cons l ls ih =>
      simp only [List.cons_append, steps]
      cases m.step S l with
      | none => rfl
      | some m' => exact ih m'

theorem steps_concat {S : Sys σ φ κ} {m m' : Machine σ φ κ} {ls : List (Label κ)} {l : Label κ}
    (h : m.steps S (ls ++ [l]) = some m') :
    ∃ m₁, m.steps S ls = some m₁ ∧ m₁.step S l = some m' := by
  rw [steps_append, Option.bind_eq_some_iff] at h
  obtain ⟨m₁, h₁, h₂⟩ := h
  simp only [steps, Option.bind_eq_some_iff, Option.some.injEq] at h₂
  obtain ⟨m₂, h₂, rfl⟩ := h₂
  exact ⟨m₁, h₁, h₂⟩

theorem step_cases {S : Sys σ φ κ} {m m' : Machine σ φ κ} {l : Label κ}
    (h : m.step S l = some m') :
    (l = .expire ∧ S.armed m.data = true ∧ Running m.ctl = true ∧
      m' = { m with pending := m.pending.or (some m.clock), clock := m.clock + 1 }) ∨
    (l = .deliver ∧ m.masked = false ∧ m.pending.isSome = true ∧ Running m.ctl = true ∧
      m' = { m with
        pending := none, masked := true, clock := m.clock + 1
        ctl := .handler false S.handler false m.ctl }) ∨
    (l = .exec ∧ m.due = false ∧ ∃ m₁, m.exec = some m₁ ∧ m' = { m₁ with clock := m.clock + 1 }) ∨
    (∃ c, l = .call c ∧ m.ctl = .user ∧ m.due = false ∧
      m' = { m with ctl := .call (some c) false (S.api c), clock := m.clock + 1 }) := by
  simp only [step, Option.map_eq_some_iff] at h
  obtain ⟨m₁, h, rfl⟩ := h
  cases l with
  | expire =>
      simp only [advance, Option.ite_none_right_eq_some, Option.some.injEq, Bool.and_eq_true] at h
      obtain ⟨⟨ha, hr⟩, rfl⟩ := h
      exact .inl ⟨rfl, ha, hr, rfl⟩
  | deliver =>
      simp only [advance, Option.ite_none_right_eq_some, Option.some.injEq, Bool.and_eq_true, due,
        Bool.not_eq_true'] at h
      obtain ⟨⟨⟨hp, hm⟩, hr⟩, rfl⟩ := h
      exact .inr (.inl ⟨rfl, hm, hp, hr, by rw [hm]⟩)
  | exec =>
      simp only [advance, Option.ite_none_left_eq_some, Bool.not_eq_true] at h
      exact .inr (.inr (.inl ⟨rfl, h.1, m₁, h.2, rfl⟩))
  | call c =>
      cases hc : m.ctl with
      | user =>
          simp only [advance, hc, Option.ite_none_left_eq_some, Bool.not_eq_true, Option.some.injEq] at h
          obtain ⟨hd, rfl⟩ := h
          exact .inr (.inr (.inr ⟨c, rfl, rfl, hd, rfl⟩))
      | call | handler | exited | faulted => simp [advance, hc] at h

end Machine

end Uthreads.SignalMachine
