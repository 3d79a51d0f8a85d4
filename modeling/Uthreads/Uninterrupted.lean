import Uthreads.AtomicMachine
import Uthreads.Discipline

namespace Uthreads.Uninterrupted

open Program SignalMachine AtomicMachine

variable {σ φ κ α : Type} {S : Sys σ φ κ} {m m' m'' : Machine σ φ κ} {a a' : Atomic σ φ κ}
  {tokens : Nat → Option (Token σ φ κ)} {i : Nat}

def Reaches (S : Sys σ φ κ) (m m' : Machine σ φ κ) : Prop := ∃ ls, m.steps S ls = some m'

theorem Reaches.refl (m : Machine σ φ κ) : Reaches S m m := ⟨[], rfl⟩

theorem Reaches.trans (h : Reaches S m m') (h' : Reaches S m' m'') : Reaches S m m'' := by
  obtain ⟨ls, hls⟩ := h
  obtain ⟨ls', hls'⟩ := h'
  exact ⟨ls ++ ls', by rw [Machine.steps_append, hls, Option.bind_some, hls']⟩

theorem Reaches.step {l : Label κ} (h : m.step S l = some m') : Reaches S m m' :=
  ⟨[l], by rw [Machine.steps, h]; rfl⟩

theorem reaches_exec {m₁ : Machine σ φ κ} (hp : m.pending = none) (h : m.exec = some m₁) :
    Reaches S m { m₁ with clock := m.clock + 1 } := by
  apply Reaches.step (l := .exec)
  have hdue : m.due = false := by simp [Machine.due, hp]
  rw [Machine.step, Machine.advance, hdue, h]
  rfl

/-- The context c is what the content tok of buffer i stands for. A handler that
waits has interrupted user code. -/
def Stands (tok : Token σ φ κ) (i : Nat) (c : Ctx σ φ κ) : Prop :=
  c.owner = i ∧ match tok with
    | .entry e => c.point = .entry e
    | .call k q => ∃ n d, c.point = .resume n (.call (some k) d q)
    | .tick q => ∃ n d mask, c.point = .resume n (.handler d q mask .user)

def Covers (env : Nat → Option (Ctx σ φ κ)) (tokens : Nat → Option (Token σ φ κ)) : Prop :=
  ∀ i tok, tokens i = some tok → ∃ c, env i = some c ∧ Stands tok i c

theorem Covers.update {env : Nat → Option (Ctx σ φ κ)} (h : Covers env tokens)
    {tok : Token σ φ κ} {c : Ctx σ φ κ} (hs : Stands tok i c) :
    Covers (Function.update env i (some c)) (Function.update tokens i (some tok)) := by
  intro j tok' hj
  by_cases hi : j = i
  · subst hi
    rw [Function.update_self, Option.some.injEq] at hj
    exact ⟨c, Function.update_self .., hj ▸ hs⟩
  · rw [Function.update_of_ne hi] at hj
    rw [Function.update_of_ne hi]
    exact h j tok' hj

theorem Covers.erase {env : Nat → Option (Ctx σ φ κ)} (h : Covers env tokens) (i : Nat) :
    Covers env (Function.update tokens i none) := by
  intro j tok hj
  by_cases hi : j = i
  · rw [hi, Function.update_self] at hj
    cases hj
  · rw [Function.update_of_ne hi] at hj
    exact h j tok hj

def Executes (wrap : Bool → Prog σ φ α → Ctl σ φ κ) (done : Machine σ φ κ → α → Machine σ φ κ) :
    Prop :=
  ∀ (m : Machine σ φ κ) d p, m.ctl = wrap d p → m.exec = some (m.node wrap (done m) d p)

theorem executes_call (c : Option κ) :
    Executes (σ := σ) (φ := φ) (.call c) (fun m => m.answer c) := by
  intro m d p h
  rw [Machine.exec, h]

theorem executes_handler (mask : Bool) (below : Ctl σ φ κ) :
    Executes (fun d p => .handler d p mask below)
      (fun m _ => { m with masked := mask, ctl := below }) := by
  intro m d p h
  rw [Machine.exec, h]

inductive Final : Prog σ φ α → Prop
  | pure (v : α) : Final (.pure v)
  | siglongjmp (i : Nat) : Final (.siglongjmp i)
  | exit (c : Int) : Final (.exit c)
  | fault (why : String) : Final (.fault why)

theorem Final.of_ret {p : Prog σ φ α} {s s' : σ} {v : α} (h : Final p) (hrun : p.run s = .ret v s') :
    p = .pure v ∧ s = s' := by
  cases h with
  | pure u =>
      obtain ⟨rfl, rfl⟩ := Outcome.ret.inj hrun
      exact ⟨rfl, rfl⟩
  | siglongjmp | exit | fault => cases hrun

theorem Final.of_jump {p : Prog σ φ α} {s s' : σ} (h : Final p) (hrun : p.run s = .jump i s') :
    p = .siglongjmp i ∧ s = s' := by
  cases h with
  | siglongjmp j =>
      obtain ⟨rfl, rfl⟩ := Outcome.jump.inj hrun
      exact ⟨rfl, rfl⟩
  | pure | exit | fault => cases hrun

/-- A machine in which p is left of an uninterrupted execution of code. -/
structure Executing (wrap : Bool → Prog σ φ α → Ctl σ φ κ) (tokens : Nat → Option (Token σ φ κ))
    (cur : Nat) (m : Machine σ φ κ) (p : Prog σ φ α) : Prop where
  ctl : ∃ d, m.ctl = wrap d p
  pending : m.pending = none
  cur : m.cur = cur
  covers : Covers m.env tokens

section Run

variable {wrap : Bool → Prog σ φ α → Ctl σ φ κ} {done : Machine σ φ κ → α → Machine σ φ κ}

theorem Executing.next {p : Prog σ φ α} (hw : Executes wrap done)
    (h : Executing wrap tokens i m p) : ∃ d, m.ctl = wrap d p ∧
      Reaches S m { m.node wrap (done m) d p with clock := m.clock + 1 } := by
  obtain ⟨d, hctl⟩ := h.ctl
  exact ⟨d, hctl, reaches_exec h.pending (hw m d p hctl)⟩

/-- The small steps of code that nothing interrupts lead where its execution as a
whole leads, and fill the buffers as it does. -/
theorem Executing.run {p : Prog σ φ α} (mk : Prog σ φ α → Token σ φ κ) (hw : Executes wrap done)
    (h : Executing wrap tokens i m p)
    (hsaves : ∀ j q, .save j q ∈ p.writes m.data → j = i ∧ ∀ n d (c : Ctx σ φ κ), c.owner = j →
      c.point = .resume n (wrap d q) → Stands (mk q) j c) :
    ∃ m' p', Reaches S m m' ∧ Executing wrap (storeAll mk (p.writes m.data) tokens) i m' p' ∧
      Final p' ∧ p'.run m'.data = p.run m.data := by
  induction p generalizing m tokens with
  | pure v => exact ⟨m, _, .refl m, h, .pure v, rfl⟩
  | siglongjmp j => exact ⟨m, _, .refl m, h, .siglongjmp j, rfl⟩
  | exit c => exact ⟨m, _, .refl m, h, .exit c, rfl⟩
  | fault why => exact ⟨m, _, .refl m, h, .fault why, rfl⟩
  | get k ih =>
      obtain ⟨d, -, hr⟩ := h.next (S := S) hw
      have hnext : Executing wrap tokens i
          { m.node wrap (done m) d (.get k) with clock := m.clock + 1 } (k m.data) :=
        ⟨⟨d, rfl⟩, h.pending, h.cur, h.covers⟩
      obtain ⟨m', p', hr', hrest⟩ := ih m.data hnext hsaves
      exact ⟨m', p', hr.trans hr', hrest⟩
  | set f k ih =>
      obtain ⟨d, -, hr⟩ := h.next (S := S) hw
      have hnext : Executing wrap tokens i
          { m.node wrap (done m) d (.set f k) with clock := m.clock + 1 } k :=
        ⟨⟨true, rfl⟩, h.pending, h.cur, h.covers⟩
      obtain ⟨m', p', hr', hrest⟩ := ih hnext hsaves
      exact ⟨m', p', hr.trans hr', hrest⟩
  | sigprocmask b sel k ih =>
      obtain ⟨d, -, hr⟩ := h.next (S := S) hw
      have hnext : Executing wrap tokens i
          { m.node wrap (done m) d (.sigprocmask b sel k) with clock := m.clock + 1 } k :=
        ⟨⟨d, rfl⟩, h.pending, h.cur, h.covers⟩
      obtain ⟨m', p', hr', hrest⟩ := ih hnext hsaves
      exact ⟨m', p', hr.trans hr', hrest⟩
  | sigsetjmp j k ih =>
      obtain ⟨d, -, hr⟩ := h.next (S := S) hw
      obtain ⟨hj, hstands⟩ := hsaves j _ List.mem_cons_self
      have hnext : Executing wrap (Function.update tokens j (some (mk (k true)))) i
          { m.node wrap (done m) d (.sigsetjmp j k) with clock := m.clock + 1 } (k false) :=
        ⟨⟨d, rfl⟩, h.pending, h.cur,
          h.covers.update (hstands m.saved d _ (h.cur.trans hj.symm) rfl)⟩
      obtain ⟨m', p', hr', hrest⟩ := ih false hnext fun j q hm => hsaves j q (List.mem_cons_of_mem _ hm)
      exact ⟨m', p', hr.trans hr', hrest⟩
  | makecontext j e mask k ih =>
      obtain ⟨d, -, hr⟩ := h.next (S := S) hw
      have hnext : Executing wrap (Function.update tokens j (some (.entry e))) i
          { m.node wrap (done m) d (.makecontext j e mask k) with clock := m.clock + 1 } k :=
        ⟨⟨d, rfl⟩, h.pending, h.cur, h.covers.update ⟨rfl, rfl⟩⟩
      obtain ⟨m', p', hr', hrest⟩ := ih hnext fun j q hm => hsaves j q (List.mem_cons_of_mem _ hm)
      exact ⟨m', p', hr.trans hr', hrest⟩
  | note n k ih =>
      obtain ⟨d, -, hr⟩ := h.next (S := S) hw
      have hnode : Executing wrap tokens i
          { m.node wrap (done m) d (.note n k) with clock := m.clock + 1 } k := by
        cases n <;> exact ⟨⟨d, rfl⟩, h.pending, h.cur, h.covers⟩
      have hdata : (m.remark n).data = m.data := by cases n <;> rfl
      obtain ⟨m', p', hr', hexec, hfinal, hrun⟩ := ih hnode (hdata ▸ hsaves)
      refine ⟨m', p', hr.trans hr', ?_, hfinal, ?_⟩
      · exact hdata ▸ hexec
      · rw [hrun]
        exact congrArg k.run hdata

theorem Executing.operate {p : Prog σ φ α} {s : σ} (mk : Prog σ φ α → Token σ φ κ)
    (hw : Executes wrap done) (h : Executing wrap tokens i m p) (hdata : m.data = s)
    (hsaves : ∀ j q, .save j q ∈ p.writes s → j = i ∧ ∀ n d (c : Ctx σ φ κ), c.owner = j →
      c.point = .resume n (wrap d q) → Stands (mk q) j c) :
    ∃ m' p', Reaches S m m' ∧ Executing wrap (storeAll mk (p.writes s) tokens) i m' p' ∧
      Final p' ∧ p'.run m'.data = p.run s := by
  subst hdata
  exact h.run mk hw hsaves

theorem Executing.ret {p : Prog σ φ α} {v : α} {s : σ} (hw : Executes wrap done)
    (h : Executing wrap tokens i m p) (hfinal : Final p) (hrun : p.run m.data = .ret v s) :
    Reaches S m { done m v with clock := m.clock + 1 } ∧ m.data = s := by
  obtain ⟨rfl, hdata⟩ := hfinal.of_ret hrun
  obtain ⟨d, -, hr⟩ := h.next (S := S) hw
  exact ⟨hr, hdata⟩

theorem Executing.finish {p : Prog σ φ α} {v : α} {s : σ} (hw : Executes wrap done)
    (h : Executing wrap tokens i m p) (hplain : p.Plain) (hrun : p.run m.data = .ret v s) :
    ∃ m' : Machine σ φ κ, Reaches S m { done m' v with clock := m'.clock + 1 } ∧ m'.data = s ∧
      m'.pending = none ∧ m'.cur = i ∧ Covers m'.env tokens := by
  obtain ⟨m', p', hr, hexec, hfinal, hrun'⟩ := h.run (S := S) (fun _ => .entry 0) hw
    fun j q hm => by simp [hplain m.data] at hm
  obtain ⟨hr', hdata⟩ := hexec.ret (S := S) hw hfinal (hrun'.trans hrun)
  refine ⟨m', hr.trans hr', hdata, hexec.pending, hexec.cur, ?_⟩
  have hcovers := hexec.covers
  rwa [hplain m.data, storeAll] at hcovers

end Run

/-- In user code, with no signal pending, the machine is where the atomic one is. -/
structure Realizes (m : Machine σ φ κ) (a : Atomic σ φ κ) : Prop where
  ctl : m.ctl = .user
  pending : m.pending = none
  data : m.data = a.data
  cur : m.cur = a.cur
  covers : Covers m.env a.env

def Simple : Token σ φ κ → Prop
  | .entry _ => True
  | .call _ q => q.Plain
  | .tick q => q.Plain

structure Tame (S : Sys σ φ κ) (a : Atomic σ φ κ) : Prop where
  held : ∀ i tok, a.env i = some tok → Simple tok
  call : ∀ c j q, .save j q ∈ (S.api c).writes a.data → j = a.cur ∧ q.Plain
  tick : ∀ j q, .save j q ∈ S.handler.writes a.data → j = a.cur ∧ q.Plain

theorem simple_storeAll (mk : Prog σ φ α → Token σ φ κ) (hmk : ∀ q : Prog σ φ α, q.Plain → Simple (mk q))
    {ws : List (Write σ φ α)} (hws : ∀ j q, .save j q ∈ ws → q.Plain)
    (h : ∀ i tok, tokens i = some tok → Simple tok) :
    ∀ i tok, storeAll mk ws tokens i = some tok → Simple tok := by
  induction ws generalizing tokens with
  | nil => exact h
  | cons write ws ih =>
      have hrest : ∀ j q, .save j q ∈ ws → q.Plain := fun j q hm => hws j q (List.mem_cons_of_mem _ hm)
      have hupdate : ∀ (j : Nat) (tok' : Token σ φ κ), Simple tok' → ∀ i tok,
          Function.update tokens j (some tok') i = some tok → Simple tok := by
        intro j tok' hs i tok hi
        rw [Function.update_apply] at hi
        split at hi
        · exact Option.some.inj hi ▸ hs
        · exact h i tok hi
      cases write with
      | save j q => exact ih hrest (hupdate j _ (hmk q (hws j q List.mem_cons_self)))
      | make j e mask => exact ih hrest (hupdate j (.entry e) trivial)

theorem Tame.stored {e : Event κ} (h : Tame S a) :
    ∀ i tok, a.stored S e i = some tok → Simple tok := by
  cases e with
  | call c => exact simple_storeAll (.call c) (fun _ hq => hq) (fun j q hm => (h.call c j q hm).2) h.held
  | tick => exact simple_storeAll .tick (fun _ hq => hq) (fun j q hm => (h.tick j q hm).2) h.held

section Land

variable {wrap : Bool → Prog σ φ α → Ctl σ φ κ} {done : Machine σ φ κ → α → Machine σ φ κ} {j : Nat}

theorem Executing.land (hw : Executes wrap done)
    (h : Executing wrap a.env j m (.siglongjmp i)) (hdata : m.data = a.data)
    (hsimple : ∀ tok, a.env i = some tok → Simple tok) (hland : a.land i = some a') :
    ∃ m', Reaches S m m' ∧ Realizes m' a' := by
  obtain ⟨d, -, hr⟩ := h.next (S := S) hw
  obtain ⟨tok, htok, -⟩ := Atomic.land_cases hland
  obtain ⟨c, hc, rfl, hpoint⟩ := h.covers i tok htok
  have hnode : m.node wrap (done m) d (.siglongjmp c.owner) = m.land c := by
    rw [Machine.node, hc]
  rw [hnode] at hr
  have hcovers := h.covers.erase c.owner
  cases tok with
  | entry e =>
      simp only [Atomic.land, htok] at hland
      cases hland
      have hctl : (m.land c).ctl = .user := by rw [Machine.land, hpoint]
      exact ⟨_, hr, hctl, h.pending, hdata, rfl, hcovers⟩
  | call k q =>
      simp only [Atomic.land, htok] at hland
      obtain ⟨n, d', hp⟩ := hpoint
      have hctl : (m.land c).ctl = .call (some k) d' q := by rw [Machine.land, hp]
      have hexec : Executing (.call (some k)) (Function.update a.env c.owner none) c.owner
          { m.land c with clock := m.clock + 1 } q := ⟨⟨d', hctl⟩, h.pending, rfl, hcovers⟩
      split at hland
      · rename_i v s hrun
        cases hland
        obtain ⟨m', hr', hd', hpend, hcur, hcov⟩ := hexec.finish (S := S) (executes_call _)
          (hsimple _ htok) ((congrArg q.run hdata).trans hrun)
        exact ⟨_, hr.trans hr', rfl, hpend, hd', hcur, hcov⟩
      · simp at hland
  | tick q =>
      simp only [Atomic.land, htok] at hland
      obtain ⟨n, d', mask, hp⟩ := hpoint
      have hctl : (m.land c).ctl = .handler d' q mask .user := by rw [Machine.land, hp]
      have hexec : Executing (fun d p => .handler d p mask .user)
          (Function.update a.env c.owner none) c.owner
          { m.land c with clock := m.clock + 1 } q := ⟨⟨d', hctl⟩, h.pending, rfl, hcovers⟩
      split at hland
      · rename_i v s hrun
        cases hland
        obtain ⟨m', hr', hd', hpend, hcur, hcov⟩ := hexec.finish (S := S) (executes_handler mask .user)
          (hsimple _ htok) ((congrArg q.run hdata).trans hrun)
        exact ⟨_, hr.trans hr', rfl, hpend, hd', hcur, hcov⟩
      · simp at hland

theorem Executing.jump {p : Prog σ φ α} (hw : Executes wrap done)
    (h : Executing wrap a.env j m p) (hfinal : Final p) (hrun : p.run m.data = .jump i a.data)
    (hsimple : ∀ i tok, a.env i = some tok → Simple tok) (hland : a.land i = some a') :
    ∃ m', Reaches S m m' ∧ Realizes m' a' := by
  obtain ⟨rfl, hdata⟩ := hfinal.of_jump hrun
  exact h.land hw hdata (hsimple i) hland

end Land

theorem Realizes.call {c : κ} (h : Realizes m a) (htame : Tame S a)
    (hs : a.step S (.call c) = some a') : ∃ m', Reaches S m m' ∧ Realizes m' a' := by
  have hstep : m.step S (.call c) =
      some { m with ctl := .call (some c) false (S.api c), clock := m.clock + 1 } := by
    simp [Machine.step, Machine.advance, h.ctl, Machine.due, h.pending]
  have hexec : Executing (.call (some c)) a.env a.cur
      { m with ctl := .call (some c) false (S.api c), clock := m.clock + 1 } (S.api c) :=
    ⟨⟨false, rfl⟩, h.pending, h.cur, h.covers⟩
  obtain ⟨m₁, p, hr, hexec₁, hfinal, hrun⟩ :=
    hexec.operate (S := S) (.call c) (executes_call _) h.data (by
      intro j q hm
      obtain ⟨hj, -⟩ := htame.call c j q hm
      exact ⟨hj, fun n d c ho hp => ⟨ho, n, d, hp⟩⟩)
  have hstart := (Reaches.step hstep).trans hr
  simp only [Atomic.step] at hs
  split at hs
  · rename_i v s hret
    cases hs
    obtain ⟨hr', hd⟩ := hexec₁.ret (S := S) (executes_call _) hfinal (hrun.trans hret)
    exact ⟨_, hstart.trans hr', rfl, hexec₁.pending, hd, hexec₁.cur, hexec₁.covers⟩
  · rename_i i s hjump
    obtain ⟨m', hr', hreal⟩ := Executing.jump (S := S)
      (a := { a with data := s, env := a.stored S (.call c) }) (executes_call (some c)) hexec₁ hfinal
      (hrun.trans hjump) (htame.stored (e := .call c)) hs
    exact ⟨m', hstart.trans hr', hreal⟩
  · simp at hs

theorem Realizes.tick (h : Realizes m a) (htame : Tame S a) (hmask : m.masked = false)
    (harmed : S.armed m.data = true) (hs : a.step S .tick = some a') :
    ∃ m', Reaches S m m' ∧ Realizes m' a' := by
  have hrunning : Machine.Running m.ctl = true := by rw [h.ctl]; rfl
  have hexpire : m.step S .expire =
      some { m with pending := some m.clock, clock := m.clock + 1 } := by
    simp [Machine.step, Machine.advance, harmed, hrunning, h.pending]
  have hdeliver : ({ m with pending := some m.clock, clock := m.clock + 1 } : Machine σ φ κ).step S
      .deliver = some { m with
        pending := none, masked := true, clock := m.clock + 1 + 1
        ctl := .handler false S.handler false .user } := by
    simp [Machine.step, Machine.advance, Machine.due, hmask, h.ctl, Machine.Running]
  have hexec : Executing (fun d p => .handler d p false .user) a.env a.cur
      { m with
        pending := none, masked := true, clock := m.clock + 1 + 1
        ctl := .handler false S.handler false .user } S.handler :=
    ⟨⟨false, rfl⟩, rfl, h.cur, h.covers⟩
  obtain ⟨m₁, p, hr, hexec₁, hfinal, hrun⟩ :=
    hexec.operate (S := S) .tick (executes_handler false .user) h.data (by
      intro j q hm
      obtain ⟨hj, -⟩ := htame.tick j q hm
      exact ⟨hj, fun n d c ho hp => ⟨ho, n, d, false, hp⟩⟩)
  have hstart := ((Reaches.step hexpire).trans (Reaches.step hdeliver)).trans hr
  simp only [Atomic.step] at hs
  split at hs
  · rename_i v s hret
    cases hs
    obtain ⟨hr', hd⟩ := hexec₁.ret (S := S) (executes_handler false .user) hfinal (hrun.trans hret)
    exact ⟨_, hstart.trans hr', rfl, hexec₁.pending, hd, hexec₁.cur, hexec₁.covers⟩
  · rename_i i s hjump
    obtain ⟨m', hr', hreal⟩ := Executing.jump (S := S)
      (a := { a with data := s, env := a.stored S .tick }) (executes_handler false .user) hexec₁ hfinal
      (hrun.trans hjump) (htame.stored (e := .tick)) hs
    exact ⟨m', hstart.trans hr', hreal⟩
  · simp at hs

end Uthreads.Uninterrupted
