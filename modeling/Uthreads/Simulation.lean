import Uthreads.AtomicMachine
import Uthreads.Discipline

namespace Uthreads.Simulation

open Program SignalMachine AtomicMachine Discipline

variable {σ φ κ α : Type}

section Relation

variable (S : Sys σ φ κ) (I : σ → Prop)

/-- Control that no section covers: user code, a call that has not started, or
operations that have only to return. The list holds the answer that is decided
and not yet logged. -/
inductive Idle : Ctl σ φ κ → List (Option κ × Int) → Prop
  | user : Idle .user []
  | opening {c : κ} {p : Prog σ φ Int} (h : Opening I True p)
      (hrun : ∀ s, p.run s = (S.api c).run s) (hwrites : ∀ s, p.writes s = (S.api c).writes s) :
      Idle (.call (some c) false p) []
  | answered {c : Option κ} {d : Bool} {p : Prog σ φ Int} {v : Int} (h : Quiet I v p) :
      Idle (.call c d p) [(c, v)]
  | handler {d mask : Bool} {p : Prog σ φ Unit} {below : Ctl σ φ κ} {xs : List (Option κ × Int)}
      (h : Quiet I () p) (hb : Idle below xs) : Idle (.handler d p mask below) xs

def Suspended (m : Machine σ φ κ) (i : Nat) (ctl : Ctl σ φ κ) : Prop :=
  ∃ n acts, m.env i = some ⟨i, .resume n ctl, true, acts⟩ ∧ m.lastSave i = some n ∧ n ∉ m.resumed

def Holds (m : Machine σ φ κ) (i : Nat) : Token σ φ κ → List (Option κ × Int) → Prop
  | .entry e, xs => xs = [] ∧ m.env i = some ⟨i, .entry e, false, []⟩ ∧ m.entries i = some e
  | .call c q, xs => xs = [] ∧ ∃ d v, Closing I v q ∧ Suspended m i (.call (some c) d q)
  | .tick q, xs => ∃ d mask below, Closing I () q ∧ Idle S I below xs ∧
      Suspended m i (.handler d q mask below)

def Parked (m : Machine σ φ κ) (tokens : Nat → Option (Token σ φ κ))
    (log : Nat → List (Option κ × Int)) (i : Nat) : Prop :=
  ∃ xs, xs.length ≤ 1 ∧ log i = m.log i ++ xs ∧ ∀ tok, tokens i = some tok → Holds S I m i tok xs

/-- The machine and the atomic machine agree on all but the data and the control;
tokens is the content of the buffers, and xs what the running thread is owed. -/
structure Mid (m : Machine σ φ κ) (a : Atomic σ φ κ) (tokens : Nat → Option (Token σ φ κ))
    (xs : List (Option κ × Int)) : Prop where
  cur : a.cur = m.cur
  ran : a.ran = m.ran
  log : a.log m.cur = m.log m.cur ++ xs
  parked : ∀ i, Parked S I m tokens a.log i

/-- The machine is inside the operation with this code, and p is left of it; the
atomic machine stands before the operation. -/
structure Busy (mk : Prog σ φ α → Token σ φ κ) (code : Prog σ φ α) (xs : List (Option κ × Int))
    (l : Bool) (m : Machine σ φ κ) (a : Atomic σ φ κ) (p : Prog σ φ α) : Prop where
  masked : m.masked = true
  sect : ∃ d ≤ m.acts.length, Section I True l d p
  run : code.run a.data = p.run m.data
  stored : ∃ tokens, storeAll mk (code.writes a.data) a.env = storeAll mk (p.writes m.data) tokens ∧
    (∀ x ∈ p.writes m.data, x ∈ code.writes a.data) ∧ (l = false → tokens m.cur = none) ∧
    Mid S I m a tokens xs

inductive Phase (m : Machine σ φ κ) (a : Atomic σ φ κ) : Prop
  | settled (xs : List (Option κ × Int)) (hdata : m.data = a.data) (hmid : Mid S I m a a.env xs)
      (hnone : a.env m.cur = none) (hidle : Idle S I m.ctl xs)
  | call {c : κ} {d l : Bool} {p : Prog σ φ Int} (hctl : m.ctl = .call (some c) d p)
      (hbusy : Busy S I (.call c) (S.api c) [] l m a p)
  | tick {d l mask : Bool} {p : Prog σ φ Unit} {below : Ctl σ φ κ} {xs : List (Option κ × Int)}
      (hctl : m.ctl = .handler d p mask below) (hbelow : Idle S I below xs)
      (hbusy : Busy S I .tick S.handler xs l m a p)
  | exited {c : Int} {e : Event κ} (hctl : m.ctl = .exited c)
      (hexit : perform S e a.data = .exit c m.data)
      (hlog : ∀ i, ∃ xs, xs.length ≤ 1 ∧ a.log i = m.log i ++ xs)

structure Common (m : Machine σ φ κ) : Prop where
  inv : I m.data
  bound : ∀ i n, m.lastSave i = some n → n < m.saved
  inj : ∀ i j n, m.lastSave i = some n → m.lastSave j = some n → i = j
  resumed : m.resumed.Nodup
  resumed_lt : ∀ n ∈ m.resumed, n < m.saved
  shelved : ∀ i c n ctl, m.env i = some c → c.point = .resume n ctl → ∃ xs, Idle S I ctl xs

/-- What an operation must do in the atomic state a for the machine to follow. -/
structure SafeCode (mk : Prog σ φ α → Token σ φ κ) (code : Prog σ φ α) (a : Atomic σ φ κ) :
    Prop where
  no_fault : ∀ why, code.run a.data ≠ .fault why
  saves : ∀ i q, .save i q ∈ code.writes a.data → i = a.cur
  makes : ∀ i e mask, .make i e mask ∈ code.writes a.data → i ≠ a.cur ∧ a.log i = []
  jumps : ∀ i s, code.run a.data = .jump i s → storeAll mk (code.writes a.data) a.env i ≠ none

structure Safe (a : Atomic σ φ κ) : Prop where
  call : ∀ c, SafeCode (.call c) (S.api c) a
  tick : SafeCode .tick S.handler a

def Simulated (a₀ : Atomic σ φ κ) (m : Machine σ φ κ) : Prop :=
  Common S I m ∧ ∃ es a, a₀.steps S es = some a ∧ Phase S I m a

end Relation

variable {S : Sys σ φ κ} {I : σ → Prop} {m m' : Machine σ φ κ} {a : Atomic σ φ κ}

theorem Idle.length_le {ctl : Ctl σ φ κ} {xs : List (Option κ × Int)} (h : Idle S I ctl xs) :
    xs.length ≤ 1 := by
  induction h with
  | user | opening => exact Nat.zero_le 1
  | answered => exact Nat.le_refl 1
  | handler h hb ih => exact ih

theorem Idle.target_none {xs : List (Option κ × Int)} (h : Idle S I m.ctl xs) : m.target = none := by
  generalize hctl : m.ctl = ctl at h
  cases h with
  | user => simp only [Machine.target, hctl]
  | opening h =>
      cases h <;> simp only [Machine.target, hctl]
  | answered h =>
      cases h <;> simp only [Machine.target, hctl]
  | handler h hb =>
      cases h <;> simp only [Machine.target, hctl]

theorem Phase.masked_of_target {c : Ctx σ φ κ} (h : Phase S I m a) (hc : m.target = some c) :
    m.masked = true := by
  cases h with
  | settled xs hdata hmid hnone hidle =>
      rw [hidle.target_none] at hc
      cases hc
  | call hctl hbusy => exact hbusy.masked
  | tick hctl hbelow hbusy => exact hbusy.masked
  | exited hctl => simp [Machine.target, hctl] at hc

section Unseen

variable {tokens : Nat → Option (Token σ φ κ)} {xs : List (Option κ × Int)}

theorem Mid.touch (h : Mid S I m a tokens xs) (data : σ) (masked : Bool) (pending : Option Nat)
    (ctl : Ctl σ φ κ) (clock : Nat) :
    Mid S I { m with data := data, masked := masked, pending := pending, ctl := ctl, clock := clock }
      a tokens xs :=
  ⟨h.cur, h.ran, h.log, h.parked⟩

theorem Mid.remark (h : Mid S I m a tokens xs) (n : Note φ) (ctl : Ctl σ φ κ) :
    Mid S I { m.remark n with ctl := ctl } a tokens xs := by
  cases n <;> exact ⟨h.cur, h.ran, h.log, h.parked⟩

theorem Common.touch (h : Common S I m) {data : σ} (hd : I data) (masked : Bool)
    (pending : Option Nat) (ctl : Ctl σ φ κ) (clock : Nat) :
    Common S I
      { m with data := data, masked := masked, pending := pending, ctl := ctl, clock := clock } :=
  ⟨hd, h.bound, h.inj, h.resumed, h.resumed_lt, h.shelved⟩

theorem Common.remark (h : Common S I m) (n : Note φ) (ctl : Ctl σ φ κ) :
    Common S I { m.remark n with ctl := ctl } := by
  cases n <;> exact ⟨h.inv, h.bound, h.inj, h.resumed, h.resumed_lt, h.shelved⟩

theorem Phase.tick_clock (h : Phase S I m a) (pending : Option Nat) (clock : Nat) :
    Phase S I { m with pending := pending, clock := clock } a := by
  cases h with
  | settled xs hdata hmid hnone hidle =>
      exact .settled _ hdata (hmid.touch _ _ _ _ _) hnone hidle
  | call hctl hbusy =>
      obtain ⟨tokens, hst, hsub, hl, hmid⟩ := hbusy.stored
      exact .call hctl ⟨hbusy.masked, hbusy.sect, hbusy.run, tokens, hst, hsub, hl, hmid.touch _ _ _ _ _⟩
  | tick hctl hbelow hbusy =>
      obtain ⟨tokens, hst, hsub, hl, hmid⟩ := hbusy.stored
      exact .tick hctl hbelow
        ⟨hbusy.masked, hbusy.sect, hbusy.run, tokens, hst, hsub, hl, hmid.touch _ _ _ _ _⟩
  | exited hctl hexit hlog => exact .exited hctl hexit hlog

end Unseen

section Settled

variable {tokens : Nat → Option (Token σ φ κ)} {xs : List (Option κ × Int)} {c : Option κ} {v : Int}

theorem Mid.answer (h : Mid S I m a tokens [(c, v)]) (hnone : tokens m.cur = none) :
    Mid S I (m.answer c v) a tokens [] := by
  refine ⟨h.cur, h.ran, ?_, fun i => ?_⟩
  · simpa [Machine.answer] using h.log
  · by_cases hi : i = m.cur
    · subst hi
      refine ⟨[], Nat.zero_le 1, ?_, fun tok htok => absurd htok (by simp [hnone])⟩
      simpa [Machine.answer] using h.log
    · obtain ⟨ys, hlen, hlog, htok⟩ := h.parked i
      refine ⟨ys, hlen, ?_, htok⟩
      simpa [Machine.answer, hi] using hlog

theorem Common.answer (h : Common S I m) : Common S I (m.answer c v) :=
  ⟨h.inv, h.bound, h.inj, h.resumed, h.resumed_lt, h.shelved⟩

theorem node_quiet (wrap : Bool → Prog σ φ α → Ctl σ φ κ) (done : α → Machine σ φ κ) (d : Bool)
    {p : Prog σ φ α} {v : α} (h : Quiet I v p) :
    m.node wrap done d p = done v ∨ ∃ q, Quiet I v q ∧
      ((∃ b, m.node wrap done d p = { m with masked := b, ctl := wrap d q }) ∨
        ∃ n, m.node wrap done d p = { m.remark n with ctl := wrap d q }) := by
  cases h with
  | pure => exact .inl rfl
  | get h => exact .inr ⟨_, h m.data, .inl ⟨m.masked, rfl⟩⟩
  | @unmask sel k hsel h => exact .inr ⟨k, h, .inl ⟨_, rfl⟩⟩
  | @note n k h => exact .inr ⟨k, h, .inr ⟨n, rfl⟩⟩

theorem Phase.node_quiet (wrap : Bool → Prog σ φ α → Ctl σ φ κ) (done : α → Machine σ φ κ) (d : Bool)
    {p : Prog σ φ α} {v : α} (h : Quiet I v p) (hc : Common S I m) (hdata : m.data = a.data)
    (hmid : Mid S I m a a.env xs) (hnone : a.env m.cur = none)
    (hwrap : ∀ q, Quiet I v q → Idle S I (wrap d q) xs)
    (hdone : Common S I (done v) ∧ Phase S I (done v) a) :
    Common S I (m.node wrap done d p) ∧ Phase S I (m.node wrap done d p) a := by
  rcases Simulation.node_quiet (m := m) wrap done d h with heq | ⟨q, hq, ⟨b, heq⟩ | ⟨n, heq⟩⟩
  · rw [heq]
    exact hdone
  · rw [heq]
    exact ⟨hc.touch hc.inv _ _ _ _, .settled _ hdata (hmid.touch _ _ _ _ _) hnone (hwrap q hq)⟩
  · rw [heq]
    refine ⟨hc.remark n _, .settled _ ?_ (hmid.remark n _) ?_ (hwrap q hq)⟩
    · cases n <;> exact hdata
    · cases n <;> exact hnone

/-- A call that has not started blocks the signal, reads the data, or goes on
to do so. Reading the data is what decides the answer. -/
theorem Phase.node_opening {c : κ} {p : Prog σ φ Int} (h : Opening I True p) (hc : Common S I m)
    (hdata : m.data = a.data) (hmid : Mid S I m a a.env []) (hnone : a.env m.cur = none)
    (hrun : ∀ s, p.run s = (S.api c).run s) (hwrites : ∀ s, p.writes s = (S.api c).writes s) :
    Common S I (m.node (.call (some c)) (m.answer (some c)) false p) ∧ ∃ es a',
      a.steps S es = some a' ∧ Phase S I (m.node (.call (some c)) (m.answer (some c)) false p) a' := by
  cases h with
  | @mask sel k hsel h =>
      rw [Machine.node, if_pos (hsel m.data hc.inv)]
      refine ⟨hc.touch hc.inv _ _ _ _, [], a, rfl, .call rfl ⟨rfl, ⟨0, Nat.zero_le _, h⟩, ?_, ?_⟩⟩
      · exact (hrun a.data).symm.trans (congrArg k.run hdata.symm)
      · refine ⟨a.env, ?_, fun x hx => ?_, fun _ => hnone, hmid.touch _ _ _ _ _⟩
        · rw [← hwrites, ← hdata]
          rfl
        · rw [← hwrites, ← hdata]
          exact hx
  | @read k h =>
      rw [Machine.node]
      obtain ⟨v, hq⟩ := h m.data
      have hrun' : (S.api c).run a.data = .ret v a.data := by
        rw [← hrun, ← hdata]
        exact hq.run m.data
      have hwrites' : (S.api c).writes a.data = [] := by
        rw [← hwrites, ← hdata]
        exact hq.writes m.data
      have hstep : a.step S (.call c) = some (a.answer (some c) v) := by
        simp only [Atomic.step, hrun', hwrites', storeAll]
      refine ⟨hc.touch hc.inv _ _ _ _, [.call c], a.answer (some c) v, ?_, ?_⟩
      · simp only [Atomic.steps, hstep, Option.bind_some]
      · refine .settled [(some c, v)] hdata ⟨hmid.cur, hmid.ran, ?_, fun i => ?_⟩ hnone
          (.answered hq)
        · simpa [Atomic.answer, hmid.cur] using hmid.log
        · by_cases hi : i = m.cur
          · subst hi
            refine ⟨[(some c, v)], Nat.le_refl 1, ?_, fun tok htok => ?_⟩
            · simpa [Atomic.answer, hmid.cur] using hmid.log
            · exact absurd (hnone.symm.trans htok) (by simp)
          · obtain ⟨ys, hlen, hlog, htok⟩ := hmid.parked i
            refine ⟨ys, hlen, ?_, htok⟩
            simpa [Atomic.answer, hmid.cur, hi] using hlog
  | @note n k h =>
      refine ⟨hc.remark n _, [], a, rfl, .settled [] ?_ (hmid.remark n _) ?_ (.opening h hrun hwrites)⟩
      · cases n <;> exact hdata
      · cases n <;> exact hnone

theorem exec_settled (hc : Common S I m) (hdata : m.data = a.data) (hmid : Mid S I m a a.env xs)
    (hnone : a.env m.cur = none) (hidle : Idle S I m.ctl xs) (hx : m.exec = some m') :
    Common S I m' ∧ ∃ es a', a.steps S es = some a' ∧ Phase S I m' a' := by
  generalize hctl : m.ctl = ctl at hidle
  simp only [Machine.exec, hctl] at hx
  cases hidle with
  | user => simp at hx
  | opening h hrun hwrites =>
      cases hx
      exact Phase.node_opening h hc hdata hmid hnone hrun hwrites
  | answered h =>
      cases hx
      obtain ⟨hc', hp⟩ := Phase.node_quiet (.call _) (m.answer _) _ h hc hdata hmid hnone
        (fun q hq => .answered hq)
        ⟨hc.answer, .settled _ hdata (hmid.answer hnone) hnone .user⟩
      exact ⟨hc', [], a, rfl, hp⟩
  | @handler d mask p below xs h hb =>
      cases hx
      have hdone : Phase S I { m with masked := mask, ctl := below } a :=
        .settled _ hdata (hmid.touch _ _ _ _ _) hnone hb
      obtain ⟨hc', hp⟩ := Phase.node_quiet (fun d p => .handler d p mask below)
        (fun _ => { m with masked := mask, ctl := below }) d h hc hdata hmid hnone
        (fun q hq => .handler hq hb) ⟨hc.touch hc.inv _ _ _ _, hdone⟩
      exact ⟨hc', [], a, rfl, hp⟩

end Settled

section Jump

variable {tokens : Nat → Option (Token σ φ κ)} {xs : List (Option κ × Int)} {i n : Nat}

theorem Common.land (h : Common S I m) {c : Ctx σ φ κ}
    (hn : ∀ n ctl, c.point = .resume n ctl → n ∉ m.resumed ∧ n < m.saved) :
    Common S I (m.land c) := by
  refine ⟨h.inv, h.bound, h.inj, ?_, ?_, h.shelved⟩
  · cases hp : c.point with
    | entry e => simpa [Machine.land, hp] using h.resumed
    | resume n ctl => simpa [Machine.land, hp] using ⟨(hn n ctl hp).1, h.resumed⟩
  · cases hp : c.point with
    | entry e => simpa [Machine.land, hp] using h.resumed_lt
    | resume n ctl => simpa [Machine.land, hp] using ⟨(hn n ctl hp).2, h.resumed_lt⟩

theorem Parked.land {log : Nat → List (Option κ × Int)} {j : Nat} (hc : Common S I m)
    (h : Parked S I m tokens log j) (hj : j ≠ i) {c : Ctx σ φ κ}
    (hi : ∀ n ctl, c.point = .resume n ctl → m.lastSave i = some n) :
    Parked S I (m.land c) (Function.update tokens i none) log j := by
  obtain ⟨ys, hlen, hlog, hholds⟩ := h
  refine ⟨ys, hlen, hlog, fun tok htok => ?_⟩
  rw [Function.update_of_ne hj] at htok
  have hsus : ∀ ctl, Suspended m j ctl → Suspended (m.land c) j ctl := by
    rintro ctl ⟨n, acts, henv, hlast, hn⟩
    refine ⟨n, acts, henv, hlast, ?_⟩
    cases hp : c.point with
    | entry e => simpa [Machine.land, hp] using hn
    | resume n' ctl' =>
        have hne : n ≠ n' := fun he => hj (hc.inj j i n hlast (he ▸ hi n' ctl' hp))
        simpa [Machine.land, hp] using ⟨hne, hn⟩
  have hholds := hholds tok htok
  cases tok with
  | entry e => exact hholds
  | call c q =>
      obtain ⟨hxs, d, v, hq, hs⟩ := hholds
      exact ⟨hxs, d, v, hq, hsus _ hs⟩
  | tick q =>
      obtain ⟨d, mask, below, hq, hb, hs⟩ := hholds
      exact ⟨d, mask, below, hq, hb, hsus _ hs⟩

theorem Mid.land_parked (hmid : Mid S I m a tokens xs) (hc : Common S I m) {c : Ctx σ φ κ}
    {log : Nat → List (Option κ × Int)} {zs : List (Option κ × Int)}
    (hi : ∀ n ctl, c.point = .resume n ctl → m.lastSave i = some n) (hlen : zs.length ≤ 1)
    (hlog : log i = m.log i ++ zs) (hother : ∀ j, j ≠ i → log j = a.log j) (j : Nat) :
    Parked S I (m.land c) (Function.update tokens i none) log j := by
  by_cases hj : j = i
  · subst hj
    refine ⟨zs, hlen, hlog, fun tok htok => ?_⟩
    rw [Function.update_self] at htok
    exact absurd htok (by simp)
  · obtain ⟨ys, hys, hl, hholds⟩ := (hmid.parked j).land hc hj hi
    exact ⟨ys, hys, (hother j hj).trans hl, hholds⟩

theorem land_settled {tok : Token σ φ κ} (hc : Common S I m) (hmid : Mid S I m a tokens xs)
    (htok : tokens i = some tok) : ∃ c a', m.env i = some c ∧
      Atomic.land { a with data := m.data, env := tokens } i = some a' ∧
      Common S I (m.land c) ∧ Phase S I (m.land c) a' := by
  obtain ⟨ys, hlen, hlog, hholds⟩ := hmid.parked i
  have hnone : Function.update tokens i none i = none := Function.update_self ..
  have hholds := hholds tok htok
  cases tok with
  | entry e =>
      obtain ⟨rfl, henv, hentry⟩ := hholds
      refine ⟨_, _, henv, by simp only [Atomic.land, htok]; rfl, hc.land (by simp), ?_⟩
      refine .settled [] rfl ⟨rfl, ?_, hlog, ?_⟩ hnone .user
      · exact congrArg (List.cons i) hmid.ran
      · exact hmid.land_parked hc (by simp) hlen hlog fun _ _ => rfl
  | call c q =>
      obtain ⟨rfl, d, v, hq, n, acts, henv, hlast, hn⟩ := hholds
      have hrun := hq.quiet.run m.data
      refine ⟨_, _, henv, by simp only [Atomic.land, htok, hrun]; rfl, hc.land ?_, ?_⟩
      · rintro n' ctl' heq
        cases heq
        exact ⟨hn, hc.bound i n hlast⟩
      · refine .settled [(some c, v)] rfl ⟨rfl, ?_, ?_, ?_⟩ hnone (.answered hq.quiet)
        · exact congrArg (List.cons i) hmid.ran
        · simpa [Atomic.answer, Machine.land] using hlog
        · apply hmid.land_parked hc
          · rintro n' ctl' heq
            cases heq
            exact hlast
          · exact Nat.le_refl [(some c, v)].length
          · simpa [Atomic.answer] using hlog
          · exact fun j hj => by simp [Atomic.answer, hj]
  | tick q =>
      obtain ⟨d, mask, below, hq, hb, n, acts, henv, hlast, hn⟩ := hholds
      have hrun := hq.quiet.run m.data
      refine ⟨_, _, henv, by simp only [Atomic.land, htok, hrun]; rfl, hc.land ?_, ?_⟩
      · rintro n' ctl' heq
        cases heq
        exact ⟨hn, hc.bound i n hlast⟩
      · refine .settled ys rfl ⟨rfl, ?_, hlog, ?_⟩ hnone (.handler hq.quiet hb)
        · exact congrArg (List.cons i) hmid.ran
        · apply hmid.land_parked hc _ hlen hlog fun _ _ => rfl
          rintro n' ctl' heq
          cases heq
          exact hlast

end Jump

section Stores

variable {tokens : Nat → Option (Token σ φ κ)} {xs : List (Option κ × Int)}

theorem Common.save (h : Common S I m) (ctl ctl' : Ctl σ φ κ) (hidle : ∃ xs, Idle S I ctl' xs)
    {masked : Bool} : Common S I
      { m with
        env := Function.update m.env m.cur (some ⟨m.cur, .resume m.saved ctl', masked, m.acts⟩)
        saved := m.saved + 1
        lastSave := Function.update m.lastSave m.cur (some m.saved)
        ctl := ctl } := by
  have hne : ∀ j n, m.lastSave j = some n → n ≠ m.saved := fun j n hj => (h.bound j n hj).ne
  refine ⟨h.inv, fun j n hj => ?_, fun j j' n hj hj' => ?_, h.resumed, ?_, fun j c n ctl₁ hj hp => ?_⟩
  · by_cases hcur : j = m.cur
    · subst hcur
      simp only [Function.update_self, Option.some.injEq] at hj
      exact hj ▸ Nat.lt_succ_self _
    · simp only [Function.update_of_ne hcur] at hj
      exact Nat.lt_succ_of_lt (h.bound j n hj)
  · by_cases hcur : j = m.cur <;> by_cases hcur' : j' = m.cur
    · exact hcur.trans hcur'.symm
    · simp only [hcur, Function.update_self, Function.update_of_ne hcur', Option.some.injEq] at hj hj'
      exact absurd hj.symm (hne j' n hj')
    · simp only [hcur', Function.update_self, Function.update_of_ne hcur, Option.some.injEq] at hj hj'
      exact absurd hj'.symm (hne j n hj)
    · simp only [Function.update_of_ne hcur, Function.update_of_ne hcur'] at hj hj'
      exact h.inj j j' n hj hj'
  · exact fun n hn => Nat.lt_succ_of_lt (h.resumed_lt n hn)
  · by_cases hcur : j = m.cur
    · subst hcur
      simp only [Function.update_self, Option.some.injEq] at hj
      subst hj
      simp only [Point.resume.injEq] at hp
      exact hp.2 ▸ hidle
    · simp only [Function.update_of_ne hcur] at hj
      exact h.shelved j c n ctl₁ hj hp

theorem Common.make (h : Common S I m) (i e : Nat) (ctl : Ctl σ φ κ) {mask : Bool} : Common S I
    { m with
      env := Function.update m.env i (some ⟨i, .entry e, mask, []⟩)
      entries := Function.update m.entries i (some e)
      ctl := ctl } := by
  refine ⟨h.inv, h.bound, h.inj, h.resumed, h.resumed_lt, fun j c n ctl₁ hj hp => ?_⟩
  by_cases hi : j = i
  · subst hi
    simp only [Function.update_self, Option.some.injEq] at hj
    subst hj
    simp at hp
  · simp only [Function.update_of_ne hi] at hj
    exact h.shelved j c n ctl₁ hj hp

theorem Mid.save (h : Mid S I m a tokens xs) (ctl ctl' : Ctl σ φ κ) (hlen : xs.length ≤ 1)
    {masked : Bool} {tok : Token σ φ κ} (htok : Holds S I
      { m with
        env := Function.update m.env m.cur (some ⟨m.cur, .resume m.saved ctl', masked, m.acts⟩)
        saved := m.saved + 1
        lastSave := Function.update m.lastSave m.cur (some m.saved)
        ctl := ctl } m.cur tok xs) : Mid S I
      { m with
        env := Function.update m.env m.cur (some ⟨m.cur, .resume m.saved ctl', masked, m.acts⟩)
        saved := m.saved + 1
        lastSave := Function.update m.lastSave m.cur (some m.saved)
        ctl := ctl } a (Function.update tokens m.cur (some tok)) xs := by
  refine ⟨h.cur, h.ran, h.log, fun j => ?_⟩
  by_cases hj : j = m.cur
  · subst hj
    refine ⟨xs, hlen, h.log, fun tok' htok' => ?_⟩
    rw [Function.update_self, Option.some.injEq] at htok'
    exact htok' ▸ htok
  · obtain ⟨ys, hys, hlog, hh⟩ := h.parked j
    refine ⟨ys, hys, hlog, fun tok' htok' => ?_⟩
    rw [Function.update_of_ne hj] at htok'
    have hh := hh tok' htok'
    cases tok' <;> simpa only [Holds, Suspended, Function.update_of_ne hj] using hh

theorem Mid.make (h : Mid S I m a tokens xs) (i e : Nat) (ctl : Ctl σ φ κ) (hlog : a.log i = []) :
    Mid S I
      { m with
        env := Function.update m.env i (some ⟨i, .entry e, false, []⟩)
        entries := Function.update m.entries i (some e)
        ctl := ctl } a (Function.update tokens i (some (.entry e))) xs := by
  refine ⟨h.cur, h.ran, h.log, fun j => ?_⟩
  obtain ⟨ys, hys, hlog', hh⟩ := h.parked j
  refine ⟨ys, hys, hlog', fun tok htok => ?_⟩
  by_cases hj : j = i
  · subst hj
    rw [Function.update_self, Option.some.injEq] at htok
    subst htok
    refine ⟨?_, Function.update_self .., Function.update_self ..⟩
    exact (List.append_eq_nil_iff.mp (hlog'.symm.trans hlog)).2
  · rw [Function.update_of_ne hj] at htok
    have hh := hh tok htok
    cases tok <;> simpa only [Holds, Suspended, Function.update_of_ne hj] using hh

end Stores

/-- How an operation of the one machine is seen on the other: the code stands
inside wrap, and the thread is owed xs before and out v besides once v is decided. -/
structure Frame (S : Sys σ φ κ) (I : σ → Prop) (mk : Prog σ φ α → Token σ φ κ)
    (wrap : Bool → Prog σ φ α → Ctl σ φ κ) (code : Prog σ φ α) (e : Event κ)
    (xs : List (Option κ × Int)) (out : α → List (Option κ × Int)) : Prop where
  idle : ∀ d q v, Quiet I v q → Idle S I (wrap d q) (xs ++ out v)
  hold : ∀ (m : Machine σ φ κ) i d q v, Closing I v q → Suspended m i (wrap d q) →
    Holds S I m i (mk q) xs
  busy : ∀ (m : Machine σ φ κ) (a : Atomic σ φ κ) l d p, m.ctl = wrap d p →
    Busy S I mk code xs l m a p → Phase S I m a
  ret : ∀ (a : Atomic σ φ κ) v s, code.run a.data = .ret v s → a.step S e = some
    { a with
      data := s
      env := storeAll mk (code.writes a.data) a.env
      log := Function.update a.log a.cur (a.log a.cur ++ out v) }
  jump : ∀ (a : Atomic σ φ κ) i s, code.run a.data = .jump i s → a.step S e =
    Atomic.land { a with data := s, env := storeAll mk (code.writes a.data) a.env } i
  exit : ∀ (a : Atomic σ φ κ) c s, code.run a.data = .exit c s → perform S e a.data = .exit c s

theorem frame_call (c : κ) : Frame S I (.call c) (.call (some c)) (S.api c) (.call c) []
    (fun v => [(some c, v)]) where
  idle := fun d q v hq => .answered hq
  hold := fun m i d q v hq hs => ⟨rfl, d, v, hq, hs⟩
  busy := fun m a l d p hctl hb => .call hctl hb
  ret := fun a v s hrun => by simp only [Atomic.step, hrun, Atomic.answer]
  jump := fun a i s hrun => by simp only [Atomic.step, hrun]
  exit := fun a c' s hrun => by simp only [perform, hrun, Outcome.exit_bind]

theorem frame_tick {mask : Bool} {below : Ctl σ φ κ} {xs : List (Option κ × Int)}
    (hb : Idle S I below xs) : Frame S I .tick (fun d p => .handler d p mask below) S.handler .tick
    xs (fun _ => []) where
  idle := fun d q v hq => by
    rw [List.append_nil]
    exact .handler hq hb
  hold := fun m i d q v hq hs => ⟨d, mask, below, hq, hb, hs⟩
  busy := fun m a l d p hctl hbusy => .tick hctl hb hbusy
  ret := fun a v s hrun => by
    simp only [Atomic.step, hrun, List.append_nil, Function.update_eq_self]
  jump := fun a i s hrun => by simp only [Atomic.step, hrun]
  exit := fun a c s hrun => by simp only [perform, hrun, Outcome.exit_bind]

section Operation

variable {mk : Prog σ φ α → Token σ φ κ} {wrap : Bool → Prog σ φ α → Ctl σ φ κ} {code p : Prog σ φ α}
  {e : Event κ} {xs : List (Option κ × Int)} {out : α → List (Option κ × Int)} {l d : Bool}

/-- Once only the return is left, the atomic machine takes the whole operation. -/
theorem Busy.settle (F : Frame S I mk wrap code e xs out) (hb : Busy S I mk code xs false m a p)
    {v : α} (hq : Quiet I v p) : ∃ a', a.step S e = some a' ∧ m.data = a'.data ∧
      Mid S I m a' a'.env (xs ++ out v) ∧ a'.env m.cur = none := by
  obtain ⟨tokens, hst, hsub, hnone, hmid⟩ := hb.stored
  rw [hq.writes m.data] at hst
  have hnone := hnone rfl
  refine ⟨_, F.ret a v m.data (hb.run.trans (hq.run m.data)), rfl, ?_, ?_⟩
  · rw [hst]
    have hlen := (F.idle true p v hq).length_le
    have hlog : Function.update a.log a.cur (a.log a.cur ++ out v) m.cur =
        m.log m.cur ++ (xs ++ out v) := by
      rw [hmid.cur, Function.update_self, hmid.log, List.append_assoc]
    refine ⟨hmid.cur, hmid.ran, hlog, fun i => ?_⟩
    by_cases hi : i = m.cur
    · subst hi
      exact ⟨_, hlen, hlog, fun tok htok => absurd (hnone.symm.trans htok) (by simp)⟩
    · obtain ⟨ys, hlen, hlog, hh⟩ := hmid.parked i
      refine ⟨ys, hlen, ?_, hh⟩
      simpa [hmid.cur, hi] using hlog
  · rw [hst]
    exact hnone

theorem Busy.setjmp (F : Frame S I mk wrap code e xs out) (hs : SafeCode mk code a)
    (hc : Common S I m) {n i : Nat} {k : Bool → Prog σ φ α} {v : α}
    (hb : Busy S I mk code xs false m a (.sigsetjmp i k)) (hn : n ≤ m.acts.length)
    (h : Section I True true n (k false)) (ht : Closing I v (k true)) (done : α → Machine σ φ κ) :
    Common S I (m.node wrap done d (.sigsetjmp i k)) ∧
      Phase S I (m.node wrap done d (.sigsetjmp i k)) a := by
  obtain ⟨tokens, hst, hsub, hnone, hmid⟩ := hb.stored
  have hi : i = m.cur := (hs.saves i (k true) (hsub _ List.mem_cons_self)).trans hmid.cur
  subst hi
  have hidle := F.idle d (k true) v ht.quiet
  rw [Machine.node]
  refine ⟨hc.save _ _ ⟨_, hidle⟩,
    F.busy _ a true d (k false) rfl ⟨hb.masked, ⟨n, hn, h⟩, hb.run, ?_⟩⟩
  refine ⟨_, hst, fun x hx => hsub x (List.mem_cons_of_mem _ hx), by simp, ?_⟩
  have hlen : xs.length ≤ 1 := (Nat.le_add_right _ _).trans (List.length_append ▸ hidle.length_le)
  refine hmid.save _ _ hlen (F.hold _ _ d _ v ht ⟨m.saved, m.acts, ?_, ?_, ?_⟩)
  · rw [← hb.masked]
    exact Function.update_self ..
  · exact Function.update_self ..
  · exact fun hmem => absurd (hc.resumed_lt _ hmem) (Nat.lt_irrefl _)

theorem Busy.makecontext (F : Frame S I mk wrap code e xs out) (hs : SafeCode mk code a)
    (hc : Common S I m) {n i entry : Nat} {k : Prog σ φ α}
    (hb : Busy S I mk code xs l m a (.makecontext i entry false k)) (hn : n ≤ m.acts.length)
    (h : Section I True l n k) (done : α → Machine σ φ κ) :
    Common S I (m.node wrap done d (.makecontext i entry false k)) ∧
      Phase S I (m.node wrap done d (.makecontext i entry false k)) a := by
  obtain ⟨tokens, hst, hsub, hnone, hmid⟩ := hb.stored
  obtain ⟨hi, hlog⟩ := hs.makes i entry false (hsub _ List.mem_cons_self)
  rw [hmid.cur] at hi
  rw [Machine.node]
  refine ⟨hc.make _ _ _, F.busy _ a l d k rfl ⟨hb.masked, ⟨n, hn, h⟩, hb.run, ?_⟩⟩
  refine ⟨_, hst, fun x hx => hsub x (List.mem_cons_of_mem _ hx), fun hl => ?_, hmid.make _ _ _ hlog⟩
  rw [Function.update_of_ne (Ne.symm hi)]
  exact hnone hl

theorem Busy.note (F : Frame S I mk wrap code e xs out) (hc : Common S I m) {n : Nat}
    {mark : Note φ} {k : Prog σ φ α} (hb : Busy S I mk code xs l m a (.note mark k))
    (hn : n ≤ m.acts.length) (h : Section I True l (mark.depth n) k) (done : α → Machine σ φ κ) :
    Common S I (m.node wrap done d (.note mark k)) ∧
      Phase S I (m.node wrap done d (.note mark k)) a := by
  obtain ⟨tokens, hst, hsub, hnone, hmid⟩ := hb.stored
  have hm : (m.remark mark).masked = true := by
    cases mark <;> exact hb.masked
  have hd : (m.remark mark).data = m.data := by
    cases mark <;> rfl
  have hcur : (m.remark mark).cur = m.cur := by
    cases mark <;> rfl
  refine ⟨hc.remark mark _, F.busy _ a l d k rfl ⟨hm, ⟨_, ?_, h⟩, ?_, tokens, ?_⟩⟩
  · exact (mark.depth_mono hn).trans (m.length_acts_remark mark).ge
  · exact hb.run.trans (congrArg k.run hd.symm)
  · refine ⟨?_, ?_, ?_, hmid.remark mark _⟩
    · rw [Machine.node, hd]
      exact hst
    · rw [Machine.node, hd]
      exact hsub
    · rw [Machine.node, hcur]
      exact hnone

theorem Busy.node (F : Frame S I mk wrap code e xs out) (hs : SafeCode mk code a)
    (hc : Common S I m) (hb : Busy S I mk code xs l m a p) (done : α → Machine σ φ κ)
    (hq : l = false → ∀ v, ¬ Quiet I v p) :
    Common S I (m.node wrap done d p) ∧ ∃ es a', a.steps S es = some a' ∧
      Phase S I (m.node wrap done d p) a' := by
  obtain ⟨n, hn, hsect⟩ := hb.sect
  obtain ⟨tokens, hst, hsub, hnone, hmid⟩ := hb.stored
  cases hsect with
  | pure => exact absurd .pure (hq rfl _)
  | unmask hsel h => exact absurd (.unmask hsel h) (hq rfl _)
  | get h =>
      exact ⟨hc.touch hc.inv _ _ _ _, [], a, rfl, F.busy _ a l d _ rfl
        ⟨hb.masked, ⟨n, hn, h _⟩, hb.run, tokens, hst, hsub, hnone, hmid.touch _ _ _ _ _⟩⟩
  | @set _ _ f k hf h =>
      exact ⟨hc.touch (hf _ hc.inv) _ _ _ _, [], a, rfl, F.busy _ a l true k rfl
        ⟨hb.masked, ⟨n, hn, h⟩, hb.run, tokens, hst, hsub, hnone, hmid.touch _ _ _ _ _⟩⟩
  | @mask _ _ sel k h =>
      have hm : (if sel m.data then true else m.masked) = true := by simp [hb.masked]
      exact ⟨hc.touch hc.inv _ _ _ _, [], a, rfl, F.busy _ a l d k rfl
        ⟨hm, ⟨n, hn, h⟩, hb.run, tokens, hst, hsub, hnone, hmid.touch _ _ _ _ _⟩⟩
  | setjmp h hl ht =>
      obtain ⟨hc', hp⟩ := hb.setjmp F hs hc hn h ht done
      exact ⟨hc', [], a, rfl, hp⟩
  | make h =>
      obtain ⟨hc', hp⟩ := hb.makecontext F hs hc hn h done
      exact ⟨hc', [], a, rfl, hp⟩
  | note h =>
      obtain ⟨hc', hp⟩ := hb.note F hc hn h done
      exact ⟨hc', [], a, rfl, hp⟩
  | @longjmp _ _ i =>
      have hjump := F.jump a i m.data hb.run
      obtain ⟨tok, htok⟩ := Option.ne_none_iff_exists'.mp (hs.jumps i m.data hb.run)
      rw [hst] at hjump htok
      obtain ⟨c, a', henv, hland, hc', hp⟩ := land_settled hc hmid htok
      have hstep : a.step S e = some a' := hjump.trans hland
      have hnode : m.node wrap done d (.siglongjmp i) = m.land c := by rw [Machine.node, henv]
      rw [hnode]
      exact ⟨hc', [e], a', by simp only [Atomic.steps, hstep, Option.bind_some], hp⟩
  | @exit _ _ c =>
      refine ⟨hc.touch hc.inv _ _ _ _, [], a, rfl, .exited rfl (F.exit a c m.data hb.run) fun i => ?_⟩
      obtain ⟨ys, hlen, hlog, -⟩ := hmid.parked i
      exact ⟨ys, hlen, hlog⟩
  | @fault _ _ why => exact absurd hb.run (hs.no_fault why)

theorem Busy.exec (F : Frame S I mk wrap code e xs out) (hs : SafeCode mk code a)
    (hc : Common S I m) (hb : Busy S I mk code xs l m a p) (hctl : m.ctl = wrap d p)
    (done : α → Machine σ φ κ) (hexec : m.exec = some (m.node wrap done d p)) :
    Common S I (m.node wrap done d p) ∧ ∃ es a', a.steps S es = some a' ∧
      Phase S I (m.node wrap done d p) a' := by
  by_cases hq : l = false ∧ ∃ v, Quiet I v p
  · obtain ⟨rfl, v, hq⟩ := hq
    obtain ⟨a₁, hstep, hdata, hmid, hnone⟩ := hb.settle F hq
    have hidle : Idle S I m.ctl (xs ++ out v) := hctl ▸ F.idle d p v hq
    obtain ⟨hc', es, a', hes, hp⟩ := exec_settled hc hdata hmid hnone hidle hexec
    refine ⟨hc', e :: es, a', ?_, hp⟩
    simpa only [Atomic.steps, hstep, Option.bind_some] using hes
  · exact hb.node F hs hc done fun hl v hv => hq ⟨hl, v, hv⟩

end Operation

theorem Phase.step {l : Label κ} (hopen : ∀ c, Opening I True (S.api c))
    (hsect : Section I True false 0 S.handler) (hc : Common S I m) (hs : Safe S a)
    (hp : Phase S I m a) (hstep : m.step S l = some m') :
    Common S I m' ∧ ∃ es a', a.steps S es = some a' ∧ Phase S I m' a' := by
  rcases Machine.step_cases hstep with ⟨-, -, -, rfl⟩ | ⟨-, hmask, -, hrun, rfl⟩ |
    ⟨-, -, m₁, hexec, rfl⟩ | ⟨c, -, hctl, -, rfl⟩
  · exact ⟨hc.touch hc.inv _ _ _ _, [], a, rfl, hp.tick_clock _ _⟩
  · cases hp with
    | settled xs hdata hmid hnone hidle =>
        refine ⟨hc.touch hc.inv _ _ _ _, [], a, rfl,
          (frame_tick hidle).busy _ a false false S.handler rfl ?_⟩
        refine ⟨rfl, ⟨0, Nat.zero_le _, hsect⟩, congrArg S.handler.run hdata.symm, a.env, ?_, ?_⟩
        · rw [← hdata]
        · exact ⟨fun x hx => hdata ▸ hx, fun _ => hnone, hmid.touch _ _ _ _ _⟩
    | call hctl hb => exact absurd (hb.masked.symm.trans hmask) (by simp)
    | tick hctl hbelow hb => exact absurd (hb.masked.symm.trans hmask) (by simp)
    | exited hctl => simp [Machine.Running, hctl] at hrun
  · have hexec' : Common S I m₁ ∧ ∃ es a', a.steps S es = some a' ∧ Phase S I m₁ a' := by
      cases hp with
      | settled xs hdata hmid hnone hidle => exact exec_settled hc hdata hmid hnone hidle hexec
      | call hctl hb =>
          have hx := hexec
          simp only [Machine.exec, hctl, Option.some.injEq] at hx
          subst hx
          exact hb.exec (frame_call _) (hs.call _) hc hctl _ hexec
      | tick hctl hbelow hb =>
          have hx := hexec
          simp only [Machine.exec, hctl, Option.some.injEq] at hx
          subst hx
          exact hb.exec (frame_tick hbelow) hs.tick hc hctl _ hexec
      | exited hctl => simp [Machine.exec, hctl] at hexec
    obtain ⟨hc', es, a', hes, hp'⟩ := hexec'
    exact ⟨hc'.touch hc'.inv _ _ _ _, es, a', hes, hp'.tick_clock _ _⟩
  · cases hp with
    | settled xs hdata hmid hnone hidle =>
        rw [hctl] at hidle
        cases hidle with
        | user =>
            exact ⟨hc.touch hc.inv _ _ _ _, [], a, rfl, .settled [] hdata
              (hmid.touch _ _ _ _ _) hnone (.opening (hopen c) (fun _ => rfl) fun _ => rfl)⟩
    | call h => simp [h] at hctl
    | tick h => simp [h] at hctl
    | exited h => simp [h] at hctl

/-- Every step of the machine is followed by the atomic machine. -/
theorem Simulated.step {a₀ : Atomic σ φ κ} {l : Label κ} (hopen : ∀ c, Opening I True (S.api c))
    (hsect : Section I True false 0 S.handler)
    (hsafe : ∀ es a, a₀.steps S es = some a → Safe S a) (h : Simulated S I a₀ m)
    (hstep : m.step S l = some m') : Simulated S I a₀ m' := by
  obtain ⟨hc, es, a, hes, hp⟩ := h
  obtain ⟨hc', es', a', hes', hp'⟩ := hp.step hopen hsect hc (hsafe es a hes) hstep
  refine ⟨hc', es ++ es', a', ?_, hp'⟩
  rw [Atomic.steps_append, hes, Option.bind_some, hes']

end Uthreads.Simulation
