import Uthreads.Simulation

namespace Uthreads.Startup

open Program SignalMachine AtomicMachine Discipline Simulation

variable {σ φ κ α : Type}

/-- Initial code from the state s on: it makes the context of thread 0 and writes, and
after the first write that may arm the timer it only has to return v. -/
inductive Boots (armed : σ → Bool) (I : σ → Prop) (v : α) : Prog σ φ α → σ → Prop
  | get {k : σ → Prog σ φ α} {s : σ} (h : Boots armed I v (k s) s) : Boots armed I v (.get k) s
  | set {f : σ → σ} {k : Prog σ φ α} {s : σ} (ha : armed (f s) = false)
      (h : Boots armed I v k (f s)) : Boots armed I v (.set f k) s
  | last {f : σ → σ} {k : Prog σ φ α} {s : σ} (hI : I (f s)) (h : Quiet I v k) :
      Boots armed I v (.set f k) s
  | make {e : Nat} {k : Prog σ φ α} {s : σ} (h : Boots armed I v k s) :
      Boots armed I v (.makecontext 0 e false k) s
  | note {n : Note φ} {k : Prog σ φ α} {s : σ} (h : Boots armed I v k s) :
      Boots armed I v (.note n k) s

structure Fresh (masked : Bool) (m : Machine σ φ κ) : Prop where
  masked : m.masked = masked
  pending : m.pending = none
  cur : m.cur = 0
  ran : m.ran = [0]
  log : ∀ i, m.log i = []
  lastSave : ∀ i, m.lastSave i = none
  resumed : m.resumed = []
  entries : ∀ i c, m.env i = some c → c.owner = i ∧ c.mask = false ∧ ∃ e, c.point = .entry e
  made : ∀ i e, m.entries i = some e → i = 0

def Booting (S : Sys σ φ κ) (I : σ → Prop) (masked : Bool) (s : σ) (v : Int) (m : Machine σ φ κ) :
    Prop :=
  Fresh masked m ∧ S.armed m.data = false ∧ ∃ d p, m.ctl = .call none d p ∧
    Boots S.armed I v p m.data ∧ p.run m.data = .ret v s

def Started (I : σ → Prop) (masked : Bool) (s : σ) (v : Int) (m : Machine σ φ κ) : Prop :=
  Fresh masked m ∧ m.data = s ∧ I s ∧ ∃ d p, m.ctl = .call none d p ∧ Quiet I v p

variable {S : Sys σ φ κ} {I : σ → Prop} {masked : Bool} {s : σ} {v : Int} {m m' : Machine σ φ κ}
  {init : Prog σ φ Int}

theorem Fresh.touch (h : Fresh masked m) (data : σ) (ctl : Ctl σ φ κ) (clock : Nat) :
    Fresh masked { m with data := data, ctl := ctl, clock := clock } :=
  ⟨h.masked, h.pending, h.cur, h.ran, h.log, h.lastSave, h.resumed, h.entries,
    h.made⟩

theorem Fresh.remark (h : Fresh masked m) (n : Note φ) (ctl : Ctl σ φ κ) (clock : Nat) :
    Fresh masked { m.remark n with ctl := ctl, clock := clock } := by
  cases n <;>
    exact ⟨h.masked, h.pending, h.cur, h.ran, h.log, h.lastSave, h.resumed, h.entries, h.made⟩

theorem Fresh.make (h : Fresh masked m) (e : Nat) (ctl : Ctl σ φ κ) (clock : Nat) :
    Fresh masked
      { m with
        env := Function.update m.env 0 (some ⟨0, .entry e, false, []⟩)
        entries := Function.update m.entries 0 (some e)
        ctl := ctl
        clock := clock } := by
  refine ⟨h.masked, h.pending, h.cur, h.ran, h.log, h.lastSave, h.resumed, fun j c hj => ?_,
    fun j e' hj => ?_⟩
  · by_cases hi : j = 0
    · subst hi
      simp only [Function.update_self, Option.some.injEq] at hj
      subst hj
      exact ⟨rfl, rfl, e, rfl⟩
    · simp only [Function.update_of_ne hi] at hj
      exact h.entries j c hj
  · by_contra hi
    simp only [Function.update_of_ne hi] at hj
    exact hi (h.made j e' hj)

theorem booting_boot (hb : Boots S.armed I v init s) {s' : σ} (hrun : init.run s = .ret v s')
    (ha : S.armed s = false) : Booting S I masked s' v (Machine.boot s masked init) :=
  ⟨⟨rfl, rfl, rfl, rfl, fun _ => rfl, fun _ => rfl, rfl, by simp [Machine.boot], by simp [Machine.boot]⟩,
    ha, false, init, rfl, hb, hrun⟩

theorem Booting.target_none (h : Booting S I masked s v m) : m.target = none := by
  obtain ⟨-, -, d, p, hctl, hboots, -⟩ := h
  rw [Machine.target, hctl]
  cases hboots <;> rfl

theorem Booting.step {l : Label κ} (h : Booting S I masked s v m) (hstep : m.step S l = some m') :
    Booting S I masked s v m' ∨ Started I masked s v m' := by
  obtain ⟨hf, ha, d, p, hctl, hb, hrun⟩ := h
  rcases Machine.step_cases hstep with ⟨-, harmed, -⟩ | ⟨-, -, hpend, -⟩ | ⟨-, -, m₁, hexec, rfl⟩ |
    ⟨c, -, huser, -⟩
  · exact absurd (ha.symm.trans harmed) (by simp)
  · simp [hf.pending] at hpend
  · simp only [Machine.exec, hctl, Option.some.injEq] at hexec
    subst hexec
    cases hb with
    | get h => exact .inl ⟨hf.touch _ _ _, ha, d, _, rfl, h, hrun⟩
    | set ha' h => exact .inl ⟨hf.touch _ _ _, ha', true, _, rfl, h, hrun⟩
    | last hI h =>
        have hs := hrun.symm.trans (h.run _)
        simp only [Outcome.ret.injEq, true_and] at hs
        exact .inr ⟨hf.touch _ _ _, hs.symm, hs ▸ hI, true, _, rfl, h⟩
    | make h => exact .inl ⟨hf.make _ _ _, ha, d, _, rfl, h, hrun⟩
    | @note n k s h =>
        refine .inl ⟨hf.remark n _ _, ?_, d, k, rfl, ?_, ?_⟩
        · cases n <;> exact ha
        · cases n <;> exact h
        · cases n <;> exact hrun
  · simp [hctl] at huser

/-- What holds once the initial code has written all it writes, and is preserved
by the steps, holds in every run that is past that point. -/
theorem boot_induction {P : Machine σ φ κ → Prop} (hb : Boots S.armed I v init s) {s' : σ}
    (hrun : init.run s = .ret v s') (ha : S.armed s = false)
    (hstart : ∀ m, Started I masked s' v m → P m)
    (hstep : ∀ m l m', P m → m.step S l = some m' → P m') {ls : List (Label κ)}
    (h : (Machine.boot s masked init).steps S ls = some m) : Booting S I masked s' v m ∨ P m := by
  refine Machine.steps_induction (P := fun m => Booting S I masked s' v m ∨ P m) ?_ h
    (.inl (booting_boot hb hrun ha))
  rintro m l m' (hm | hm) hs
  · exact (hm.step hs).imp_right (hstart m')
  · exact .inr (hstep m l m' hm hs)

theorem Started.simulated (h : Started I masked s v m) : Simulated S I (Atomic.start s v) m := by
  obtain ⟨hf, rfl, hI, d, p, hctl, hq⟩ := h
  refine ⟨⟨hI, ?_, ?_, ?_, ?_, ?_⟩, [], _, rfl, .settled [(none, v)] rfl ?_ rfl ?_⟩
  · exact fun i n hi => absurd hi (by simp [hf.lastSave])
  · exact fun i j n hi => absurd hi (by simp [hf.lastSave])
  · simp [hf.resumed]
  · simp [hf.resumed]
  · intro i c n ctl hi hp
    obtain ⟨-, -, e, he⟩ := hf.entries i c hi
    exact absurd (he.symm.trans hp) (by simp)
  · refine ⟨hf.cur.symm, hf.ran.symm, by simp [Atomic.start, hf.cur, hf.log], fun i => ?_⟩
    refine ⟨(Atomic.start m.data v : Atomic σ φ κ).log i, ?_, by simp [hf.log], by simp [Atomic.start]⟩
    by_cases hi : i = 0 <;> simp [Atomic.start, hi]
  · exact hctl ▸ .answered hq

end Uthreads.Startup
