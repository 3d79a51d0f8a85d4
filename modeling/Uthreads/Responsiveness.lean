import Uthreads.Interleavings
import Uthreads.Quiescence

namespace Uthreads.Responsiveness

open Program SignalMachine AtomicMachine Tables Source Api Moves Runs
open Simulation Sections Startup Contexts Uninterrupted Quiescence

variable {w : Width} {q : Int32} {masked : Bool} {m m' : Machine Scheduler Fn Call}
  {ls : List (Label Call)} {l : Label Call} {F : Finset Nat} {α : Type}

def Saved (F : Finset Nat) (m : Machine Scheduler Fn Call) : Prop :=
  ∀ i c n ctl, m.env i = some c → c.point = .resume n ctl → i ∈ F

theorem Saved.update (h : Saved F m) {i : Nat} {c : Ctx Scheduler Fn Call}
    (henv : m'.env = Function.update m.env i (some c)) : Saved (insert i F) m' := by
  intro j c' n ctl hj hp
  rw [henv] at hj
  by_cases hi : j = i
  · rw [hi]
    exact Finset.mem_insert_self i F
  · rw [Function.update_of_ne hi] at hj
    exact Finset.mem_insert_of_mem (h j c' n ctl hj hp)

theorem Saved.node (h : Saved F m) (wrap : Bool → Code α → Ctl Scheduler Fn Call)
    (done : α → Machine Scheduler Fn Call) (hdone : ∀ v, (done v).env = m.env) (d : Bool)
    (p : Code α) : ∃ G, Saved G (m.node wrap done d p) := by
  cases p with
  | pure v => exact ⟨F, fun i c n ctl hi => h i c n ctl (hdone v ▸ hi)⟩
  | siglongjmp i =>
      rw [Machine.node]
      cases m.env i <;> exact ⟨F, h⟩
  | sigsetjmp i k => exact ⟨insert i F, h.update rfl⟩
  | makecontext i e mask k => exact ⟨insert i F, h.update rfl⟩
  | note n k => cases n <;> exact ⟨F, h⟩
  | get | set | sigprocmask | exit | fault => exact ⟨F, h⟩

theorem Saved.step (h : Saved F m) (hs : m.step (uthreads w) l = some m') : ∃ G, Saved G m' := by
  rcases Machine.step_cases hs with ⟨-, -, -, rfl⟩ | ⟨-, -, -, -, rfl⟩ | ⟨-, -, m₁, he, rfl⟩ |
    ⟨c, -, -, -, rfl⟩
  · exact ⟨F, h⟩
  · exact ⟨F, h⟩
  · rcases Machine.exec_cases he with ⟨c, d, p, -, rfl⟩ | ⟨d, p, mask, below, -, rfl⟩
    · exact h.node (.call c) (m.answer c) (fun _ => rfl) d p
    · exact h.node (fun d p => .handler d p mask below)
        (fun _ => { m with masked := mask, ctl := below }) (fun _ => rfl) d p
  · exact ⟨F, h⟩

theorem saved_of_started {s : Scheduler} {v : Int}
    (h : Started Configured masked s v m) : Saved ∅ m := by
  intro i c n ctl hi hp
  obtain ⟨-, -, e, he⟩ := h.1.entries i c hi
  rw [he] at hp
  cases hp

theorem shape_of_follows (h : Follows w q m) : Shape (uthreads w) Configured m.ctl := by
  obtain ⟨-, es, a, -, hp⟩ := h
  cases hp with
  | settled xs hdata hmid hnone hidle => exact .idle hidle
  | call hctl hbusy => exact hctl ▸ .call ..
  | tick hctl hbelow hbusy => exact hctl ▸ .handler _ _ _ hbelow
  | exited hctl => exact hctl ▸ .exited _

theorem settles_of_follows (hq : 0 ≤ q.toInt) (h : Follows w q m) (hF : ∃ F, Saved F m) :
    Settles (uthreads w) m := by
  apply settles_of_invariant (P := fun m => Follows w q m ∧ ∃ F, Saved F m) (I := Configured)
  · rintro m l m' - ⟨h, F, hF⟩ hs
    exact ⟨h.step hq hs, hF.step hs⟩
  · exact fun m h => h.1.1
  · exact fun m h => shape_of_follows h.1
  · rintro m ⟨-, F, hF⟩
    exact ⟨F, fun i ⟨c, n, ctl, hc, hp, _⟩ => hF i c n ctl hc hp⟩
  · exact ⟨h, hF⟩

theorem settles_of_booting {s : Scheduler} {v : Int}
    (h : Booting (uthreads w) Configured masked s v m) : Settles (uthreads w) m := by
  obtain ⟨hf, -, d, p, hctl, -, hrun⟩ := h
  obtain ⟨m₁, hd, hend⟩ := drive (S := uthreads w) (executes_call none) p hctl
  have hpending : m₁.pending = none := by
    apply hd.induct (P := fun m => m.pending = none) _ hf.pending
    exact fun m m' hm hs => (exec_pending hs).trans hm
  apply hd.settles
  rcases hend with hdue | ⟨p₁, he⟩
  · simp [Machine.due, hpending] at hdue
  · obtain ⟨rfl, -⟩ := he.final.of_ret (he.run.trans hrun)
    obtain ⟨d₁, hctl₁⟩ := he.ctl
    have hs := step_exec (S := uthreads w) he.due (executes_call none m₁ d₁ _ hctl₁)
    exact (Rests.settles (.inl ⟨rfl, by simp [Machine.due, Machine.node, Machine.answer, hpending]⟩)).step
      (l := .exec) trivial hs

/-- No call hangs, and threads do not switch among themselves for ever: from every
state of every run, wherever the timer has expired, the library's own steps end,
in user code with no signal to deliver or in the end of the process. -/
theorem comes_to_rest (hq : 0 ≤ q.toInt)
    (h : (start w masked q).steps (uthreads w) ls = some m) : ∃ ls' m', (∀ l ∈ ls', Internal l) ∧
      m.steps (uthreads w) ls' = some m' ∧ Rests m' ∧
      ∀ ls'' m'', (∀ l ∈ ls'', Internal l) → m.steps (uthreads w) ls'' = some m'' → ls'' <+: ls' := by
  have hsettles : Settles (uthreads w) m := by
    rcases start_induction (P := fun m => ∃ F, Saved F m) hq
      (fun m hm => ⟨∅, saved_of_started hm⟩) (fun m l m' _ ⟨F, hF⟩ hs => hF.step hs) h with hb | hf
    · exact settles_of_booting hb
    · exact settles_of_follows hq hf.1 hf.2
  obtain ⟨ls', m', hls, hsteps, hr⟩ := hsettles
  exact ⟨ls', m', hls, hsteps, hr, fun ls'' m'' => prefix_of_rests hls hsteps hr⟩

def pendingInSpawn : List (Label Call) :=
  Interleavings.execs 25 ++ [.call (.spawn (some 7))] ++ Interleavings.execs 5 ++ [.expire]

theorem comes_to_rest_spawning : ∃ m ls' m',
    (start .lp64 false 1000).steps (uthreads .lp64) pendingInSpawn = some m ∧
      m.pending.isSome = true ∧ m.steps (uthreads .lp64) ls' = some m' ∧ Rests m' := by
  obtain ⟨m, hm, hp⟩ : ∃ m, (start .lp64 false 1000).steps (uthreads .lp64) pendingInSpawn = some m ∧
      m.pending.isSome = true := (Option.any_eq_true _ _).mp (by decide +kernel)
  obtain ⟨ls', m', -, hsteps, hr, -⟩ := comes_to_rest (by decide) hm
  exact ⟨m, ls', m', hm, hp, hsteps, hr⟩

end Uthreads.Responsiveness
