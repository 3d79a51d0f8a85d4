import Uthreads.Simulation
import Uthreads.Uninterrupted

namespace Uthreads.Quiescence

open Program SignalMachine Discipline Simulation Uninterrupted

variable {σ φ κ α : Type} {S : Sys σ φ κ} {I : σ → Prop} {m m₁ m₂ : Machine σ φ κ}
  {l l' : Label κ} {ls ls' : List (Label κ)} {ctl : Ctl σ φ κ} {i : Nat}

def Internal : Label κ → Prop
  | .exec | .deliver => True
  | .expire | .call _ => False

/-- User code runs and there is nothing to deliver, or the process has ended. -/
def Rests (m : Machine σ φ κ) : Prop :=
  (m.ctl = .user ∧ m.due = false) ∨ ∃ code, m.ctl = .exited code

def Settles (S : Sys σ φ κ) (m : Machine σ φ κ) : Prop :=
  ∃ ls m', (∀ l ∈ ls, Internal l) ∧ m.steps S ls = some m' ∧ Rests m'

theorem internal_cases (hl : Internal l) (h : m.step S l = some m₁) :
    (l = .exec ∧ m.due = false ∧ m.exec ≠ none) ∨
      (l = .deliver ∧ m.due = true ∧ Machine.Running m.ctl = true) := by
  rcases Machine.step_cases h with ⟨rfl, -⟩ | ⟨rfl, hmask, hp, hr, -⟩ |
    ⟨rfl, hdue, m', he, -⟩ | ⟨c, rfl, -⟩
  · exact hl.elim
  · exact .inr ⟨rfl, by simp [Machine.due, hmask, hp], hr⟩
  · exact .inl ⟨rfl, hdue, by simp [he]⟩
  · exact hl.elim

theorem internal_unique (hl : Internal l) (hl' : Internal l') (h : m.step S l = some m₁)
    (h' : m.step S l' = some m₂) : l = l' := by
  rcases internal_cases hl h with ⟨rfl, hd, -⟩ | ⟨rfl, hd, -⟩ <;>
    rcases internal_cases hl' h' with ⟨rfl, hd', -⟩ | ⟨rfl, hd', -⟩
  · rfl
  · exact absurd (hd.symm.trans hd') (by simp)
  · exact absurd (hd.symm.trans hd') (by simp)
  · rfl

theorem Rests.no_step (h : Rests m) (hl : Internal l) : m.step S l = none := by
  by_contra hne
  obtain ⟨m₁, hs⟩ := Option.ne_none_iff_exists'.mp hne
  rcases h with ⟨hu, hd⟩ | ⟨code, hx⟩
  · rcases internal_cases hl hs with ⟨-, -, he⟩ | ⟨-, hd', -⟩
    · exact he (by rw [Machine.exec, hu])
    · exact absurd (hd.symm.trans hd') (by simp)
  · rcases internal_cases hl hs with ⟨-, -, he⟩ | ⟨-, -, hr⟩
    · exact he (by rw [Machine.exec, hx])
    · simp [hx, Machine.Running] at hr

theorem prefix_of_rests (hls : ∀ l ∈ ls, Internal l) (h : m.steps S ls = some m₁) (hr : Rests m₁)
    (hls' : ∀ l ∈ ls', Internal l) (h' : m.steps S ls' = some m₂) : ls' <+: ls := by
  induction ls' generalizing m ls with
  | nil => exact List.nil_prefix
  | cons l' ls' ih =>
      simp only [Machine.steps, Option.bind_eq_some_iff] at h'
      obtain ⟨m', hs', hrest'⟩ := h'
      have hl' := hls' l' List.mem_cons_self
      cases ls with
      | nil =>
          cases h
          rw [hr.no_step hl'] at hs'
          cases hs'
      | cons l ls =>
          simp only [Machine.steps, Option.bind_eq_some_iff] at h
          obtain ⟨m'', hs, hrest⟩ := h
          obtain rfl := internal_unique hl' (hls l List.mem_cons_self) hs' hs
          obtain rfl := Option.some.inj (hs'.symm.trans hs)
          rw [List.prefix_cons_inj]
          exact ih (fun l hl => hls l (List.mem_cons_of_mem _ hl)) hrest
            (fun l hl => hls' l (List.mem_cons_of_mem _ hl)) hrest'

theorem Rests.settles (h : Rests m) : Settles S m := ⟨[], m, by simp, rfl, h⟩

theorem Settles.step (hl : Internal l) (hs : m.step S l = some m₁) (h : Settles S m₁) :
    Settles S m := by
  obtain ⟨ls, m', hls, hsteps, hr⟩ := h
  refine ⟨l :: ls, m', ?_, by rw [Machine.steps, hs]; exact hsteps, hr⟩
  intro l' hl'
  rcases List.mem_cons.mp hl' with rfl | hl'
  · exact hl
  · exact hls l' hl'

inductive Drives (S : Sys σ φ κ) : Machine σ φ κ → Machine σ φ κ → Prop
  | refl (m : Machine σ φ κ) : Drives S m m
  | step {m m₁ m₂ : Machine σ φ κ} (hs : m.step S .exec = some m₁) (h : Drives S m₁ m₂) :
      Drives S m m₂

theorem Drives.induct {P : Machine σ φ κ → Prop}
    (hstep : ∀ m m', P m → m.step S .exec = some m' → P m') (h : Drives S m m₁) (hm : P m) : P m₁ := by
  induction h with
  | refl m => exact hm
  | step hs h ih => exact ih (hstep _ _ hm hs)

theorem Drives.settles (h : Drives S m m₁) (hs : Settles S m₁) : Settles S m := by
  induction h with
  | refl m => exact hs
  | step hstep h ih => exact (ih hs).step (l := .exec) trivial hstep

theorem step_exec (hdue : m.due = false) (h : m.exec = some m₁) :
    m.step S .exec = some { m₁ with clock := m.clock + 1 } := by
  rw [Machine.step, Machine.advance, hdue, h]
  rfl

structure Fills (wrap : Bool → Prog σ φ α → Ctl σ φ κ) (ws : List (Write σ φ α))
    (m m₁ : Machine σ φ κ) : Prop where
  resumed : m₁.resumed = m.resumed
  env : ∀ i c, m₁.env i = some c → m.env i = some c ∨ (∃ e, c.point = .entry e) ∨
    ∃ n d j q, c.point = .resume n (wrap d q) ∧ .save j q ∈ ws

section Drive

variable {wrap : Bool → Prog σ φ α → Ctl σ φ κ} {done : Machine σ φ κ → α → Machine σ φ κ}
  {ws : List (Write σ φ α)}

theorem Fills.refl (m : Machine σ φ κ) : Fills wrap ws m m :=
  ⟨rfl, fun _ _ hc => .inl hc⟩

theorem Fills.same (h : Fills wrap ws m₁ m₂) (hresumed : m₁.resumed = m.resumed)
    (henv : m₁.env = m.env) : Fills wrap ws m m₂ :=
  ⟨h.resumed.trans hresumed, henv ▸ h.env⟩

theorem Fills.update (h : Fills wrap ws m₁ m₂) (hresumed : m₁.resumed = m.resumed)
    {c : Ctx σ φ κ} {x : Write σ φ α} (henv : m₁.env = Function.update m.env i (some c))
    (hc : (∃ e, c.point = .entry e) ∨ ∃ n d j q, c.point = .resume n (wrap d q) ∧ .save j q = x) :
    Fills wrap (x :: ws) m m₂ := by
  refine ⟨h.resumed.trans hresumed, fun j c' hj => ?_⟩
  rcases h.env j c' hj with hold | hentry | ⟨n, d, k, q, hp, hm⟩
  · rw [henv] at hold
    by_cases hi : j = i
    · rw [hi, Function.update_self, Option.some.injEq] at hold
      subst hold
      rcases hc with hentry | ⟨n, d, k, q, hp, rfl⟩
      · exact .inr (.inl hentry)
      · exact .inr (.inr ⟨n, d, k, q, hp, List.mem_cons_self⟩)
    · rw [Function.update_of_ne hi] at hold
      exact .inl hold
  · exact .inr (.inl hentry)
  · exact .inr (.inr ⟨n, d, k, q, hp, List.mem_cons_of_mem _ hm⟩)

/-- The machine executes code to its end, or until a delivery is due. -/
structure Ends (wrap : Bool → Prog σ φ α → Ctl σ φ κ) (p : Prog σ φ α) (m m₁ : Machine σ φ κ)
    (p₁ : Prog σ φ α) : Prop where
  ctl : ∃ d, m₁.ctl = wrap d p₁
  final : Final p₁
  due : m₁.due = false
  run : p₁.run m₁.data = p.run m.data
  fills : Fills wrap (p.writes m.data) m m₁

def Halts (S : Sys σ φ κ) (wrap : Bool → Prog σ φ α → Ctl σ φ κ) (p : Prog σ φ α)
    (m : Machine σ φ κ) : Prop :=
  ∃ m₁, Drives S m m₁ ∧ (m₁.due = true ∨ ∃ p₁, Ends wrap p m m₁ p₁)

theorem halts_final {p : Prog σ φ α} {d : Bool} (hctl : m.ctl = wrap d p) (h : Final p) :
    Halts S wrap p m := by
  refine ⟨m, .refl m, ?_⟩
  cases hdue : m.due with
  | true => exact .inl rfl
  | false => exact .inr ⟨p, ⟨d, hctl⟩, h, hdue, rfl, .refl m⟩

theorem halts_step (hw : Executes wrap done) {p p' : Prog σ φ α} {d : Bool}
    (hctl : m.ctl = wrap d p)
    (h : Halts S wrap p' { m.node wrap (done m) d p with clock := m.clock + 1 })
    (hback : ∀ m₁ p₁, Ends wrap p' { m.node wrap (done m) d p with clock := m.clock + 1 } m₁ p₁ →
      p₁.run m₁.data = p.run m.data ∧ Fills wrap (p.writes m.data) m m₁) : Halts S wrap p m := by
  cases hdue : m.due with
  | true => exact ⟨m, .refl m, .inl hdue⟩
  | false =>
      obtain ⟨m₁, hd, h⟩ := h
      refine ⟨m₁, .step (step_exec hdue (hw m d p hctl)) hd, h.imp_right ?_⟩
      rintro ⟨p₁, he⟩
      obtain ⟨hrun, hfills⟩ := hback m₁ p₁ he
      exact ⟨p₁, he.ctl, he.final, he.due, hrun, hfills⟩

theorem drive (hw : Executes wrap done) (p : Prog σ φ α) {d : Bool} (hctl : m.ctl = wrap d p) :
    Halts S wrap p m := by
  induction p generalizing m d with
  | pure v => exact halts_final hctl (.pure v)
  | siglongjmp j => exact halts_final hctl (.siglongjmp j)
  | exit c => exact halts_final hctl (.exit c)
  | fault why => exact halts_final hctl (.fault why)
  | get k ih =>
      exact halts_step hw hctl (ih m.data rfl) fun m₁ p₁ he => ⟨he.run, he.fills.same rfl rfl⟩
  | set f k ih =>
      exact halts_step hw hctl (ih (d := true) rfl) fun m₁ p₁ he => ⟨he.run, he.fills.same rfl rfl⟩
  | sigprocmask b sel k ih =>
      exact halts_step hw hctl (ih rfl) fun m₁ p₁ he => ⟨he.run, he.fills.same rfl rfl⟩
  | sigsetjmp j k ih =>
      refine halts_step hw hctl (ih false rfl) fun m₁ p₁ he => ⟨he.run, ?_⟩
      exact he.fills.update (m := m) (c := ⟨m.cur, .resume m.saved (wrap d (k true)), m.masked, m.acts⟩)
        rfl rfl (.inr ⟨m.saved, d, j, k true, rfl, rfl⟩)
  | makecontext j e mask k ih =>
      refine halts_step hw hctl (ih rfl) fun m₁ p₁ he => ⟨he.run, ?_⟩
      exact he.fills.update (m := m) (c := ⟨j, .entry e, mask, []⟩) rfl rfl (.inl ⟨e, rfl⟩)
  | note n k ih =>
      refine halts_step hw hctl (ih (d := d) ?_) fun m₁ p₁ he => ?_
      · rfl
      · cases n <;> exact ⟨he.run, he.fills.same rfl rfl⟩

end Drive

/-- A call in this control has more to do than to return. -/
def Owes (I : σ → Prop) : Ctl σ φ κ → Prop
  | .call _ _ p => ∀ v, ¬ Quiet I v p
  | .handler _ _ _ below => Owes I below
  | .user | .exited _ | .faulted _ => False

def Owing (I : σ → Prop) (m : Machine σ φ κ) (i : Nat) : Prop :=
  ∃ c n ctl, m.env i = some c ∧ c.point = .resume n ctl ∧ n ∉ m.resumed ∧ Owes I ctl

def Debts (I : σ → Prop) (F : Finset Nat) (m : Machine σ φ κ) : Prop := ∀ i, Owing I m i → i ∈ F

inductive Shape (S : Sys σ φ κ) (I : σ → Prop) : Ctl σ φ κ → Prop
  | idle {ctl : Ctl σ φ κ} {xs : List (Option κ × Int)} (h : Idle S I ctl xs) : Shape S I ctl
  | call (c : Option κ) (d : Bool) (p : Prog σ φ Int) : Shape S I (.call c d p)
  | handler (d mask : Bool) (p : Prog σ φ Unit) {below : Ctl σ φ κ} {xs : List (Option κ × Int)}
      (hb : Idle S I below xs) : Shape S I (.handler d p mask below)
  | exited (code : Int) : Shape S I (.exited code)

theorem Shape.not_faulted {why : String} (h : Shape S I (.faulted why)) : False := by
  cases h with
  | idle h => cases h

/-- What is used of an invariant: code keeps it, and it has an end where a delivery
is due. -/
structure Steers (S : Sys σ φ κ) (I : σ → Prop) (P : Machine σ φ κ → Prop) : Prop where
  exec : ∀ m m', P m → m.step S .exec = some m' → P m'
  common : ∀ m, P m → Common S I m
  shape : ∀ m, P m → Shape S I m.ctl
  bounded : ∀ m, P m → ∃ F, Debts I F m
  due : ∀ m, P m → m.due = true → Settles S m

variable {P : Machine σ φ κ → Prop} {xs : List (Option κ × Int)}

section Last

variable {wrap : Bool → Prog σ φ α → Ctl σ φ κ} {done : Machine σ φ κ → α → Machine σ φ κ}
  {p : Prog σ φ α}

theorem Steers.last (hP : Steers S I P) (hw : Executes wrap done) (hm : P m)
    (hctl : ∃ d, m.ctl = wrap d p) (hfinal : Final p) (hdue : m.due = false)
    (hpure : ∀ v, p = .pure v → P { done m v with clock := m.clock + 1 } →
      Settles S { done m v with clock := m.clock + 1 })
    (hjump : ∀ i c, p = .siglongjmp i → m.env i = some c →
      P { m.land c with clock := m.clock + 1 } → Settles S { m.land c with clock := m.clock + 1 }) :
    Settles S m := by
  obtain ⟨d, hctl⟩ := hctl
  have hs := step_exec (S := S) hdue (hw m d p hctl)
  have hm' := hP.exec _ _ hm hs
  apply Settles.step (l := .exec) trivial hs
  cases hfinal with
  | pure v => exact hpure v rfl hm'
  | exit c => exact Rests.settles (.inr ⟨c, rfl⟩)
  | fault why => exact (hP.shape _ hm').not_faulted.elim
  | siglongjmp i =>
      cases hc : m.env i with
      | none =>
          simp only [Machine.node, hc] at hm'
          exact (hP.shape _ hm').not_faulted.elim
      | some c =>
          simp only [Machine.node, hc] at hm' ⊢
          exact hjump i c rfl hc hm'

theorem Steers.halts (hP : Steers S I P) (hm : P m) (h : Halts S wrap p m)
    (hend : ∀ m₁ p₁, P m₁ → Ends wrap p m m₁ p₁ → Settles S m₁) : Settles S m := by
  obtain ⟨m₁, hd, h⟩ := h
  have hm₁ := hd.induct hP.exec hm
  apply hd.settles
  rcases h with hdue | ⟨p₁, he⟩
  · exact hP.due m₁ hm₁ hdue
  · exact hend m₁ p₁ hm₁ he

theorem Steers.quiet (hP : Steers S I P) (hw : Executes wrap done) (hm : P m) {d : Bool}
    (hctl : m.ctl = wrap d p) {v : α} (h : Quiet I v p)
    (hnext : ∀ m₁, Fills wrap [] m m₁ → P { done m₁ v with clock := m₁.clock + 1 } →
      Settles S { done m₁ v with clock := m₁.clock + 1 }) : Settles S m := by
  apply hP.halts hm (drive hw p hctl)
  intro m₁ p₁ hm₁ he
  obtain ⟨rfl, -⟩ := he.final.of_ret (he.run.trans (h.run m.data))
  refine hP.last hw hm₁ he.ctl he.final he.due ?_ (by simp)
  rintro u hu hm₂
  obtain rfl := Prog.pure.inj hu
  exact hnext m₁ (h.writes m.data ▸ he.fills) hm₂

end Last

theorem Steers.user (hP : Steers S I P) (hm : P m) (hu : m.ctl = .user) : Settles S m := by
  cases hdue : m.due with
  | true => exact hP.due m hm hdue
  | false => exact Rests.settles (.inl ⟨hu, hdue⟩)

theorem Steers.calm (hP : Steers S I P) (hidle : Idle S I ctl xs) (ho : ¬ Owes I ctl) (hm : P m)
    (hctl : m.ctl = ctl) : Settles S m := by
  induction hidle generalizing m with
  | user => exact hP.user hm hctl
  | opening h hrun hwrites =>
      simp only [Owes, not_forall, not_not] at ho
      obtain ⟨v, hq⟩ := ho
      exact hP.quiet (executes_call _) hm hctl hq fun m₁ _ hm₂ => hP.user hm₂ rfl
  | answered h => exact hP.quiet (executes_call _) hm hctl h fun m₁ _ hm₂ => hP.user hm₂ rfl
  | @handler d mask p below xs h hb ih =>
      exact hP.quiet (executes_handler mask below) hm (d := d) hctl h fun m₁ _ hm₂ => ih ho hm₂ rfl

theorem Fills.owing {wrap : Bool → Prog σ φ α → Ctl σ φ κ} {ws : List (Write σ φ α)}
    (h : Fills wrap ws m m₁) (hws : ∀ j q, .save j q ∈ ws → ∀ d, ¬ Owes I (wrap d q))
    (ho : Owing I m₁ i) : Owing I m i := by
  obtain ⟨c, n, ctl, hc, hp, hn, ho⟩ := ho
  rcases h.env i c hc with hold | ⟨e, he⟩ | ⟨n', d, j, q, hp', hm⟩
  · exact ⟨c, n, ctl, hold, hp, h.resumed ▸ hn, ho⟩
  · rw [he] at hp
    cases hp
  · rw [hp'] at hp
    obtain ⟨-, rfl⟩ := Point.resume.inj hp
    exact absurd ho (hws j q hm d)

theorem Steers.land (hP : Steers S I P) {F : Finset Nat}
    (ih : ∀ G ⊂ F, ∀ (m : Machine σ φ κ) xs, Debts I G m → Idle S I m.ctl xs → P m → Settles S m)
    (hd : Debts I F m) (hm : P m) {c : Ctx σ φ κ} (hc : m.env i = some c)
    (hm₁ : P { m.land c with clock := m.clock + 1 }) :
    Settles S { m.land c with clock := m.clock + 1 } := by
  cases hp : c.point with
  | entry e => exact hP.user hm₁ (by simp [Machine.land, hp])
  | resume n ctl =>
      obtain ⟨xs, hidle⟩ := (hP.common m hm).shelved i c n ctl hc hp
      have hctl : (m.land c).ctl = ctl := by rw [Machine.land, hp]
      have hresumed : (m.land c).resumed = n :: m.resumed := by rw [Machine.land, hp]
      by_cases ho : Owes I ctl
      · have hnodup : (m.land c).resumed.Nodup := (hP.common _ hm₁).resumed
        rw [hresumed] at hnodup
        have hn := (List.nodup_cons.mp hnodup).1
        have hi : i ∈ F := hd i ⟨c, n, ctl, hc, hp, hn, ho⟩
        apply ih (F.erase i) (Finset.erase_ssubset hi) _ xs _ (hctl ▸ hidle) hm₁
        rintro j ⟨c', n', ctl', hc', hp', hn', ho'⟩
        have hn' : n' ∉ (m.land c).resumed := hn'
        rw [hresumed, List.mem_cons, not_or] at hn'
        rw [Finset.mem_erase]
        refine ⟨?_, hd j ⟨c', n', ctl', hc', hp', hn'.2, ho'⟩⟩
        rintro rfl
        obtain rfl := Option.some.inj (hc.symm.trans hc')
        rw [hp] at hp'
        exact hn'.1 (Point.resume.inj hp').1.symm
      · exact hP.calm hidle ho hm₁ hctl

/-- By induction on the threads that wait in calls that have yet to begin: each jump
away from such a call leaves one fewer. -/
theorem Steers.idle (hP : Steers S I P) (F : Finset Nat) (m : Machine σ φ κ)
    (xs : List (Option κ × Int)) (hd : Debts I F m) (hidle : Idle S I m.ctl xs) (hm : P m) :
    Settles S m := by
  induction F using Finset.strongInduction generalizing m xs with
  | H F ihF =>
      generalize hctl : m.ctl = ctl at hidle
      induction hidle generalizing m with
      | user => exact hP.user hm hctl
      | @opening c p h hrun hwrites =>
          apply hP.halts hm (drive (executes_call (some c)) p hctl)
          intro m₁ p₁ hm₁ he
          apply hP.last (executes_call (some c)) hm₁ he.ctl he.final he.due
          · intro v _ hm₂
            exact hP.user hm₂ rfl
          · intro i c' _ hc hm₂
            refine hP.land ihF (fun j ho => hd j (he.fills.owing ?_ ho)) hm₁ hc hm₂
            intro j q hq d ho
            obtain ⟨v, hv⟩ := h.quiet_of_saved hq
            exact ho v hv
      | answered h =>
          exact hP.quiet (executes_call _) hm hctl h fun m₁ _ hm₂ => hP.user hm₂ rfl
      | @handler d mask p below xs h hb ih =>
          refine hP.quiet (executes_handler mask below) hm (d := d) hctl h fun m₁ hf hm₂ => ?_
          refine ih _ (fun j ho => hd j (hf.owing (by simp) ho)) hm₂ rfl

theorem Steers.settles (hP : Steers S I P) (hm : P m) : Settles S m := by
  have hidle : ∀ m xs, Idle S I m.ctl xs → P m → Settles S m := by
    intro m xs hidle hm
    obtain ⟨F, hF⟩ := hP.bounded m hm
    exact hP.idle F m xs hF hidle hm
  have hland : ∀ m i c, P m → m.env i = some c → P { m.land c with clock := m.clock + 1 } →
      Settles S { m.land c with clock := m.clock + 1 } := by
    intro m i c hm hc hm₁
    obtain ⟨F, hF⟩ := hP.bounded m hm
    exact hP.land (fun G _ m xs _ => hidle m xs) hF hm hc hm₁
  have hshape := hP.shape m hm
  generalize hctl : m.ctl = ctl at hshape
  cases hshape with
  | @idle _ xs h => exact hidle m xs (hctl ▸ h) hm
  | call c d p =>
      apply hP.halts hm (drive (executes_call c) p hctl)
      intro m₁ p₁ hm₁ he
      apply hP.last (executes_call c) hm₁ he.ctl he.final he.due
      · intro v _ hm₂
        exact hP.user hm₂ rfl
      · intro i c' _ hc hm₂
        exact hland m₁ i c' hm₁ hc hm₂
  | @handler d mask p below xs hb =>
      apply hP.halts hm (drive (executes_handler mask below) p (d := d) hctl)
      intro m₁ p₁ hm₁ he
      apply hP.last (executes_handler mask below) hm₁ he.ctl he.final he.due
      · intro v _ hm₂
        exact hidle _ xs hb hm₂
      · intro i c' _ hc hm₂
        exact hland m₁ i c' hm₁ hc hm₂
  | exited code => exact Rests.settles (.inr ⟨code, hctl⟩)

theorem node_pending (wrap : Bool → Prog σ φ α → Ctl σ φ κ) (done : α → Machine σ φ κ) (d : Bool)
    (hdone : ∀ v, (done v).pending = m.pending) (p : Prog σ φ α) :
    (m.node wrap done d p).pending = m.pending := by
  cases p with
  | pure v => exact hdone v
  | siglongjmp i =>
      rw [Machine.node]
      cases m.env i <;> rfl
  | note n k => cases n <;> rfl
  | get | set | sigprocmask | sigsetjmp | makecontext | exit | fault => rfl

theorem exec_pending (h : m.step S .exec = some m₁) : m₁.pending = m.pending := by
  rcases Machine.step_cases h with ⟨he, -⟩ | ⟨he, -⟩ | ⟨-, -, m', hexec, rfl⟩ | ⟨c, he, -⟩
  · cases he
  · cases he
  · rcases Machine.exec_cases hexec with ⟨c, d, p, -, rfl⟩ | ⟨d, p, mask, below, -, rfl⟩
    · exact node_pending (.call c) (m.answer c) d (fun _ => rfl) p
    · exact node_pending (m := m) (fun d p => .handler d p mask below)
        (fun _ => { m with masked := mask, ctl := below }) d (fun _ => rfl) p
  · cases he

/-- An invariant that the machine's own steps keep: without further expiries it comes
to rest, after the one delivery that may be pending. -/
theorem settles_of_invariant (hstep : ∀ m l m', Internal l → P m → m.step S l = some m' → P m')
    (hcommon : ∀ m, P m → Common S I m) (hshape : ∀ m, P m → Shape S I m.ctl)
    (hbounded : ∀ m, P m → ∃ F, Debts I F m) (hm : P m) : Settles S m := by
  have hlast : Steers S I (fun m => P m ∧ m.pending = none) :=
    { exec := fun m m' h hs => ⟨hstep m .exec m' trivial h.1 hs, (exec_pending hs).trans h.2⟩
      common := fun m h => hcommon m h.1
      shape := fun m h => hshape m h.1
      bounded := fun m h => hbounded m h.1
      due := fun m h hdue => absurd hdue (by simp [Machine.due, h.2]) }
  have hall : Steers S I P :=
    { exec := fun m m' h hs => hstep m .exec m' trivial h hs
      common := hcommon
      shape := hshape
      bounded := hbounded
      due := by
        intro m h hdue
        by_cases hr : Machine.Running m.ctl = true
        · have hs : m.step S .deliver = some { m with
              pending := none, masked := true, clock := m.clock + 1
              ctl := .handler false S.handler m.masked m.ctl } := by
            simp [Machine.step, Machine.advance, hdue, hr]
          exact (hlast.settles ⟨hstep m .deliver _ trivial h hs, rfl⟩).step (l := .deliver) trivial hs
        · have hctl := hshape m h
          generalize hx : m.ctl = ctl at hctl hr
          cases ctl with
          | exited code => exact Rests.settles (.inr ⟨code, hx⟩)
          | faulted why => exact hctl.not_faulted.elim
          | user | call | handler => exact absurd rfl hr }
  exact hall.settles hm

end Uthreads.Quiescence
