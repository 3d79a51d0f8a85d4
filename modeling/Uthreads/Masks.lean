import Uthreads.Startup

namespace Uthreads.Masks

open Program SignalMachine Discipline Startup

variable {σ φ κ α : Type}

/-- Code that may stand where the signal is blocked or not, as b says. It returns
with the signal unblocked, or r holds. -/
inductive Tame (I : σ → Prop) (r : Prop) : Bool → Prog σ φ α → Prop
  | opening {p : Prog σ φ α} (h : Opening I r p) : Tame I r false p
  | blocked {l : Bool} {d : Nat} {p : Prog σ φ α} (h : Section I r l d p) : Tame I r true p
  | closing {b : Bool} {v : α} {p : Prog σ φ α} (h : Closing I v p) : Tame I r b p
  | quiet {v : α} {p : Prog σ φ α} (h : Quiet I v p) : Tame I r false p

/-- A control that comes to user code with the signal unblocked only. The handler
restores the mask that it found. -/
inductive Opens (I : σ → Prop) : Bool → Ctl σ φ κ → Prop
  | user : Opens I false .user
  | call {b d : Bool} {c : Option κ} {p : Prog σ φ Int} (h : Tame I False b p) :
      Opens I b (.call c d p)
  | handler {b d mask : Bool} {p : Prog σ φ Unit} {below : Ctl σ φ κ} (h : Tame I True b p)
      (hb : Opens I mask below) : Opens I b (.handler d p mask below)
  | exited {b : Bool} {code : Int} : Opens I b (.exited code)
  | faulted {b : Bool} {why : String} : Opens I b (.faulted why)

inductive Carries (I : σ → Prop) (c : Ctx σ φ κ) : Prop
  | entry {e : Nat} (hp : c.point = .entry e) (hm : c.mask = false)
  | resume {n : Nat} {ctl : Ctl σ φ κ} (hp : c.point = .resume n ctl) (h : Opens I c.mask ctl)

structure Open (I : σ → Prop) (m : Machine σ φ κ) : Prop where
  data : I m.data
  ctl : Opens I m.masked m.ctl
  env : ∀ i c, m.env i = some c → Carries I c

variable {S : Sys σ φ κ} {I : σ → Prop} {r : Prop} {m m' : Machine σ φ κ} {d : Bool}
  {p : Prog σ φ α} {wrap : Bool → Prog σ φ α → Ctl σ φ κ} {done : α → Machine σ φ κ}

theorem Open.user (h : Open I m) (hu : m.ctl = .user) : m.masked = false := by
  have hctl := h.ctl
  rw [hu] at hctl
  generalize m.masked = b at hctl
  cases hctl
  rfl

theorem Open.started {masked : Bool} {s : σ} {v : Int} (h : Started I masked s v m)
    (hm : masked = false) : Open I m := by
  obtain ⟨hf, hdata, hs, d, p, hctl, hq⟩ := h
  refine ⟨hdata ▸ hs, ?_, fun i c hi => ?_⟩
  · rw [hctl, hf.masked, hm]
    exact .call (.quiet hq)
  · obtain ⟨-, hmask, e, he⟩ := hf.entries i c hi
    exact .entry he hmask

theorem carries_update {env : Nat → Option (Ctx σ φ κ)} (h : ∀ i c, env i = some c → Carries I c)
    {i : Nat} {c : Ctx σ φ κ} (hc : Carries I c) :
    ∀ j c', Function.update env i (some c) j = some c' → Carries I c' := by
  intro j c' hj
  rw [Function.update_apply] at hj
  split at hj
  · exact Option.some.inj hj ▸ hc
  · exact h j c' hj

theorem Open.remark (h : Open I m) (n : Note φ) {ctl : Ctl σ φ κ} (hctl : Opens I m.masked ctl) :
    Open I { m.remark n with ctl := ctl } := by
  cases n <;> exact ⟨h.data, hctl, h.env⟩

theorem Open.sigprocmask (h : Open I m) {b : Bool} {sel : σ → Bool} {ctl : Ctl σ φ κ}
    (hsel : sel m.data = true ∨ m.masked = b) (hctl : Opens I b ctl) :
    Open I { m with masked := if sel m.data then b else m.masked, ctl := ctl } := by
  refine ⟨h.data, ?_, h.env⟩
  have hmask : (if sel m.data then b else m.masked) = b := by
    rcases hsel with hsel | hm
    · rw [if_pos hsel]
    · rw [hm, ite_self]
  simp only [hmask]
  exact hctl

theorem Open.land (h : Open I m) {c : Ctx σ φ κ} (hc : Carries I c) : Open I (m.land c) := by
  refine ⟨h.data, ?_, h.env⟩
  cases hc with
  | entry hp hm =>
      simp only [Machine.land, hp, hm]
      exact .user
  | resume hp hctl =>
      simp only [Machine.land, hp]
      exact hctl

theorem Open.jump (h : Open I m) (i : Nat) (hp : p = .siglongjmp i) : Open I (m.node wrap done d p) := by
  subst hp
  rw [Machine.node]
  cases hi : m.env i with
  | none => exact ⟨h.data, .faulted, h.env⟩
  | some c => exact h.land (h.env i c hi)

theorem Open.blocked_node (h : Open I m) {l : Bool} {n : Nat} (hmask : m.masked = true)
    (hwrap : ∀ b d p, Tame I r b p → Opens I b (wrap d p)) (hdone : ∀ v, r → Open I (done v))
    (hp : Section I r l n p) : Open I (m.node wrap done d p) := by
  cases hp with
  | pure hr => exact hdone _ hr
  | get hk => exact ⟨h.data, hmask ▸ hwrap _ _ _ (.blocked (hk _)), h.env⟩
  | set hs hk => exact ⟨hs _ h.data, hmask ▸ hwrap _ _ _ (.blocked hk), h.env⟩
  | mask hk => exact h.sigprocmask (.inr hmask) (hwrap _ _ _ (.blocked hk))
  | unmask hsel hk => exact h.sigprocmask (.inl (hsel _ h.data)) (hwrap _ _ _ (.quiet hk))
  | setjmp hk hl ht =>
      refine ⟨h.data, hmask ▸ hwrap _ _ _ (.blocked hk), carries_update h.env ?_⟩
      exact .resume rfl (hwrap _ _ _ (.closing ht))
  | longjmp => exact h.jump _ rfl
  | make hk => exact ⟨h.data, hmask ▸ hwrap _ _ _ (.blocked hk), carries_update h.env (.entry rfl rfl)⟩
  | note hk => exact h.remark _ (hmask ▸ hwrap _ _ _ (.blocked hk))
  | exit => exact ⟨h.data, .exited, h.env⟩
  | fault => exact ⟨h.data, .faulted, h.env⟩

theorem Open.node (h : Open I m) (hwrap : ∀ b d p, Tame I r b p → Opens I b (wrap d p))
    (hdone : ∀ v, (r ∨ m.masked = false) → Open I (done v)) (hp : Tame I r m.masked p) :
    Open I (m.node wrap done d p) := by
  generalize hb : m.masked = b at hp
  cases hp with
  | opening hp =>
      cases hp with
      | mask hsel hk => exact h.sigprocmask (.inl (hsel _ h.data)) (hwrap _ _ _ (.blocked hk))
      | read hk =>
          obtain ⟨v, hq⟩ := hk m.data
          exact ⟨h.data, hb ▸ hwrap _ _ _ (.quiet hq), h.env⟩
      | note hk => exact h.remark _ (hb ▸ hwrap _ _ _ (.opening hk))
  | blocked hp => exact h.blocked_node hb hwrap (fun v hr => hdone v (.inl hr)) hp
  | closing hp =>
      cases hp with
      | get hk => exact ⟨h.data, hb ▸ hwrap _ _ _ (.closing (hk _)), h.env⟩
      | unmask hsel hk => exact h.sigprocmask (.inl (hsel _ h.data)) (hwrap _ _ _ (.quiet hk))
      | note hk => exact h.remark _ (hb ▸ hwrap _ _ _ (.closing hk))
  | quiet hp =>
      cases hp with
      | pure => exact hdone _ (.inr hb)
      | get hk => exact ⟨h.data, hb ▸ hwrap _ _ _ (.quiet (hk _)), h.env⟩
      | unmask hsel hk => exact h.sigprocmask (.inl (hsel _ h.data)) (hwrap _ _ _ (.quiet hk))
      | note hk => exact h.remark _ (hb ▸ hwrap _ _ _ (.quiet hk))

theorem Open.exec (h : Open I m) {m' : Machine σ φ κ} (he : m.exec = some m') : Open I m' := by
  have hctl := h.ctl
  rcases Machine.exec_cases he with ⟨c, d, p, hc, rfl⟩ | ⟨d, p, mask, below, hc, rfl⟩
  · rw [hc] at hctl
    generalize hb : m.masked = b at hctl
    cases hctl with
    | call ht =>
        refine h.node (r := False) (fun _ _ _ ht => .call ht) (fun v hv => ?_) (hb ▸ ht)
        refine ⟨h.data, ?_, h.env⟩
        rw [Machine.answer]
        simp only [hv.resolve_left id]
        exact .user
  · rw [hc] at hctl
    generalize hb : m.masked = b at hctl
    cases hctl with
    | handler ht hbelow =>
        refine h.node (r := True) (fun _ _ _ ht => .handler ht hbelow) (fun v _ => ?_) (hb ▸ ht)
        exact ⟨h.data, hbelow, h.env⟩

/-- A step keeps the signal open for user code, if a call that it starts opens with
a block and does not forget to unblock. -/
theorem Open.step {l : Label κ} (hhandler : Section I True false 0 S.handler)
    (hcall : ∀ c, l = .call c → Opening I False (S.api c)) (h : Open I m)
    (hs : m.step S l = some m') : Open I m' := by
  rcases Machine.step_cases hs with ⟨-, -, -, rfl⟩ | ⟨-, hmask, -, -, rfl⟩ |
    ⟨-, -, m₁, hexec, rfl⟩ | ⟨c, hl, hctl, -, rfl⟩
  · exact ⟨h.data, h.ctl, h.env⟩
  · exact ⟨h.data, .handler (.blocked hhandler) (hmask ▸ h.ctl), h.env⟩
  · obtain ⟨hdata, hctl, henv⟩ := h.exec hexec
    exact ⟨hdata, hctl, henv⟩
  · refine ⟨h.data, .call ?_, h.env⟩
    simp only [h.user hctl]
    exact .opening (hcall c hl)

end Uthreads.Masks
