import Uthreads.Runs
import Uthreads.Startup
import Uthreads.Stores

namespace Uthreads.Contexts

open Program SignalMachine AtomicMachine Tables Source Api Effects Tallies Configs Moves Runs
open Discipline Sections Simulation Startup Stores
open Program.Prog (Saves)

def Waits : Call → Prop
  | .block _ | .sleep _ => True
  | _ => False

/-- What is left of a waiting operation: it returns, and changes nothing. -/
def Returns : Token Scheduler Fn Call → Prop
  | .entry _ => False
  | .call c q => Waits c ∧ ∀ s, q.run s = .ret 0 s
  | .tick q => ∀ s, q.run s = .ret () s

/-- Between operations the running thread is the one the tables say, and every
other live thread waits in its own buffer, at its entry point as long as it has
not run. The ids that uthread_get_tid has answered are those of the callers. -/
structure Owned (a : Atomic Scheduler Fn Call) : Prop where
  inv : Inv a.data
  cur : idOf a.data a.data.runningThreadTid = some a.cur
  waiting : ∀ tid i, idOf a.data tid = some i → tid ≠ a.data.runningThreadTid → a.env i ≠ none
  fresh : ∀ i, a.data.nextObject ≤ i → a.log i = [] ∧ i ∉ a.ran
  ran : a.cur ∈ a.ran
  kept : ∀ i tok, a.env i = some tok → Returns tok ∧ i ∈ a.ran ∨ (∃ e, tok = .entry e) ∧ i ∉ a.ran
  named : ∀ i v tid, (some .getTid, v) ∈ a.log i → idOf a.data tid = some i → v = tid

inductive Stored (a : Atomic Scheduler Fn Call) (env : Nat → Option (Token Scheduler Fn Call)) : Prop
  | nothing (h : env = a.env)
  | made (e : Nat) (h : env = Function.update a.env a.data.nextObject (some (.entry e)))
  | saved (tok : Token Scheduler Fn Call) (ht : Returns tok)
      (h : env = Function.update a.env a.cur (some tok))

variable {w : Width} {a a' : Atomic Scheduler Fn Call} {e : Event Call} {s : Scheduler} {i tid : Nat}

theorem Owned.cur_lt (h : Owned a) : a.cur < a.data.nextObject := h.inv.config.fresh _ _ h.cur

theorem waits_of_saves {c : Call} (hs : Saves (api w c) s i 0) : Waits c := by
  obtain ⟨q, hw, -⟩ := hs
  cases c with
  | block | sleep => trivial
  | spawn entryPoint =>
      cases entryPoint with
      | none => exact absurd hw (by simp [api, uthreadSpawn])
      | some e =>
          rw [api, writes_uthreadSpawn] at hw
          split at hw <;> simp at hw
  | terminate tid => exact absurd ((plain_uthreadTerminate w tid s).symm.trans hw) (by simp)
  | resume tid => exact absurd ((plain_uthreadResume tid s).symm.trans hw) (by simp)
  | getTid => exact absurd ((steady_uthreadGetTid.plain s).symm.trans hw) (by simp)
  | getTotalQuantums => exact absurd ((plain_uthreadGetTotalQuantums s).symm.trans hw) (by simp)
  | getQuantums tid => exact absurd ((plain_uthreadGetQuantums w tid s).symm.trans hw) (by simp)

/-- Only uthread_spawn makes a context, for its own argument. -/
theorem spawn_of_make {c : Call} {entry : Nat} {mask : Bool} (h : Inv s)
    (hm : .make i entry mask ∈ (api w c).writes s) :
    c = .spawn (some entry) ∧ i = s.nextObject ∧ mask = false ∧
      ∃ tid < maxThreadNum, stateOf s tid = none := by
  have hsaves : ∀ {p : Code Int} {j : Nat}, Saves p s j 0 → .make i entry mask ∉ p.writes s := by
    rintro p j ⟨q, hw, -⟩
    simp [hw]
  obtain ⟨t, ht, hst, -⟩ := exists_running h
  cases c with
  | spawn entryPoint =>
      cases entryPoint with
      | none => exact absurd hm List.not_mem_nil
      | some e =>
          rw [api, writes_uthreadSpawn] at hm
          split at hm
          · rename_i hfree
            simp only [List.mem_singleton, Write.make.injEq] at hm
            obtain ⟨rfl, rfl, rfl⟩ := hm
            exact ⟨rfl, rfl, rfl, hfree⟩
          · exact absurd hm List.not_mem_nil
  | terminate tid => exact absurd ((plain_uthreadTerminate w tid s) ▸ hm) List.not_mem_nil
  | block tid =>
      by_cases hn : index tid = s.runningThreadTid → tid = 0
      · exact absurd ((writes_uthreadBlock w h.tables hn) ▸ hm) List.not_mem_nil
      · obtain ⟨hr, h0⟩ := Classical.not_imp.mp hn
        exact absurd hm (hsaves (saves_uthreadBlock w ht hst hr h0))
  | resume tid => exact absurd ((plain_uthreadResume tid s) ▸ hm) List.not_mem_nil
  | sleep n =>
      by_cases hn : 0 < n.toInt → s.runningThreadTid = 0
      · exact absurd ((writes_uthreadSleep w h hn) ▸ hm) List.not_mem_nil
      · obtain ⟨hpos, h0⟩ := Classical.not_imp.mp hn
        exact absurd hm (hsaves (saves_uthreadSleep w h hpos h0 ht))
  | getTid => exact absurd ((steady_uthreadGetTid.plain s) ▸ hm) List.not_mem_nil
  | getTotalQuantums => exact absurd ((plain_uthreadGetTotalQuantums s) ▸ hm) List.not_mem_nil
  | getQuantums tid => exact absurd ((plain_uthreadGetQuantums w tid s) ▸ hm) List.not_mem_nil

theorem run_uthreadSpawn_free (h : Inv s) (entryPoint : Nat)
    (hfree : ∃ tid < maxThreadNum, stateOf s tid = none) :
    ∃ (tid : Nat) (s' : Scheduler), (uthreadSpawn (some entryPoint)).run s = .ret (tid : Int) s' ∧
      idOf s' tid = some s.nextObject := by
  have hrun := run_uthreadSpawn h entryPoint
  cases hfind : (List.range maxThreadNum).find? (fun tid => decide (tid ∉ s.threads)) with
  | none =>
      obtain ⟨tid, hlt, hnone⟩ := hfree
      have hm := List.find?_eq_none.mp hfind tid (List.mem_range.mpr hlt)
      exact absurd hnone ((mem_threads s tid).mp (by simpa using hm))
  | some tid =>
      rw [hfind] at hrun
      exact ⟨tid, _, hrun, by simp [idOf, spawn]⟩

theorem stored_call {c : Call} (hs : Saves (api w c) a.data a.cur 0) : ∃ tok, Returns tok ∧
    a.stored (uthreads w) (.call c) = Function.update a.env a.cur (some tok) := by
  have hwaits := waits_of_saves hs
  obtain ⟨q, hw, hq⟩ := hs
  refine ⟨.call c q, ⟨hwaits, hq⟩, ?_⟩
  rw [Atomic.stored]
  simp only [uthreads, hw, storeAll]

theorem stored_tick (h : Owned a) : ∃ tok, Returns tok ∧
    a.stored (uthreads w) .tick = Function.update a.env a.cur (some tok) := by
  obtain ⟨t, ht, -, hid⟩ := exists_running_of_id h.inv h.cur
  obtain ⟨q, hw, hq⟩ := saves_sigvtalrm w h.inv.config ht
  refine ⟨.tick q, hq, ?_⟩
  rw [Atomic.stored]
  simp only [uthreads, hw, hid, storeAll]

theorem Owned.stored (h : Owned a) (e : Event Call) : Stored a (a.stored (uthreads w) e) := by
  cases e with
  | tick =>
      obtain ⟨tok, ht, heq⟩ := stored_tick (w := w) h
      exact .saved tok ht heq
  | call c =>
      rcases writes_api w h.inv h.cur c with hw | ⟨e, hw⟩ | hs
      · apply Stored.nothing
        rw [Atomic.stored]
        simp only [uthreads, hw, storeAll]
      · apply Stored.made e
        rw [Atomic.stored]
        simp only [uthreads, hw, storeAll]
      · obtain ⟨tok, ht, heq⟩ := stored_call hs
        exact .saved tok ht heq

theorem Stored.keeps {env : Nat → Option (Token Scheduler Fn Call)} (h : Stored a env)
    (hi : a.env i ≠ none) : env i ≠ none := by
  cases h with
  | nothing h => exact h ▸ hi
  | made e h =>
      rw [h, Function.update_apply]
      split
      · simp
      · exact hi
  | saved tok ht h =>
      rw [h, Function.update_apply]
      split
      · simp
      · exact hi

theorem Stored.cases {env : Nat → Option (Token Scheduler Fn Call)} (h : Stored a env)
    {tok : Token Scheduler Fn Call} (hi : env i = some tok) :
    a.env i = some tok ∨ (i = a.data.nextObject ∧ ∃ e, tok = .entry e) ∨ (i = a.cur ∧ Returns tok) := by
  cases h with
  | nothing h => exact .inl (h ▸ hi)
  | made e h =>
      rw [h, Function.update_apply] at hi
      split at hi
      · exact .inr (.inl ⟨‹_›, e, (Option.some.inj hi).symm⟩)
      · exact .inl hi
  | saved tok' ht h =>
      rw [h, Function.update_apply] at hi
      split at hi
      · exact .inr (.inr ⟨‹_›, Option.some.inj hi ▸ ht⟩)
      · exact .inl hi

/-- Whatever thread is in the tables when the running thread has left has a context. -/
theorem stored_of_leave (h : Owned a) (hl : Leave w a.data e s) (hid : idOf s tid = some i) :
    a.stored (uthreads w) e i ≠ none := by
  have hid' := (hl.stays w).ids tid i hid
  by_cases hr : tid = a.data.runningThreadTid
  · subst hr
    obtain rfl : a.cur = i := Option.some.inj (h.cur.symm.trans hid')
    have hsaved : ∃ tok, Returns tok ∧
        a.stored (uthreads w) e = Function.update a.env a.cur (some tok) := by
      cases e with
      | tick => exact stored_tick h
      | call c => exact stored_call (saves_of_leave w h.inv h.cur hl (by simp [hid]))
    obtain ⟨tok, -, heq⟩ := hsaved
    simp [heq]
  · exact (h.stored e).keeps (h.waiting tid i hid' hr)

theorem stored_of_spawn {entryPoint : Nat} (hfree : stateOf a.data tid = none)
    (hlt : tid < maxThreadNum) :
    a.stored (uthreads w) (.call (.spawn (some entryPoint))) a.data.nextObject ≠ none := by
  have hw := writes_uthreadSpawn entryPoint a.data
  rw [if_pos ⟨tid, hlt, hfree⟩] at hw
  rw [Atomic.stored]
  simp [uthreads, api, hw, storeAll]

theorem perform_call_run {c : Call} {o : Outcome Scheduler Int} (ho : (api w c).run s = o) :
    perform (uthreads w) (.call c) s = o.bind (fun v s => .ret (some v) s) := by
  rw [← ho]
  rfl

theorem perform_tick_run {o : Outcome Scheduler Unit} (ho : (sigvtalrm w).run s = o) :
    perform (uthreads w) .tick s = o.bind (fun _ s => .ret none s) := by
  rw [← ho]
  rfl

theorem stored_of_jump (h : Owned a) (hp : perform (uthreads w) e a.data = .jump i s) :
    a.stored (uthreads w) e i ≠ none := by
  have hm := perform_move w h.inv e
  rw [hp] at hm
  cases hm with
  | @switch _ s₁ tid rest t hl hq ht =>
      have hid : idOf s₁ tid = some t.id := by rw [idOf, ht, Option.map_some]
      exact stored_of_leave h hl hid

theorem perform_no_fault (h : Owned a) (why : String) : perform (uthreads w) e a.data ≠ .fault why := by
  intro hp
  have hm := perform_move w h.inv e
  rw [hp] at hm
  cases hm

theorem Owned.safe (h : Owned a) : Safe (uthreads w) a where
  call := fun c => by
    refine ⟨fun why hrun => ?_, fun i q hmem => ?_, fun i e mask hmem => ?_, fun i s hrun => ?_⟩
    · exact perform_no_fault h why (perform_call_run hrun)
    · rcases writes_api w h.inv h.cur c with hw | ⟨e, hw⟩ | ⟨q', hw, -⟩
      · simp [uthreads, hw] at hmem
      · simp [uthreads, hw] at hmem
      · simp only [uthreads, hw, List.mem_singleton, Write.save.injEq] at hmem
        exact hmem.1
    · rcases writes_api w h.inv h.cur c with hw | ⟨e', hw⟩ | ⟨q', hw, -⟩
      · simp [uthreads, hw] at hmem
      · simp only [uthreads, hw, List.mem_singleton, Write.make.injEq] at hmem
        obtain ⟨rfl, -, -⟩ := hmem
        exact ⟨h.cur_lt.ne', (h.fresh _ (Nat.le_refl _)).1⟩
      · simp [uthreads, hw] at hmem
    · exact stored_of_jump h (perform_call_run hrun)
  tick := by
    obtain ⟨t, ht, -, hid⟩ := exists_running_of_id h.inv h.cur
    obtain ⟨q', hw, -⟩ := saves_sigvtalrm w h.inv.config ht
    refine ⟨fun why hrun => ?_, fun i q hmem => ?_, fun i e mask hmem => ?_, fun i s hrun => ?_⟩
    · exact perform_no_fault h why (perform_tick_run hrun)
    · simp only [uthreads, hw, List.mem_singleton, Write.save.injEq] at hmem
      exact hmem.1.trans hid
    · simp [uthreads, hw] at hmem
    · exact stored_of_jump h (perform_tick_run hrun)

theorem move_ids {v : Option Int} (hi : Inv s) {s' : Scheduler} (hm : Move w s e (.ret v s')) :
    s'.runningThreadTid = s.runningThreadTid ∧ s.nextObject ≤ s'.nextObject ∧
      idOf s' s.runningThreadTid = idOf s s.runningThreadTid ∧
      ∀ tid i, idOf s' tid = some i → idOf s tid = some i ∨
        (i = s.nextObject ∧ ∃ entryPoint tid', e = .call (.spawn (some entryPoint)) ∧
          stateOf s tid' = none ∧ tid' < maxThreadNum) := by
  cases hm with
  | fail | read | blockBlocked | resumeOther =>
      exact ⟨rfl, Nat.le_refl _, rfl, fun _ _ h => .inl h⟩
  | @spawn entryPoint tid' hfree hlt hmin =>
      refine ⟨rfl, Nat.le_succ _, ?_, fun tid i h => ?_⟩
      · have hne : tid' ≠ s.runningThreadTid := by
          rintro rfl
          simp [hi.tables.stateOf_running] at hfree
        simp [idOf, spawn, Std.ExtTreeMap.getElem?_insert, hne]
      · simp only [idOf, spawn, Std.ExtTreeMap.getElem?_insert] at h
        split at h
        · exact .inr ⟨by simpa using h.symm, entryPoint, tid', rfl, hfree, hlt⟩
        · exact .inl h
  | @terminate tid' hl h0 hr =>
      refine ⟨rfl, Nat.le_refl _, ?_, fun tid i h => .inl ((stays_terminate s _).ids tid i h)⟩
      exact (idOf_erase s (index tid') s.runningThreadTid).trans (if_neg hr)
  | blockReady =>
      refine ⟨rfl, Nat.le_refl _, ?_, fun tid i h => .inl ((stays_block s _).ids tid i h)⟩
      exact idOf_modify s _ _ _ fun _ => rfl
  | resumeBlocked =>
      refine ⟨rfl, Nat.le_refl _, ?_, fun tid i h => .inl ((stays_unblock s _).ids tid i h)⟩
      exact idOf_modify s _ _ _ fun _ => rfl

theorem Owned.kept_stored (h : Owned a) {tok : Token Scheduler Fn Call}
    (hi : a.stored (uthreads w) e i = some tok) :
    Returns tok ∧ i ∈ a.ran ∨ (∃ e, tok = .entry e) ∧ i ∉ a.ran := by
  rcases (h.stored e).cases hi with hold | ⟨rfl, he⟩ | ⟨rfl, hr⟩
  · exact h.kept i tok hold
  · exact .inr ⟨he, (h.fresh _ (Nat.le_refl _)).2⟩
  · exact .inl ⟨hr, h.ran⟩

theorem Owned.named_step (h : Owned a) (hs : a.step (uthreads w) e = some a')
    (hids : ∀ tid i, idOf a'.data tid = some i → idOf a.data tid = some i ∨ i = a.data.nextObject)
    {v : Int} (hv : (some .getTid, v) ∈ a'.log i) (hid : idOf a'.data tid = some i) : v = tid := by
  have hold : (some .getTid, v) ∈ a.log i → v = tid := by
    intro hv
    rcases hids tid i hid with hid | rfl
    · exact h.named i v tid hv hid
    · rw [(h.fresh _ (Nat.le_refl _)).1] at hv
      exact absurd hv (by simp)
  rcases Atomic.step_log hs i with hlog | ⟨c, v', hlog, hnew⟩
  · exact hold (hlog ▸ hv)
  · rw [hlog, List.mem_append, List.mem_singleton, Prod.mk.injEq, Option.some.injEq] at hv
    rcases hv with hv | ⟨rfl, rfl⟩
    · exact hold hv
    · rcases hnew with ⟨rfl, rfl, hp⟩ | ⟨q, s, htok, -⟩
      · have hget : perform (uthreads w) (.call .getTid) a.data =
            .ret (some (a.data.runningThreadTid : Int)) a.data := by
          rw [perform_call_run (c := .getTid) (run_uthreadGetTid h.inv), Outcome.ret_bind]
        rw [hget, Outcome.ret.injEq, Option.some.injEq] at hp
        have hid' := hp.2 ▸ hid
        rw [← hp.1, h.inv.config.unique tid a.data.runningThreadTid a.cur hid' h.cur]
      · rcases h.kept_stored htok with ⟨hr, -⟩ | ⟨⟨e', he⟩, -⟩
        · exact hr.1.elim
        · exact absurd he (by simp)

theorem Returns.continues {tok : Token Scheduler Fn Call} {s' : Scheduler} (h : Returns tok)
    (hc : tok.Continues s s') : s' = s := by
  cases tok with
  | entry e => exact h.elim
  | call c q =>
      obtain ⟨v, hq⟩ := hc
      have heq := (h.2 s).symm.trans hq
      simp only [Outcome.ret.injEq] at heq
      exact heq.2.symm
  | tick q =>
      have heq := (h s).symm.trans hc
      simp only [Outcome.ret.injEq, true_and] at heq
      exact heq.symm

theorem Owned.continues (h : Owned a) {tok : Token Scheduler Fn Call} {s' : Scheduler}
    (htok : a.stored (uthreads w) e i = some tok) (hc : tok.Continues s s') : s' = s := by
  rcases h.kept_stored htok with ⟨hr, -⟩ | ⟨⟨e', rfl⟩, -⟩
  · exact hr.continues hc
  · exact hc

theorem Owned.kept_landed (h : Owned a) {tok : Token Scheduler Fn Call} {j : Nat}
    (hi : Function.update (a.stored (uthreads w) e) j none i = some tok) :
    Returns tok ∧ i ∈ j :: a.ran ∨ (∃ e, tok = .entry e) ∧ i ∉ j :: a.ran := by
  rw [Function.update_apply] at hi
  split at hi
  · cases hi
  · rename_i hne
    rcases h.kept_stored hi with ⟨hr, hran⟩ | ⟨he, hran⟩
    · exact .inl ⟨hr, List.mem_cons_of_mem _ hran⟩
    · exact .inr ⟨he, List.not_mem_cons_of_ne_of_not_mem hne hran⟩

theorem Owned.step_ret (h : Owned a) (hs : a.step (uthreads w) e = some a') {v : Option Int}
    (hp : perform (uthreads w) e a.data = .ret v a'.data) (hcur : a'.cur = a.cur)
    (henv : a'.env = a.stored (uthreads w) e) (hran : a'.ran = a.ran)
    (hlog : ∀ i ≠ a.cur, a'.log i = a.log i) : Owned a' := by
  have hm := perform_move w h.inv e
  rw [hp] at hm
  obtain ⟨hrun, hnext, hself, hids⟩ := move_ids h.inv hm
  have hinv : Inv a'.data := operate_inv w h.inv (operate_of_ret w hp)
  have hcur' : idOf a'.data a'.data.runningThreadTid = some a'.cur := by
    rw [hrun, hself, hcur, h.cur]
  refine ⟨hinv, hcur', fun tid i hid hne => ?_, fun i hi => ?_, ?_, fun i tok htok => ?_, ?_⟩
  · rw [henv]
    rcases hids tid i hid with hold | ⟨rfl, entryPoint, tid', rfl, hfree, hlt⟩
    · exact (h.stored e).keeps (h.waiting tid i hold (hrun ▸ hne))
    · exact stored_of_spawn hfree hlt
  · have hi' := hnext.trans hi
    rw [hlog i (Nat.ne_of_gt (Nat.lt_of_lt_of_le h.cur_lt hi')), hran]
    exact h.fresh i hi'
  · rw [hcur, hran]
    exact h.ran
  · rw [hran]
    rw [henv] at htok
    exact h.kept_stored htok
  · exact fun i v tid hv hid => h.named_step hs
      (fun tid i hid => (hids tid i hid).imp_right fun hn => hn.1) hv hid

theorem Owned.step_jump (h : Owned a) (hs : a.step (uthreads w) e = some a') {i : Nat}
    (hp : perform (uthreads w) e a.data = .jump i s)
    (hland : Atomic.land { a with data := s, env := a.stored (uthreads w) e } i = some a') :
    Owned a' := by
  have hm := perform_move w h.inv e
  rw [hp] at hm
  obtain ⟨tok, htok, hcur, henv, hran, hlog, hcont⟩ := Atomic.land_cases hland
  have hinv : Inv s := operate_inv w h.inv (operate_of_jump w hp)
  cases hm with
  | @switch _ s₁ next rest t hl hq ht =>
      have hdispatch : ∀ tid, idOf (dispatch w s₁ next rest) tid = idOf s₁ tid :=
        fun tid => idOf_modify s₁ next tid _ fun _ => rfl
      have hid : idOf s₁ next = some t.id := by rw [idOf, ht, Option.map_some]
      have hdata : a'.data = dispatch w s₁ next rest := h.continues htok hcont
      have hids : ∀ tid i, idOf a'.data tid = some i → idOf s₁ tid = some i := by
        intro tid i hi
        rwa [hdata, hdispatch] at hi
      have hnext : a'.data.nextObject = a.data.nextObject := by
        have hsetup := (hl.stays w).setup
        simp only [setup, Prod.mk.injEq] at hsetup
        rw [hdata]
        exact hsetup.2.2.2.2.1
      refine ⟨hdata ▸ hinv, ?_, fun tid i hi hne => ?_, fun i hi => ?_, ?_, fun i tok' htok' => ?_, ?_⟩
      · rw [hcur, hdata]
        exact (hdispatch next).trans hid
      · have hne' : i ≠ t.id := by
          rintro rfl
          have heq := hinv.config.unique tid next t.id (hdata ▸ hi) ((hdispatch next).trans hid)
          rw [hdata] at hne
          exact hne heq
        rw [henv, Function.update_of_ne hne']
        exact stored_of_leave h hl (hids tid i hi)
      · have hlt : t.id < a.data.nextObject :=
          h.inv.config.fresh next t.id ((hl.stays w).ids next t.id hid)
        rw [hnext] at hi
        have hne := Nat.ne_of_gt (Nat.lt_of_lt_of_le hlt hi)
        rw [hlog i hne, hran, List.mem_cons, not_or]
        exact ⟨(h.fresh i hi).1, hne, (h.fresh i hi).2⟩
      · rw [hcur, hran]
        exact List.mem_cons_self
      · rw [henv] at htok'
        rw [hran]
        exact h.kept_landed htok'
      · exact fun i v tid hv hid' => h.named_step hs
          (fun tid i hi => .inl ((hl.stays w).ids tid i (hids tid i hi))) hv hid'

theorem Owned.step (h : Owned a) (hs : a.step (uthreads w) e = some a') : Owned a' := by
  rcases Atomic.step_cases hs with ⟨v, hp, hcur, henv, hran, hlog⟩ | ⟨i, s, hp, hland⟩
  · exact h.step_ret hs hp hcur henv hran hlog
  · exact h.step_jump hs hp hland

theorem owned_start {q : Int32} (hq : 0 ≤ q.toInt) : Owned (Atomic.start (initial w q) 0) where
  inv := inv_initial w hq
  cur := by
    have h : (Atomic.start (initial w q) 0 : Atomic Scheduler Fn Call).data = initial w q := rfl
    rw [h, idOf_initial]
    rfl
  waiting := by
    intro tid i hid hne
    have hid' : idOf (initial w q) tid = some i := hid
    rw [idOf_initial] at hid'
    split at hid'
    · exact absurd ‹0 = tid›.symm hne
    · exact absurd hid' (by simp)
  fresh := by
    intro i hi
    have hpos : i ≠ 0 := Nat.ne_of_gt (Nat.lt_of_lt_of_le Nat.zero_lt_one hi)
    simp [Atomic.start, hpos]
  ran := by simp [Atomic.start]
  kept := by simp [Atomic.start]
  named := by
    intro i v tid hv
    by_cases hi : i = 0
    · simp [Atomic.start, hi] at hv
    · simp [Atomic.start, hi] at hv

theorem Owned.steps (h : Owned a) {es : List (Event Call)} (hs : a.steps (uthreads w) es = some a') :
    Owned a' :=
  Atomic.steps_induction (fun _ _ _ ha hs => Owned.step ha hs) hs h

theorem boots_setitimer {α β γ : Type} {f : Int → Code α} {g : α → Code β} {h : β → Code γ} {v : γ}
    (hc : s.timer.valid = true) (hs : Configured s)
    (hq : Quiet Configured v (((f 0).bind g).bind h)) :
    Boots Scheduler.armed Configured v (((Source.setitimer >>= f).bind g).bind h) s := by
  refine .get ?_
  have heq : (((if s.timer.valid = true then (do
      Prog.modify (fun s => { s with itimer := s.timer })
      return 0 : Code Int) else return failureError).bind f).bind g).bind h =
      .set (fun s => { s with itimer := s.timer }) (((f 0).bind g).bind h) := by
    rw [if_pos hc]
    rfl
  exact heq ▸ .last hs hq

theorem boots_uthreadInit (w : Width) {q : Int32} (hq : 0 ≤ q.toInt) :
    Boots Scheduler.armed Configured 0 (uthreadInit w q) .blank := by
  have hv := timer_valid hq
  refine .note ?_
  rw [if_neg (Int.not_lt.mpr hq)]
  refine .set rfl (.note (.set rfl ?_))
  refine .note (.get (.set rfl (.make (.note ?_))))
  refine .note (.get ?_)
  refine .set rfl (.note ?_)
  refine .set rfl (.set rfl (.set rfl (.set rfl (.set rfl (.set rfl (.set rfl ?_))))))
  have hi : Itimerval.valid ⟨⟨q.toInt.tdiv second, q.toInt.tmod second⟩,
      ⟨q.toInt.tdiv second, q.toInt.tmod second⟩⟩ = true := by
    simp [Itimerval.valid, hv]
  refine boots_setitimer ?_ ?_ ?_
  · exact hi
  · exact rfl
  · exact .note (.note .pure)

/-- The process at the call of uthread_init. -/
def start (w : Width) (masked : Bool) (q : Int32) : Machine Scheduler Fn Call :=
  .boot .blank masked (uthreadInit w q)

variable {m m' : Machine Scheduler Fn Call} {ls : List (Label Call)} {masked : Bool} {q : Int32}

abbrev Follows (w : Width) (q : Int32) (m : Machine Scheduler Fn Call) : Prop :=
  Simulated (uthreads w) Configured (Atomic.start (initial w q) 0) m

theorem Follows.step {l : Label Call} (hq : 0 ≤ q.toInt) (h : Follows w q m)
    (hs : m.step (uthreads w) l = some m') : Follows w q m' :=
  Simulated.step (fun c => (opening_api w c).mono fun _ => trivial) (section_sigvtalrm w)
    (fun _ _ hes => ((owned_start hq).steps hes).safe) h hs

/-- Past uthread_init, an invariant that the steps keep holds in every run. -/
theorem start_induction {P : Machine Scheduler Fn Call → Prop} (hq : 0 ≤ q.toInt)
    (hstart : ∀ m, Started Configured masked (initial w q) 0 m → P m)
    (hstep : ∀ m l m', Follows w q m → P m → m.step (uthreads w) l = some m' → P m')
    (h : (start w masked q).steps (uthreads w) ls = some m) :
    Booting (uthreads w) Configured masked (initial w q) 0 m ∨ (Follows w q m ∧ P m) := by
  have hrun : (uthreadInit w q).run .blank = .ret 0 (initial w q) := by
    rw [run_uthreadInit, if_neg (Int.not_lt.mpr hq)]
  apply boot_induction (S := uthreads w) (boots_uthreadInit w hq) hrun rfl
    (fun m hm => ⟨hm.simulated, hstart m hm⟩) _ h
  intro m l m' hm hs
  exact ⟨hm.1.step hq hs, hstep m l m' hm.1 hm.2 hs⟩

theorem start_follows (hq : 0 ≤ q.toInt) (h : (start w masked q).steps (uthreads w) ls = some m) :
    Booting (uthreads w) Configured masked (initial w q) 0 m ∨ Follows w q m :=
  (start_induction (P := fun _ => True) hq (fun _ _ => trivial) (fun _ _ _ _ _ _ => trivial) h).imp_right
    And.left

theorem Follows.owned (hq : 0 ≤ q.toInt) (h : Follows w q m) :
    Common (uthreads w) Configured m ∧ ∃ es a, (Atomic.start (initial w q) 0).steps (uthreads w) es =
      some a ∧ Owned a ∧ Phase (uthreads w) Configured m a := by
  obtain ⟨hc, es, a, hes, hp⟩ := h
  exact ⟨hc, es, a, hes, (owned_start hq).steps hes, hp⟩

end Uthreads.Contexts
