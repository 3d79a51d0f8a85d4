import Uthreads.ThreadPool

namespace Uthreads.Fairness

open Refinement ThreadPool

variable {α : Type} [DecidableEq α] {names : Finset α} {main a b next : α} {p p' : Pool names}
  {task : α → Option Task} {l : Label α} {ls : List (Label α)}

def CanRun (a : α) (p : Pool names) : Prop := a ∈ p.running :: p.queue

/-- The thread is there and not stopped; it may be asleep. -/
def Unstopped (a : α) (p : Pool names) : Prop := ∃ t, p.task a = some t ∧ t.stopped = false

omit [DecidableEq α] in
theorem CanRun.unstopped (h : CanRun a p) : Unstopped a p := by
  obtain ⟨t, ht, hs, -⟩ := (p.ready a).mp h
  exact ⟨t, ht, hs⟩

def gives (a : α) (l : Label α) : Nat := l.next?.toList.count a

def switches (l : Label α) : Nat := l.next?.toList.length

omit [DecidableEq α] in
theorem dispatches_cons (l : Label α) (ls : List (Label α)) :
    dispatches (l :: ls) = l.next?.toList ++ dispatches ls := by
  rw [dispatches, List.filterMap_cons]
  cases l.next? <;> rfl

theorem count_dispatches (a : α) (ls : List (Label α)) :
    (dispatches ls).count a = (ls.map (gives a)).sum := by
  induction ls with
  | nil => rfl
  | cons l ls ih => rw [dispatches_cons, List.count_append, ih, List.map_cons, List.sum_cons, gives]

omit [DecidableEq α] in
theorem length_dispatches (ls : List (Label α)) :
    (dispatches ls).length = (ls.map switches).sum := by
  induction ls with
  | nil => rfl
  | cons l ls ih =>
      rw [dispatches_cons, List.length_append, ih, List.map_cons, List.sum_cons, switches]

theorem length_le (p : Pool names) : (p.running :: p.queue).length ≤ names.card := by
  rw [← List.toFinset_card_of_nodup p.nodup]
  apply Finset.card_le_card
  intro a ha
  obtain ⟨t, ht, -⟩ := (p.ready a).mp (List.mem_toFinset.mp ha)
  exact p.named a t ht

def turn : Label α → Fifo.Turn α
  | .tick next | .leave _ next => .serve next
  | .answer (.terminate a) .done | .answer (.block a) .done => .drop (fun b => b = a)
  | .answer _ _ => .drop (fun _ => false)

theorem served_turn (l : Label α) : (turn l).served = l.next? := by
  cases l with
  | tick | leave => rfl
  | answer r v => cases r <;> cases v <;> rfl

theorem erase_eq_filter (p : Pool names) (a : α) :
    p.queue.erase a = p.queue.filter (fun b => !decide (b = a)) := by
  rw [(List.nodup_cons.mp p.nodup).2.erase_eq_filter]
  refine List.filter_congr fun b _ => ?_
  rw [bne, beq_eq_decide]

theorem queue_step (h : Step main p l p') : Fifo.Step p.queue (turn l) p'.queue := by
  have hsame : ∀ q : List α, Fifo.Step q (.drop fun _ => false) q :=
    fun q => .enter [] (fun _ _ => rfl) (List.append_nil q).symm
  cases h with
  | @refuse r h =>
      cases r <;> exact hsame _
  | self | now | quantums => exact hsame _
  | spawn ha hfree h => exact .enter _ (fun _ _ => rfl) h.queue
  | terminate ht hm hr h =>
      refine .drop [] ?_
      rw [h.queue, List.append_nil, erase_eq_filter]
  | block ht hm hr h =>
      refine .drop [] ?_
      rw [h.queue, List.append_nil, erase_eq_filter]
  | resume ht h =>
      rename_i t
      by_cases hs : t.stopped = true ∧ t.wakeAt = none
      · exact .enter [_] (fun _ _ => rfl) (h.queue.trans (if_pos hs))
      · rw [h.queue, if_neg hs]
        exact hsame _
  | tick h =>
      obtain ⟨new, -, -, hq⟩ := h.queue
      exact .serve new hq
  | leave hl h =>
      obtain ⟨new, -, -, hq⟩ := h.queue
      exact .serve new hq

theorem stays_step (h : Step main p l p') (ha : Unstopped a p') : (turn l).gone a = false := by
  obtain ⟨t', ht', hs'⟩ := ha
  cases h with
  | @refuse r h => cases r <;> rfl
  | self | now | quantums | spawn | resume | tick | leave => rfl
  | @terminate b p' ht hm hr h =>
      have hne : a ≠ b := by
        rintro rfl
        simp [h.task] at ht'
      exact decide_eq_false hne
  | @block b t p' ht hm hr h =>
      have hne : a ≠ b := by
        rintro rfl
        rw [h.task, Function.update_self, Option.some.injEq] at ht'
        simp [← ht'] at hs'
      exact decide_eq_false hne

theorem switch_or (h : Step main p l p') :
    (∃ next task, l.next? = some next ∧ Switch p task next p' ∧ ∀ a ≠ p.running, task a = p.task a) ∨
    (l.next? = none ∧ p'.running = p.running ∧ p'.now = p.now) := by
  cases h with
  | refuse | self | now | quantums => exact .inr ⟨rfl, rfl, rfl⟩
  | spawn ha hfree h => exact .inr ⟨rfl, h.running, h.now⟩
  | terminate ht hm hr h => exact .inr ⟨rfl, h.running, h.now⟩
  | block ht hm hr h => exact .inr ⟨rfl, h.running, h.now⟩
  | resume ht h => exact .inr ⟨rfl, h.running, h.now⟩
  | tick h => exact .inl ⟨_, _, rfl, h, fun _ _ => rfl⟩
  | leave hl h =>
      refine .inl ⟨_, _, rfl, h, fun a ha => ?_⟩
      cases hl <;> exact Function.update_of_ne ha _ _

theorem gives_of_none (hn : l.next? = none) : gives a l = 0 := by
  rw [gives, hn]
  rfl

theorem gives_self (hn : l.next? = some a) : gives a l = 1 := by
  simp [gives, hn]

theorem gives_of_ne (hn : l.next? = some next) (hne : next ≠ a) : gives a l = 0 := by
  simp [gives, hn, hne]

theorem leaves_task {r : Request α} {t₀ : Task} (hl : Leaves main p r task)
    (h : task a = some t₀) :
    ∃ t, p.task a = some t ∧ t₀.quantums = t.quantums ∧ (a ≠ p.running → t₀ = t) := by
  by_cases ha : a = p.running
  · subst ha
    cases hl with
    | block hm ht | sleep hn hm ht =>
        rw [Function.update_self, Option.some.injEq] at h
        subst h
        exact ⟨_, ht, rfl, fun hne => absurd rfl hne⟩
    | terminate hm => simp at h
  · refine ⟨t₀, ?_, rfl, fun _ => rfl⟩
    cases hl with
    | block | sleep | terminate => rwa [Function.update_of_ne ha] at h

theorem switch_task {t' : Task} (h : Switch p task next p') (ht' : p'.task a = some t') :
    ∃ t₀, task a = some t₀ ∧ t'.quantums = t₀.quantums + (if a = next then 1 else 0) ∧
      t'.stopped = t₀.stopped ∧ t'.wakeAt = (t₀.wake p.now).wakeAt := by
  rw [h.task, Option.map_eq_some_iff] at ht'
  obtain ⟨t₀, ht₀, rfl⟩ := ht'
  refine ⟨t₀, ht₀, ?_⟩
  split <;> exact ⟨rfl, rfl, rfl⟩

/-- What a step does to a task t that stays: its quantums grow when the step gives
it the processor, and only the end of a quantum or a request of its own change
the time it sleeps to. -/
structure Carries (p : Pool names) (l : Label α) (a : α) (t t' : Task) : Prop where
  quantums : t'.quantums = t.quantums + gives a l
  kept : l.next? = none → t'.wakeAt = t.wakeAt
  switched : l.next? ≠ none → a ≠ p.running →
    t'.stopped = t.stopped ∧ t'.wakeAt = (t.wake p.now).wakeAt

theorem Carries.keep {t t' : Task} (hn : l.next? = none) (hq : t'.quantums = t.quantums)
    (hw : t'.wakeAt = t.wakeAt) : Carries p l a t t' where
  quantums := by rw [gives_of_none hn, hq, Nat.add_zero]
  kept := fun _ => hw
  switched := fun hs => absurd hn hs

theorem Carries.switch {t t₀ t' : Task} (hn : l.next? = some next)
    (hq : t'.quantums = t₀.quantums + (if a = next then 1 else 0)) (hst : t'.stopped = t₀.stopped)
    (hw : t'.wakeAt = (t₀.wake p.now).wakeAt) (hq₀ : t₀.quantums = t.quantums)
    (heq : a ≠ p.running → t₀ = t) : Carries p l a t t' where
  quantums := by
    rw [hq, hq₀]
    by_cases ha : a = next
    · rw [if_pos ha, gives_self (ha ▸ hn)]
    · rw [if_neg ha, gives_of_ne hn (Ne.symm ha)]
  kept := fun hs => by simp [hn] at hs
  switched := fun _ ha => heq ha ▸ ⟨hst, hw⟩

theorem task_or {t' : Task} (h : Step main p l p') (ht' : p'.task a = some t') :
    (p.task a = none ∧ l.next? = none ∧ t'.quantums = 0 ∧ t'.wakeAt = none) ∨
    ∃ t, p.task a = some t ∧ Carries p l a t t' := by
  have hupdate : ∀ {b : α} {o : Option Task}, l.next? = none → p'.task = Function.update p.task b o →
      (∀ t₀, o = some t₀ → ∃ t, p.task b = some t ∧ t₀.quantums = t.quantums ∧
        t₀.wakeAt = t.wakeAt) → ∃ t, p.task a = some t ∧ Carries p l a t t' := by
    intro b o hn htask hof
    rw [htask] at ht'
    by_cases ha : a = b
    · subst ha
      rw [Function.update_self] at ht'
      obtain ⟨t, ht, hq, hw⟩ := hof t' ht'
      exact ⟨t, ht, .keep hn hq hw⟩
    · rw [Function.update_of_ne ha] at ht'
      exact ⟨t', ht', .keep hn rfl rfl⟩
  cases h with
  | refuse | self | now | quantums => exact .inr ⟨t', ht', .keep rfl rfl rfl⟩
  | @spawn b p' hb hfree h =>
      by_cases ha : a = b
      · subst ha
        rw [h.task, Function.update_self, Option.some.injEq] at ht'
        exact .inl ⟨hfree, rfl, by rw [← ht'], by rw [← ht']⟩
      · rw [h.task, Function.update_of_ne ha] at ht'
        exact .inr ⟨t', ht', .keep rfl rfl rfl⟩
  | terminate ht hm hr h => exact .inr (hupdate rfl h.task (by simp))
  | block ht hm hr h | resume ht h =>
      exact .inr (hupdate rfl h.task fun t₀ ht₀ => ⟨_, ht, by simp [← Option.some.inj ht₀]⟩)
  | tick h =>
      obtain ⟨t₀, ht₀, hq, hst, hw⟩ := switch_task h ht'
      exact .inr ⟨t₀, ht₀, .switch rfl hq hst hw rfl fun _ => rfl⟩
  | leave hl h =>
      obtain ⟨t₀, ht₀, hq, hst, hw⟩ := switch_task h ht'
      obtain ⟨t, ht, hq₀, heq⟩ := leaves_task hl ht₀
      exact .inr ⟨t, ht, .switch rfl hq hst hw hq₀ heq⟩

/-- How often a can run before b does. -/
def slack (a b : α) (p : Pool names) : Nat :=
  if b ∈ p.queue then (p.queue.takeWhile (fun c => c ≠ b)).count a else 1

theorem slack_split {pre post : List α} (hq : p.queue = pre ++ b :: post) (hb : b ∉ pre) :
    slack a b p = pre.count a := by
  have hall : pre.takeWhile (fun c => decide (c ≠ b)) = pre :=
    List.takeWhile_eq_self_iff.mpr fun c hc => by simpa using ne_of_mem_of_not_mem hc hb
  rw [slack, hq, if_pos (by simp), List.takeWhile_append, hall, if_pos rfl,
    List.takeWhile_cons_of_neg (by simp), List.append_nil]

theorem slack_le_one (p : Pool names) : slack a b p ≤ 1 := by
  rw [slack]
  split
  · have hnd := (List.nodup_cons.mp p.nodup).2
    exact List.nodup_iff_count_le_one.mp (hnd.sublist (List.takeWhile_sublist _)) a
  · exact Nat.le_refl 1

theorem overtake_step (hab : a ≠ b) (hb : CanRun b p) (h : Step main p l p') (hb' : CanRun b p') :
    gives a l + slack a b p' ≤ gives b l + slack a b p := by
  have hle : slack a b p' ≤ 1 := slack_le_one p'
  rcases List.mem_cons.mp hb with rfl | hq
  · have hnq : p.running ∉ p.queue := (List.nodup_cons.mp p.nodup).1
    have hone : slack a p.running p = 1 := if_neg hnq
    rcases switch_or h with ⟨next, task, hn, hs, -⟩ | ⟨hn, -, -⟩
    · by_cases ha : next = a
      · have hrun : p'.running = a := hs.running.trans ha
        have hmem : p.running ∈ p'.queue := by
          refine (List.mem_cons.mp hb').resolve_left ?_
          rw [hrun]
          exact Ne.symm hab
        have hna : a ∉ p'.queue := hrun ▸ (List.nodup_cons.mp p'.nodup).1
        have hzero : slack a p.running p' = 0 := by
          rw [slack, if_pos hmem, List.count_eq_zero]
          exact fun hm => hna ((List.takeWhile_sublist _).mem hm)
        rw [gives_self (ha ▸ hn), hzero, hone]
        omega
      · rw [gives_of_ne hn ha]
        omega
    · rw [gives_of_none hn]
      omega
  · obtain ⟨pre, post, hsplit, hpre⟩ := List.eq_append_cons_of_mem hq
    have hturn := queue_step h
    rw [hsplit] at hturn
    rw [slack_split hsplit hpre]
    have hserved := served_turn l
    rcases hturn.ahead (stays_step h hb'.unstopped) with
      ⟨ht, rfl⟩ | ⟨c, pre', post', ht, rfl, hq'⟩ | ⟨gone, post', ht, hq'⟩
    · rw [ht] at hserved
      rw [gives_self hserved.symm, gives_of_ne hserved.symm (Ne.symm hab)]
      omega
    · rw [ht] at hserved
      have hpre' : b ∉ pre' := fun hm => hpre (List.mem_cons_of_mem _ hm)
      rw [slack_split hq' hpre', gives, ← hserved, List.count_cons]
      simp only [Fifo.Turn.served, Option.toList_some, List.count_singleton]
      omega
    · rw [ht] at hserved
      have hpre' : b ∉ pre.filter (fun c => !gone c) := fun hm => hpre (List.mem_of_mem_filter hm)
      rw [slack_split hq' hpre', gives_of_none hserved.symm]
      have hcount : (pre.filter (fun c => !gone c)).count a ≤ pre.count a :=
        List.filter_sublist.count_le a
      omega

/-- Whatever it does, no thread runs more than once more than one that can run
all the time. -/
theorem overtaken_once (h : Exec (Within (CanRun b) (Step main)) p ls p') (hb : CanRun b p)
    (hab : a ≠ b) : (dispatches ls).count a ≤ (dispatches ls).count b + 1 := by
  have hsum := h.potential (f := gives a) (g := gives b)
    (fun _ _ _ hb h hb' => overtake_step hab hb h hb') hb
  have hle : slack a b p ≤ 1 := slack_le_one p
  rw [count_dispatches, count_dispatches]
  omega

def deadline (a : α) (p : Pool names) : Nat := ((p.task a).bind Task.wakeAt).getD 0

/-- A bound on the switches to other threads before a runs. -/
def wait (a : α) (p : Pool names) : Nat :=
  if a ∈ p.queue then p.queue.idxOf a else deadline a p - p.now + (names.card - 1)

theorem idxOf_lt (ha : a ∈ p.queue) : p.queue.idxOf a + 1 < names.card := by
  have hlt := List.idxOf_lt_length_of_mem ha
  have hle := length_le p
  rw [List.length_cons] at hle
  omega

theorem wait_running (h : p.running = a) : wait a p = names.card - 1 := by
  subst h
  obtain ⟨t, ht, -, hw⟩ := (p.ready p.running).mp List.mem_cons_self
  have hnq : p.running ∉ p.queue := (List.nodup_cons.mp p.nodup).1
  rw [wait, if_neg hnq, deadline, ht, Option.bind_some, hw, Option.getD_none, Nat.zero_sub, Nat.zero_add]

theorem deadline_le (h : Step main p l p') (hn : l.next? = none) : deadline a p' ≤ deadline a p := by
  cases ht' : p'.task a with
  | none => simp [deadline, ht']
  | some t' =>
      rcases task_or h ht' with ⟨-, -, -, hw⟩ | ⟨t, ht, hc⟩
      · simp [deadline, ht', hw]
      · simp [deadline, ht', ht, hc.kept hn]

theorem deadline_switch (h : Step main p l p') (hn : l.next? ≠ none) (ha' : Unstopped a p')
    (hself : a ≠ p.running) (hout : ¬ CanRun a p') :
    p.now < deadline a p ∧ deadline a p' = deadline a p := by
  obtain ⟨t', ht', hs'⟩ := ha'
  have hw' : t'.wakeAt ≠ none := fun hw => hout ((p'.ready a).mpr ⟨t', ht', hs', hw⟩)
  rcases task_or h ht' with ⟨-, hnone, -⟩ | ⟨t, ht, hc⟩
  · exact absurd hnone hn
  · obtain ⟨-, hw⟩ := hc.switched hn hself
    obtain ⟨d, hd⟩ := Option.ne_none_iff_exists'.mp hw'
    have hfilter : t.wakeAt.filter (fun d => p.now < d) = some d := hw.symm.trans hd
    obtain ⟨hd₀, hlt⟩ := Option.filter_eq_some_iff.mp hfilter
    have hlt' : p.now < d := by simpa using hlt
    exact ⟨by simpa [deadline, ht, hd₀] using hlt', by simp [deadline, ht', ht, hd, hd₀]⟩

theorem wait_step (h : Step main p l p') (ha' : Unstopped a p')
    (hself : a = p.running → CanRun a p') :
    switches l + wait a p' ≤ names.card * gives a l + wait a p := by
  have hserved := served_turn l
  by_cases hnext : l.next? = some a
  · have hrun : p'.running = a := by
      rcases switch_or h with ⟨next, task, hn, hs, -⟩ | ⟨hn, -⟩
      · exact hs.running.trans (Option.some.inj (hn.symm.trans hnext))
      · simp [hn] at hnext
    have hle := length_le p
    rw [List.length_cons] at hle
    rw [wait_running hrun, gives_self hnext, switches, hnext, Option.toList_some, List.length_singleton]
    omega
  · by_cases hq : a ∈ p.queue
    · obtain ⟨hq', hle⟩ := (queue_step h).idxOf_le hq (stays_step h ha') (hserved ▸ hnext)
      rw [hserved] at hle
      rw [wait, if_pos hq', wait, if_pos hq, switches]
      omega
    · have hwait : wait a p = deadline a p - p.now + (names.card - 1) := if_neg hq
      rw [hwait]
      rcases switch_or h with ⟨next, task, hn, hs, -⟩ | ⟨hn, -, hnow⟩
      · have hone : switches l = 1 := by rw [switches, hn]; rfl
        by_cases hq' : a ∈ p'.queue
        · have hlt := idxOf_lt hq'
          rw [wait, if_pos hq']
          omega
        · have hrun : a ≠ p'.running := by
            rintro rfl
            exact hnext (hn.trans (congrArg some hs.running.symm))
          have hout : ¬ CanRun a p' := List.not_mem_cons_of_ne_of_not_mem hrun hq'
          obtain ⟨hlt, heq⟩ := deadline_switch h (by simp [hn]) ha' (fun he => hout (hself he)) hout
          rw [wait, if_neg hq', hs.now, heq]
          omega
      · have hzero : switches l = 0 := by rw [switches, hn]; rfl
        by_cases hq' : a ∈ p'.queue
        · have hlt := idxOf_lt hq'
          rw [wait, if_pos hq']
          omega
        · have hle := deadline_le (a := a) h hn
          rw [wait, if_neg hq', hnow]
          omega

/-- A thread that can run all the time has its share of the switches. -/
theorem share (h : Exec (Within (CanRun a) (Step main)) p ls p') (ha : CanRun a p) :
    (dispatches ls).length ≤ names.card * (dispatches ls).count a + (names.card - 1) := by
  have hsum := h.potential (f := switches) (g := fun l => names.card * gives a l)
    (fun _ _ _ _ h ha' => wait_step h ha'.unstopped fun _ => ha') ha
  have hle : wait a p ≤ names.card - 1 := by
    rcases List.mem_cons.mp ha with he | hq
    · exact (wait_running he.symm).le
    · have hlt := idxOf_lt hq
      rw [wait, if_pos hq]
      omega
  rw [List.sum_map_mul_left] at hsum
  rw [length_dispatches, count_dispatches]
  omega

def ran (a : α) (p : Pool names) : Nat := ((p.task a).map Task.quantums).getD 0

theorem now_step (h : Step main p l p') : p'.now = p.now + switches l := by
  rcases switch_or h with ⟨next, task, hn, hs, -⟩ | ⟨hn, -, hnow⟩
  · rw [switches, hn]
    exact hs.now
  · rw [switches, hn]
    exact hnow

theorem now_eq (h : Exec (Step main) p ls p') : p'.now = p.now + (dispatches ls).length := by
  rw [length_dispatches]
  induction h with
  | nil => rfl
  | cons h _ ih => rw [ih, now_step h, List.map_cons, List.sum_cons, Nat.add_assoc]

theorem ran_step (h : Step main p l p') : ran a p' ≤ ran a p + gives a l := by
  cases ht' : p'.task a with
  | none => simp [ran, ht']
  | some t' =>
      rcases task_or h ht' with ⟨ht, -, hq, -⟩ | ⟨t, ht, hc⟩
      · simp [ran, ht', hq]
      · simp [ran, ht', ht, hc.quantums]

theorem ran_le (h : Exec (Step main) p ls p') : ran a p' ≤ ran a p + (dispatches ls).count a := by
  rw [count_dispatches]
  induction h with
  | nil => exact Nat.le_refl _
  | cons h _ ih =>
      have h₁ := ran_step (a := a) h
      rw [List.map_cons, List.sum_cons]
      omega

theorem ran_eq (h : Exec (Within (fun p => p.task a ≠ none) (Step main)) p ls p')
    (ha : p.task a ≠ none) : ran a p' = ran a p + (dispatches ls).count a := by
  rw [count_dispatches]
  induction h with
  | nil => rfl
  | @cons p p' p'' l ls h _ ih =>
      obtain ⟨t', ht'⟩ := Option.ne_none_iff_exists'.mp h.2
      have hstep : ran a p' = ran a p + gives a l := by
        rcases task_or h.1 ht' with ⟨ht, -⟩ | ⟨t, ht, hc⟩
        · exact absurd ht ha
        · simp [ran, ht', ht, hc.quantums]
      rw [ih h.2, hstep, List.map_cons, List.sum_cons, Nat.add_assoc]

theorem ready_wake {t : Task} (h : t.Ready) (now : Nat) : (t.wake now).Ready := by
  obtain ⟨hs, hw⟩ := h
  exact ⟨hs, by rw [Task.wake, hw, Option.filter_none]⟩

theorem main_step (hmain : CanRun main p) (h : Step main p l p') : CanRun main p' := by
  obtain ⟨t, ht, hr⟩ := (p.ready main).mp hmain
  refine (p'.ready main).mpr ?_
  have hswitch : ∀ {task : α → Option Task} {next : α}, Switch p task next p' →
      task main = p.task main → ∃ t, p'.task main = some t ∧ t.Ready := by
    intro task next hs heq
    refine ⟨_, by rw [hs.task, heq, ht, Option.map_some], ?_⟩
    split <;> exact ready_wake hr p.now
  have hupdate : ∀ {b : α} {o : Option Task}, main ≠ b → p'.task = Function.update p.task b o →
      ∃ t, p'.task main = some t ∧ t.Ready := by
    intro b o hne htask
    exact ⟨t, by rw [htask, Function.update_of_ne hne, ht], hr⟩
  cases h with
  | refuse | self | now | quantums => exact ⟨t, ht, hr⟩
  | spawn hb hfree h =>
      refine hupdate ?_ h.task
      rintro rfl
      simp [hfree] at ht
  | terminate hb hm _ h | block hb hm _ h => exact hupdate (Ne.symm hm) h.task
  | @resume b u p' hu h =>
      by_cases hb : main = b
      · subst hb
        obtain rfl := Option.some.inj (ht.symm.trans hu)
        refine ⟨{ t with stopped := false }, by rw [h.task, Function.update_self], rfl, hr.2⟩
      · exact hupdate hb h.task
  | tick h => exact hswitch h rfl
  | leave hl h =>
      refine hswitch h ?_
      cases hl with
      | block hm | sleep _ hm | terminate hm => exact Function.update_of_ne (Ne.symm hm) _ _

theorem canRun_start (hmain : main ∈ names) : CanRun main (Pool.start hmain) := List.mem_cons_self

theorem main_runs {hmain : main ∈ names} (h : Exec (Step main) (Pool.start hmain) ls p) :
    Exec (Within (CanRun main) (Step main)) (Pool.start hmain) ls p :=
  h.within (fun _ _ _ hm h => main_step hm h) (canRun_start hmain)

theorem share_main {hmain : main ∈ names} (h : Exec (Step main) (Pool.start hmain) ls p) :
    p.now ≤ names.card * ran main p ∧ ∀ a, ran a p ≤ ran main p := by
  have hruns := main_runs h
  have hnow := now_eq h
  have hran := ran_eq (a := main) (hruns.mono fun _ _ _ h => ⟨h.1, by
    obtain ⟨t, ht, -⟩ := h.2.unstopped
    simp [ht]⟩) (by simp [Pool.start])
  have hstart : (Pool.start hmain).now = 1 ∧ ran main (Pool.start hmain) = 1 := by
    simp [Pool.start, ran]
  have hshare := share hruns (canRun_start hmain)
  have hcard : 0 < names.card := Finset.card_pos.mpr ⟨main, hmain⟩
  rw [hstart.1] at hnow
  rw [hstart.2] at hran
  refine ⟨?_, fun a => ?_⟩
  · rw [hnow, hran, Nat.mul_add, Nat.mul_one]
    omega
  · by_cases ha : a = main
    · exact le_of_eq (congrArg (fun a => ran a p) ha)
    · have hover := overtaken_once hruns (canRun_start hmain) ha
      have hle := ran_le (a := a) h
      have hzero : ran a (Pool.start hmain) = 0 := by simp [Pool.start, ran, ha]
      omega

theorem asleep_step {t : Task} {d : Nat} (h : Step main p l p') (ht : p.task a = some t)
    (hd : t.wakeAt = some d) (ha' : p'.task a ≠ none) (hlt : l.next? ≠ none → p.now < d) :
    l.next? ≠ some a ∧ ∃ t', p'.task a = some t' ∧ t'.wakeAt = some d := by
  have hself : a ≠ p.running := by
    rintro rfl
    obtain ⟨t₀, ht₀, -, hw⟩ := (p.ready p.running).mp List.mem_cons_self
    obtain rfl := Option.some.inj (ht.symm.trans ht₀)
    simp [hd] at hw
  obtain ⟨t', ht'⟩ := Option.ne_none_iff_exists'.mp ha'
  have hwake : t'.wakeAt = some d := by
    rcases task_or h ht' with ⟨hnone, -⟩ | ⟨t₀, ht₀, hc⟩
    · simp [ht] at hnone
    · obtain rfl := Option.some.inj (ht.symm.trans ht₀)
      by_cases hn : l.next? = none
      · rw [hc.kept hn, hd]
      · have hnow := hlt hn
        rw [(hc.switched hn hself).2, Task.wake, hd, Option.filter_some, if_pos (decide_eq_true hnow)]
  refine ⟨fun hnext => ?_, t', ht', hwake⟩
  rcases switch_or h with ⟨next, task, hn, hs, -⟩ | ⟨hn, -⟩
  · have hrun : p'.running = a := hs.running.trans (Option.some.inj (hn.symm.trans hnext))
    obtain ⟨t₀, ht₀, -, hw⟩ := (p'.ready a).mp (hrun ▸ List.mem_cons_self)
    obtain rfl := Option.some.inj (ht'.symm.trans ht₀)
    simp [hwake] at hw
  · simp [hn] at hnext

theorem asleep_run {t : Task} {d : Nat}
    (h : Exec (Within (fun p => p.task a ≠ none) (Step main)) p ls p') (ht : p.task a = some t)
    (hd : t.wakeAt = some d) : a ∉ (dispatches ls).take (d - p.now) := by
  induction h generalizing t with
  | nil => simp [dispatches]
  | @cons p p₁ p' l ls h _ ih =>
      have hnow := now_step h.1
      rw [dispatches_cons]
      by_cases hn : l.next? = none
      · obtain ⟨-, t', ht', hd'⟩ := asleep_step h.1 ht hd h.2 fun hs => absurd hn hs
        have hrest := ih ht' hd'
        rw [hnow, switches, hn] at hrest
        rw [hn]
        exact hrest
      · obtain ⟨next, hnext⟩ := Option.ne_none_iff_exists'.mp hn
        rw [hnext, Option.toList_some, List.singleton_append]
        cases hk : d - p.now with
        | zero => simp
        | succ k =>
            obtain ⟨hne, t', ht', hd'⟩ := asleep_step h.1 ht hd h.2 fun _ => by omega
            have hrest := ih ht' hd'
            have hk' : d - p₁.now = k := by
              rw [hnow, switches, hnext, Option.toList_some, List.length_singleton]
              omega
            rw [hk'] at hrest
            rw [List.take_succ_cons]
            exact List.not_mem_cons_of_ne_of_not_mem
              (fun he => hne (hnext.trans (congrArg some he.symm))) hrest

theorem waits_run (h : Exec (Within (Unstopped a) (Step main)) p ls p') (ha : a ≠ p.running) :
    ((dispatches ls).takeWhile (fun b => b ≠ a)).length ≤ wait a p := by
  induction h with
  | nil => simp [dispatches]
  | @cons p p₁ p' l ls h _ ih =>
      have hstep := wait_step h.1 h.2 fun he => absurd he ha
      rw [dispatches_cons]
      rcases switch_or h.1 with ⟨next, task, hn, hs, -⟩ | ⟨hn, hrun, -⟩
      · rw [hn, Option.toList_some, List.singleton_append]
        by_cases hnext : next = a
        · rw [List.takeWhile_cons_of_neg (by simp [hnext])]
          exact Nat.zero_le _
        · have hrest := ih (hs.running ▸ Ne.symm hnext)
          rw [gives_of_ne hn hnext, switches, hn, Option.toList_some, List.length_singleton] at hstep
          rw [List.takeWhile_cons_of_pos (by simp [hnext]), List.length_cons]
          omega
      · have hrest := ih (hrun ▸ ha)
        rw [gives_of_none hn] at hstep
        rw [hn, Option.toList_none, List.nil_append]
        omega

/-- Others run at least n times while a thread sleeps for n quantums, and the
sleeper runs before each of the others can have run once more. -/
theorem sleep_run {n : Nat} (hr : p.running = a) (h : Step main p (.leave (.sleep n) next) p')
    {p'' : Pool names} (hs : Exec (Within (Unstopped a) (Step main)) p' ls p'') :
    a ∉ (next :: dispatches ls).take n ∧
      ((next :: dispatches ls).takeWhile (fun b => b ≠ a)).length < n + names.card := by
  cases h with
  | leave hl hs' =>
    cases hl with
    | @sleep t _ hn hm ht =>
      subst hr
      have ht' : p'.task p.running = some (if p.running = next then
          ({ t with wakeAt := some (p.now + n) } : Task).start
          else { t with wakeAt := some (p.now + n) }) := by
        rw [hs'.task, Function.update_self, Option.map_some, Task.wake, Option.filter_some,
          if_pos (decide_eq_true (Nat.lt_add_of_pos_right hn))]
      have hd : ∀ t', p'.task p.running = some t' → t'.wakeAt = some (p.now + n) := by
        intro t' he
        rw [ht', Option.some.injEq] at he
        rw [← he]
        split <;> rfl
      have hout : ¬ CanRun p.running p' := by
        intro hc
        obtain ⟨t₀, ht₀, -, hw⟩ := (p'.ready p.running).mp hc
        simp [hd t₀ ht₀] at hw
      obtain ⟨hne, hnq⟩ := not_or.mp (List.mem_cons.not.mp hout)
      have hnext : next ≠ p.running := hs'.running ▸ Ne.symm hne
      have hlow := asleep_run (hs.mono fun _ _ _ h => ⟨h.1, by
        obtain ⟨t₀, ht₀, -⟩ := h.2
        simp [ht₀]⟩) ht' (hd _ ht')
      have hhigh := waits_run hs hne
      have hdead : deadline p.running p' = p.now + n := by
        rw [deadline, ht', Option.bind_some, hd _ ht', Option.getD_some]
      have hlen := length_le p
      rw [List.length_cons] at hlen
      rw [wait, if_neg hnq, hdead, hs'.now] at hhigh
      rw [hs'.now] at hlow
      constructor
      · obtain ⟨k, rfl⟩ := Nat.exists_eq_add_of_lt hn
        rw [show p.now + (0 + k + 1) - (p.now + 1) = k by omega] at hlow
        rw [Nat.zero_add, List.take_succ_cons]
        exact List.not_mem_cons_of_ne_of_not_mem (Ne.symm hnext) hlow
      · rw [List.takeWhile_cons_of_pos (by simp [hnext]), List.length_cons]
        omega

/-- No thread that can run is woken in the next k quantums. -/
def Still (k : Nat) (p : Pool names) : Prop :=
  ∀ a t d, p.task a = some t → t.stopped = false → t.wakeAt = some d → p.now + k ≤ d

theorem still_tick {k : Nat} (h : Step main p (.tick next) p') (hp : Still (k + 1) p) :
    Still k p' := by
  cases h with
  | tick hs =>
      intro a t' d ht' hst hd
      obtain ⟨t, ht, -, hst', hw⟩ := switch_task hs ht'
      have hfilter : t.wakeAt.filter (fun d => p.now < d) = some d := hw.symm.trans hd
      have hle := hp a t d ht (hst' ▸ hst) (Option.filter_eq_some_iff.mp hfilter).1
      rw [hs.now]
      omega

theorem rotate_tick {k : Nat} (h : Step main p (.tick next) p') (hp : Still (k + 1) p) :
    p'.running :: p'.queue = (p.running :: p.queue).rotate 1 := by
  cases h with
  | tick hs =>
      obtain ⟨new, hnd, hnew, hq⟩ := hs.queue
      have hnq : p.running ∉ p.queue := (List.nodup_cons.mp p.nodup).1
      have hmem : ∀ a, a ∈ new ↔ a ∈ [p.running] := by
        intro a
        rw [hnew, List.mem_singleton]
        constructor
        · rintro ⟨hout, t, ht, hst, hw⟩
          have hnone : t.wakeAt = none := by
            by_contra hsome
            obtain ⟨d, hd⟩ := Option.ne_none_iff_exists'.mp hsome
            have hle := hp a t d ht hst hd
            rw [Task.wake, hd, Option.filter_some, if_pos (decide_eq_true (by omega))] at hw
            cases hw
          exact (List.mem_cons.mp ((p.ready a).mpr ⟨t, ht, hst, hnone⟩)).resolve_right hout
        · rintro rfl
          obtain ⟨t, ht, hr⟩ := (p.ready p.running).mp List.mem_cons_self
          exact ⟨hnq, t, ht, ready_wake hr p.now⟩
      have hperm := (List.perm_ext_iff_of_nodup hnd (List.nodup_singleton _)).mpr hmem
      rw [hs.running, ← hq, List.perm_singleton.mp hperm, List.rotate_cons_succ, List.rotate_zero]

/-- With nothing but ticks the threads run in turn, and the queue goes round. -/
theorem rotate_run (h : Exec (Step main) p ls p') (hls : ∀ l ∈ ls, ∃ next, l = .tick next)
    (hp : Still ls.length p) :
    p'.running :: p'.queue = (p.running :: p.queue).rotate ls.length ∧
    ∀ i < ls.length, (dispatches ls)[i]? =
      (p.running :: p.queue)[(i + 1) % (p.queue.length + 1)]? := by
  induction h with
  | nil => exact ⟨(List.rotate_zero _).symm, fun i hi => absurd hi (Nat.not_lt_zero i)⟩
  | @cons p p₁ p' l ls h _ ih =>
      obtain ⟨next, rfl⟩ := hls l List.mem_cons_self
      have hrot := rotate_tick h hp
      obtain ⟨hring, hgive⟩ := ih (fun l hl => hls l (List.mem_cons_of_mem _ hl)) (still_tick h hp)
      have hlen : p₁.queue.length = p.queue.length := by
        have hlen := congrArg List.length hrot
        simpa using hlen
      refine ⟨?_, fun i hi => ?_⟩
      · rw [hring, hrot, List.rotate_rotate, List.length_cons, Nat.add_comm]
      · have hpos : 0 < p.queue.length + 1 := Nat.succ_pos _
        have hmod : ∀ i, (i + 1) % (p.queue.length + 1) < (p.running :: p.queue).length :=
          fun i => Nat.mod_lt _ hpos
        rw [dispatches_cons]
        cases i with
        | zero =>
            cases h with
            | tick hs =>
                have hhead := congrArg (fun q => q[0]?) hrot
                rw [List.getElem?_rotate (by simp)] at hhead
                simpa [Label.next?, hs.running] using hhead
        | succ i =>
            have hrest := hgive i (by simpa using hi)
            rw [hrot, hlen, List.getElem?_rotate (hmod i)] at hrest
            simpa [Label.next?, Nat.add_mod] using hrest

end Uthreads.Fairness
