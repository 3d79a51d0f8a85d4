import Uthreads.Fifo
import Uthreads.Histories

namespace Uthreads.RoundRobin

open Program SignalMachine AtomicMachine Tables Source Api Effects Tallies Configs Moves Runs
open Histories Fifo

variable (w : Width) {s s' : Scheduler} {e : Event Call} {x : Entry} {xs : List Entry}

def dispatches (xs : List Entry) : List Nat :=
  (xs.filter (fun x => x.switched)).map (fun x => x.after.runningThreadTid)

def dispatchesBefore (t : Nat) (xs : List Entry) : List Nat :=
  (dispatches xs).takeWhile (fun u => u ≠ t)

def turn (x : Entry) : Turn Nat :=
  if x.switched then .serve x.after.runningThreadTid
  else .drop (fun u => x.blocked u || x.terminated u)

theorem queue_leave (hl : Leave w s e s') : ∃ new, s'.readyThreads = s.readyThreads ++ new := by
  cases hl with
  | tick =>
      rw [enqueue_readyThreads, wake_readyThreads]
      split
      · exact ⟨_, rfl⟩
      · exact ⟨_, List.append_assoc _ _ _⟩
  | block | sleep | terminate => exact ⟨_, rfl⟩

/-- Entries join the queue at the back, leave it from the front when they are
dispatched, and drop out only when they are blocked or terminated. -/
theorem queue_step (hi : Inv s) (hx : operate w s e = some x) :
    Step s.readyThreads (turn x) x.after.readyThreads := by
  rcases operate_cases w hi hx with ⟨v, s', hm, rfl⟩ | ⟨i, s', hm, rfl⟩
  · cases hm with
    | @fail c hf =>
        refine .enter [] (fun u hu => ?_) (List.append_nil _).symm
        cases c <;> simp [Entry.blocked, Entry.terminated, Entry.succeeded]
    | @read c v hr =>
        refine .enter [] (fun u hu => ?_) (List.append_nil _).symm
        cases c <;> first
          | exact hr.elim
          | rfl
    | spawn => exact .enter _ (fun u hu => rfl) rfl
    | @terminate tid hl h0 hr =>
        have htid := toInt_of_live hi.tables hl
        refine .drop [] ?_
        rw [List.append_nil, terminate_readyThreads]
        refine List.filter_congr fun u hu => ?_
        by_cases he : index tid = u
        · simp [Entry.blocked, Entry.terminated, Entry.succeeded, htid, he]
        · simp [Entry.blocked, Entry.terminated, htid, he, Ne.symm he]
    | @blockReady tid hst h0 =>
        have htid := toInt_of_state hi.tables hst
        refine .drop [] ?_
        rw [List.append_nil, unqueue_readyThreads, block_readyThreads]
        refine List.filter_congr fun u hu => ?_
        by_cases he : index tid = u
        · simp [Entry.blocked, Entry.terminated, Entry.succeeded, htid, he]
        · simp [Entry.blocked, Entry.terminated, htid, he, Ne.symm he]
    | @blockBlocked tid hst h0 =>
        refine .enter [] (fun u hu => ?_) (List.append_nil _).symm
        have htid := toInt_of_state hi.tables hst
        have hne : index tid ≠ u := by
          rintro rfl
          exact (hi.tables.blocked_tally hst).2.1 hu
        simp [Entry.blocked, Entry.terminated, htid, hne]
    | @resumeBlocked tid hst =>
        by_cases hs : index tid ∈ s.sleepingThreads
        · exact .enter [] (fun u hu => rfl) (by simp [hs])
        · exact .enter [index tid] (fun u hu => rfl) (by simp [hs])
    | resumeOther => exact .enter [] (fun u hu => rfl) (List.append_nil _).symm
  · cases hm with
    | switch hl hq ht =>
        obtain ⟨new, hnew⟩ := queue_leave w hl
        exact .serve new (by rw [← hnew, hq]; rfl)

theorem queue_steps (hi : Inv s) (ht : Trace w s xs s') :
    Steps s.readyThreads (xs.map turn) s'.readyThreads := by
  induction ht with
  | nil s => exact .nil _
  | cons hx ht ih => exact .cons (queue_step w hi hx) (ih (operate_inv w hi hx))

theorem filterMap_served (xs : List Entry) :
    (xs.map turn).filterMap Turn.served = dispatches xs := by
  induction xs with
  | nil => rfl
  | cons x xs ih =>
      rw [dispatches] at ih ⊢
      rw [List.map_cons, List.filterMap_cons, ih]
      cases hsw : x.switched <;> simp [turn, Turn.served, hsw]

theorem before_map_turn (t : Nat) (xs : List Entry) :
    before t (xs.map turn) = dispatchesBefore t xs := by
  rw [before, filterMap_served, dispatchesBefore]

theorem served_ne_iff (x : Entry) (t : Nat) :
    decide ((turn x).served ≠ some t) = !x.dispatched t := by
  cases hsw : x.switched with
  | false => simp [turn, Turn.served, Entry.dispatched, hsw]
  | true => by_cases ht : x.after.runningThreadTid = t <;>
      simp [turn, Turn.served, Entry.dispatched, hsw, ht]

theorem gone_turn {u : Nat} (h : (turn x).gone u = true) :
    x.blocked u = true ∨ x.terminated u = true := by
  cases hsw : x.switched with
  | true => simp [turn, Turn.gone, hsw] at h
  | false => simpa [turn, Turn.gone, hsw] using h

/-- The thread at place k of the queue is dispatched by one of the next k + 1
switches, and before it exactly those ahead of it that stay, in their order. -/
theorem bounded_waiting {k t : Nat} (hr : Reachable w s) (hk : s.readyThreads[k]? = some t)
    (ht : Trace w s xs s') (hstay : ∀ x ∈ xs, x.blocked t = false ∧ x.terminated t = false) :
    (k < (dispatches xs).length → t ∈ (dispatches xs).take (k + 1)) ∧
    (dispatchesBefore t xs).Sublist (s.readyThreads.take k) ∧
    (dispatchesBefore t xs).Nodup ∧
    (∀ u ∈ s.readyThreads.take k, t ∈ dispatches xs → u ∉ dispatchesBefore t xs →
      ∃ x ∈ xs.takeWhile (fun x => !x.dispatched t), x.blocked u = true ∨ x.terminated u = true) ∧
    k < 99 := by
  have hi := hr.inv w
  obtain ⟨hlt, hget⟩ := List.getElem?_eq_some_iff.mp hk
  have hsplit : s.readyThreads = s.readyThreads.take k ++ t :: s.readyThreads.drop (k + 1) := by
    rw [← hget, ← List.drop_eq_getElem_cons hlt, List.take_append_drop]
  have hnd := hsplit ▸ hi.tables.nodup
  have hahead : t ∉ s.readyThreads.take k := by
    intro hm
    exact (List.nodup_append.mp hnd).2.2 t hm t List.mem_cons_self rfl
  have hsteps := queue_steps w hi ht
  have hturns : ∀ turn' ∈ xs.map turn, turn'.gone t = false := by
    intro turn' hm
    obtain ⟨x, hx, rfl⟩ := List.mem_map.mp hm
    obtain ⟨hb, htm⟩ := hstay x hx
    by_contra hg
    rcases gone_turn (by simpa using hg) with hb' | ht'
    · simp [hb] at hb'
    · simp [htm] at ht'
  have hsub := hsteps.before_sublist hsplit hahead hturns
  rw [before_map_turn] at hsub
  have hlen : (s.readyThreads.take k).length = k := by
    rw [List.length_take]
    omega
  refine ⟨fun hlong => ?_, hsub, ?_, ?_, ?_⟩
  · have hwithin := hsteps.served_within hsplit hahead hturns
    rw [filterMap_served, hlen] at hwithin
    exact hwithin hlong
  · exact hsub.nodup (hi.tables.nodup.sublist (List.take_sublist _ _))
  · intro u hu hserved hnot
    have hgone := hsteps.served_or_gone hsplit hahead hturns (by rwa [filterMap_served]) hu
    rw [before_map_turn] at hgone
    obtain ⟨turn', hm, hg⟩ := hgone.resolve_left hnot
    rw [List.takeWhile_map] at hm
    obtain ⟨x, hx, rfl⟩ := List.mem_map.mp hm
    refine ⟨x, ?_, gone_turn hg⟩
    simpa only [Function.comp_def, served_ne_iff] using hx
  · have hle := hi.tables.length_ready_le
    omega

/-- Thread 3 is third in the queue, and thread 2 is blocked before its turn. -/
theorem bounded_waiting_third : ∃ s xs s', Reachable .lp64 s ∧ s.readyThreads = [1, 2, 3] ∧
    Trace .lp64 s xs s' ∧ 3 ∈ (dispatches xs).take 3 ∧ dispatchesBefore 3 xs = [1] ∧
    ∃ x ∈ xs.takeWhile (fun x => !x.dispatched 3), x.blocked 2 = true ∨ x.terminated 2 = true := by
  have hplays : Plays .lp64 (initial .lp64 1000)
      [.call (.spawn (some 7)), .call (.spawn (some 8)), .call (.spawn (some 9))]
      (fun _ s => s.readyThreads = [1, 2, 3] ∧
        Plays .lp64 s [.tick, .call (.block 2), .tick, .tick] (fun xs _ =>
          (dispatches xs).length = 3 ∧ dispatchesBefore 3 xs = [1] ∧ 3 ∈ dispatches xs ∧
            ∀ x ∈ xs, x.blocked 3 = false ∧ x.terminated 3 = false)) := by decide +kernel
  obtain ⟨xs₀, s, hr, hq, hplays⟩ := hplays.exists_run (by decide)
  obtain ⟨xs, s', ht, hlen, hbefore, hmem, hstay⟩ := hplays.exists_trace
  obtain ⟨hwithin, -, -, hdrop, -⟩ :=
    bounded_waiting .lp64 (k := 2) (t := 3) ⟨_, hr⟩ (by rw [hq]; rfl) ht hstay
  have h2 : 2 ∈ s.readyThreads.take 2 := by simp [hq]
  exact ⟨s, xs, s', ⟨_, hr⟩, hq, ht, hwithin (by rw [hlen]; decide), hbefore,
    hdrop 2 h2 hmem (by simp [hbefore])⟩

end Uthreads.RoundRobin
