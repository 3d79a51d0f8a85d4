import Uthreads.Linearization
import Uthreads.Objects

namespace Uthreads.FreshContexts

open Program SignalMachine AtomicMachine Tables Source Api Effects Tallies Configs Moves Runs
open Simulation Startup Contexts Interleavings Objects

abbrev Address := BitVec 64

/-- The guard is the word at offset 0x30 of the segment that fs names. -/
def translateAddress (guard addr : Address) : Address := (addr ^^^ guard).rotateLeft 0x11

structure SigjmpBuf where
  jmpbuf : Fin 8 → Address
  maskWasSaved : Bool
  savedMask : Bool

def jbSp : Fin 8 := 6

def jbPc : Fin 8 := 7

def stackSize : Nat := 4096

/-- The env that the constructor leaves. Its sigsetjmp has stored saved, and block is
what new char[STACK_SIZE] returns; the signal set is reduced to SIGVTALRM. -/
def threadEnv (guard : Address) (allocateStack : Bool) (block entryPoint : Address)
    (saved : SigjmpBuf) : SigjmpBuf :=
  let stack := if allocateStack then block else 0
  let sp := stack + BitVec.ofNat 64 stackSize - 8
  let jmpbuf := Function.update saved.jmpbuf jbSp (translateAddress guard sp)
  { saved with
    jmpbuf := Function.update jmpbuf jbPc (translateAddress guard entryPoint)
    savedMask := false }

structure Registers where
  sp : Address
  pc : Address
  masked : Bool

/-- A siglongjmp undoes the translation of the two registers and, if the mask was saved,
restores it: all in one step, with no instruction between the mask and the jump. -/
structure Restores (guard : Address) (siglongjmp : SigjmpBuf → Registers) : Prop where
  sp : ∀ env, (siglongjmp env).sp = (env.jmpbuf jbSp).rotateRight 0x11 ^^^ guard
  pc : ∀ env, (siglongjmp env).pc = (env.jmpbuf jbPc).rotateRight 0x11 ^^^ guard
  masked : ∀ env, env.maskWasSaved = true → (siglongjmp env).masked = env.savedMask

def InStack (block sp : Address) : Prop :=
  block.toNat ≤ sp.toNat ∧ sp.toNat < block.toNat + stackSize

/-- The blocks of the objects that have one: aligned as new aligns, and disjoint as
long as they are not deleted. Object 0 has none. -/
structure Allocates (block : Nat → Address) (objects : List Nat) : Prop where
  aligned : ∀ i ∈ objects, i ≠ 0 → (block i).toNat % 16 = 0
  fits : ∀ i ∈ objects, i ≠ 0 → (block i).toNat + stackSize ≤ 2 ^ 64
  disjoint : ∀ i ∈ objects, ∀ j ∈ objects, i ≠ 0 → j ≠ 0 → i ≠ j →
    ∀ sp, InStack (block i) sp → ¬ InStack (block j) sp

variable {guard : Address} {siglongjmp : SigjmpBuf → Registers} {block entry : Nat → Address}

theorem rotateRight_rotateLeft {n : Nat} (x : BitVec n) (r : Nat) :
    (x.rotateLeft r).rotateRight r = x := by
  apply BitVec.eq_of_getElem_eq
  intro i hi
  have hlt : r % n < n := Nat.mod_lt _ (by omega)
  rw [BitVec.getElem_rotateRight]
  split
  · rw [BitVec.getElem_rotateLeft, dif_neg (by omega)]
    congr 1
    omega
  · rw [BitVec.getElem_rotateLeft, dif_pos (by omega)]
    congr 1
    omega

theorem restore_translate (guard addr : Address) :
    (translateAddress guard addr).rotateRight 0x11 ^^^ guard = addr := by
  rw [translateAddress, rotateRight_rotateLeft, BitVec.xor_assoc, BitVec.xor_self, BitVec.xor_zero]

theorem toNat_sp {stack : Address} (h : stack.toNat + stackSize ≤ 2 ^ 64) :
    (stack + BitVec.ofNat 64 stackSize - 8).toNat = stack.toNat + 4088 := by
  have hstack : stackSize = 4096 := rfl
  rw [hstack] at h ⊢
  bv_omega

def entryRegisters (block entry : Nat → Address) (i e : Nat) (mask : Bool) : Registers :=
  ⟨block i + BitVec.ofNat 64 stackSize - 8, entry e, mask⟩

theorem restore_threadEnv (h : Restores guard siglongjmp) (block entry : Nat → Address) (i e : Nat)
    {saved : SigjmpBuf} (hs : saved.maskWasSaved = true) :
    siglongjmp (threadEnv guard true (block i) (entry e) saved) =
      entryRegisters block entry i e false := by
  have hsp := h.sp (threadEnv guard true (block i) (entry e) saved)
  have hpc := h.pc (threadEnv guard true (block i) (entry e) saved)
  have hmask := h.masked (threadEnv guard true (block i) (entry e) saved) hs
  simp only [threadEnv, Function.update_self, Function.update_of_ne (show jbSp ≠ jbPc by decide),
    restore_translate, if_true] at hsp hpc hmask ⊢
  generalize siglongjmp _ = r at hsp hpc hmask
  cases r
  simp only at hsp hpc hmask
  rw [entryRegisters, hsp, hpc, hmask]

/-- The env of the constructor is the context that newThread makes: a jump through it
loads the entry point and the mask of that context, on the stack of its object. -/
theorem newThread_threadEnv (h : Restores guard siglongjmp) (block entry : Nat → Address)
    (state : State) (quantum entryPoint : Nat) (s : Scheduler) : ∃ t s' e mask,
      (newThread state quantum (some entryPoint)).run s = .ret t s' ∧
      (newThread state quantum (some entryPoint)).writes s = [.make t.id e mask] ∧
      ∀ saved, saved.maskWasSaved = true →
        siglongjmp (threadEnv guard true (block t.id) (entry entryPoint) saved) =
          entryRegisters block entry t.id e mask :=
  ⟨_, _, entryPoint, false, rfl, rfl, fun _ hs => restore_threadEnv h block entry _ entryPoint hs⟩

variable {w : Width} {q : Int32} {masked : Bool} {ls : List (Label Call)}
  {m : Machine Scheduler Fn Call}

/-- Wherever the timer expires, the buffer of a live thread that has not run is the
one of the constructor: the first jump through it enters the function that the thread
was spawned with, with the signal unblocked, on top of the thread's own stack, which
no other live thread has. -/
theorem fresh_contexts (entry : Nat → Address) (hq : 0 ≤ q.toInt)
    (h : (start w masked q).steps (uthreads w) ls = some m) (hu : m.ctl = .user)
    (hrestore : Restores guard siglongjmp) (halloc : Allocates block m.data.objects) {tid i : Nat}
    (hid : idOf m.data tid = some i) (hne : tid ≠ m.data.runningThreadTid) (hran : i ∉ m.ran) :
    ∃ e, Spawned w masked q ls i e ∧ m.env i = some ⟨i, .entry e, false, []⟩ ∧
      ∀ saved, saved.maskWasSaved = true → ∃ r : Registers,
        siglongjmp (threadEnv guard true (block i) (entry e) saved) = r ∧
        r.pc = entry e ∧ r.masked = false ∧ r.sp.toNat = (block i).toNat + stackSize - 8 ∧
        r.sp.toNat % 16 = 8 ∧ InStack (block i) r.sp ∧
        ∀ tid' i' : Nat, idOf m.data tid' = some i' → tid' ≠ tid → i' ≠ 0 →
          ¬ InStack (block i') r.sp := by
  obtain ⟨xs, ht, -⟩ := Linearization.trace_of_steps hq h hu
  have hc := ((run_of_trace w hq ht).inv w).config
  have hf : Follows w q m := by
    refine (start_follows hq h).resolve_left ?_
    rintro ⟨-, -, d, p, hctl, -, -⟩
    simp [hctl] at hu
  have hi0 : i ≠ 0 := by
    rintro rfl
    obtain ⟨es, a, hes, -, -, hmid⟩ := at_user hq hf hu
    exact hran (hmid.ran ▸ main_ran hes)
  have hfresh : Untouched w masked q ls m i :=
    ((intact_of_follows hq h hf).waiting hu tid i hid hne).resolve_right fun hp => hran hp.1
  obtain ⟨-, e, hspawned, henv⟩ := hfresh
  have hmem := hc.allocated tid i hid
  refine ⟨e, hspawned, henv, fun saved hs =>
    ⟨_, restore_threadEnv hrestore block entry i e hs, rfl, rfl, ?_⟩⟩
  have hsp := toNat_sp (halloc.fits i hmem hi0)
  have halign := halloc.aligned i hmem hi0
  have hin : InStack (block i) (block i + BitVec.ofNat 64 stackSize - 8) := by
    rw [InStack, hsp, stackSize]
    omega
  simp only [entryRegisters]
  refine ⟨?_, ?_, hin, fun tid' i' hid' hne' hi0' => ?_⟩
  · rw [hsp, stackSize]
    omega
  · rw [hsp]
    omega
  · apply halloc.disjoint i hmem i' (hc.allocated tid' i' hid') hi0 hi0'
    · rintro rfl
      exact hne' (hc.unique tid' tid i hid' hid)
    · exact hin

def restoring (guard : Address) (env : SigjmpBuf) : Registers :=
  ⟨(env.jmpbuf jbSp).rotateRight 0x11 ^^^ guard, (env.jmpbuf jbPc).rotateRight 0x11 ^^^ guard,
    env.maskWasSaved && env.savedMask⟩

theorem restores_restoring (guard : Address) : Restores guard (restoring guard) where
  sp := fun _ => rfl
  pc := fun _ => rfl
  masked := by
    intro env he
    simp [restoring, he]

def blocks (i : Nat) : Address := BitVec.ofNat 64 (65536 * i)

def fourObjects (m : Machine Scheduler Fn Call) : Bool :=
  sleepsAndWaits m && decide (m.data.objects = [3, 2, 1, 0])

theorem allocates_blocks {objects : List Nat} (h : ∀ i ∈ objects, i < 4) :
    Allocates blocks objects := by
  have hblock : ∀ i ∈ objects, (blocks i).toNat = 65536 * i := by
    intro i hi
    have hlt := h i hi
    rw [blocks, BitVec.toNat_ofNat]
    omega
  refine ⟨fun i hi _ => ?_, fun i hi _ => ?_, fun i hi j hj _ _ hne sp => ?_⟩
  · rw [hblock i hi]
    omega
  · have hlt := h i hi
    rw [hblock i hi, stackSize]
    omega
  · rw [InStack, InStack, hblock i hi, hblock j hj, stackSize]
    omega

theorem fresh_contexts_slept : ∃ m,
    (start .lp64 false 1000).steps (uthreads .lp64) spawnSleep = some m ∧
      Spawned .lp64 false 1000 spawnSleep 3 9 ∧ idOf m.data 1 = some 1 ∧
      ∃ r, restoring 5 (threadEnv 5 true (blocks 3) 9 ⟨fun _ => 0, true, true⟩) = r ∧
        r.pc = 9 ∧ r.masked = false ∧ InStack (blocks 3) r.sp ∧ ¬ InStack (blocks 1) r.sp := by
  obtain ⟨m, hm, hcheck⟩ : ∃ m, (start .lp64 false 1000).steps (uthreads .lp64) spawnSleep = some m ∧
      fourObjects m = true := (Option.any_eq_true _ _).mp (by decide +kernel)
  simp only [fourObjects, sleepsAndWaits, Bool.and_eq_true, decide_eq_true_eq] at hcheck
  obtain ⟨⟨⟨hu, hentry⟩, hrun, -, h1, h3, hran, -⟩, hobjects⟩ := hcheck
  obtain ⟨e, hspawned, henv, hreg⟩ := fresh_contexts (BitVec.ofNat 64) (by decide) hm
    (inUser_iff.mp hu) (restores_restoring 5) (allocates_blocks (by simp [hobjects])) h3
    (by rw [hrun]; decide) hran
  obtain rfl := Point.entry.inj (point_of_atEntry hentry henv)
  obtain ⟨r, hr, hpc, hmasked, -, -, hin, hout⟩ := hreg ⟨fun _ => 0, true, true⟩ rfl
  exact ⟨m, hm, hspawned, h1, r, hr, hpc, hmasked, hin, hout 1 1 h1 (by decide) (by decide)⟩

end Uthreads.FreshContexts
