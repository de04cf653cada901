import MosSmp.Lib.Transition
import MosSmp.Word

/-!
`spin_lock` and `spin_unlock` of `spinlock.S` one instruction at a time, on any
number of CPUs that call them in turn. `ll` links the lock to its CPU, a store
by another CPU breaks the link, and `sc` stores only over an intact link and may
fail over one as well. The instruction after a branch is executed in any case.
-/

namespace MosSmp.Spinlock

open Lib Function

/-- The instructions that occur, with their registers in the names. -/
inductive Instr
  | liT1 (n : Word) | llT0 | scT1 | swZero | bnezT0 (l : Nat) | beqzT1 (l : Nat) | nop | sync | jr

def spinLock : List Instr :=
  [.liT1 1, .llT0, .bnezT0 1, .nop, .scT1, .beqzT1 1, .liT1 1, .sync, .jr, .nop]

def spinUnlock : List Instr := [.sync, .swZero, .jr, .nop]

/-- A CPU in one of the routines. -/
structure Cpu where
  locking : Bool
  pc : Nat
  /-- The one after it, which a branch changes; `pc` is then a delay slot. -/
  npc : Nat
  t0 : Word
  t1 : Word
  linked : Bool

namespace Cpu

def code (x : Cpu) : List Instr := if x.locking then spinLock else spinUnlock

/-- One instruction over the lock `w`: what it stores, and the CPU after it. -/
def run (w : Word) (fails : Bool) (x : Cpu) : Instr → Option Word × Cpu
  | .liT1 n => (none, { x with t1 := n })
  | .llT0 => (none, { x with t0 := w, linked := true })
  | .scT1 =>
    if x.linked && !fails then (some x.t1, { x with t1 := 1, linked := false })
    else (none, { x with t1 := 0, linked := false })
  | .swZero => (some 0, x)
  | .bnezT0 l => (none, if x.t0 = 0 then x else { x with npc := l })
  | .beqzT1 l => (none, if x.t1 = 0 then { x with npc := l } else x)
  | .jr => (none, { x with npc := x.code.length })
  | .nop | .sync => (none, x)

def exec (w : Word) (fails : Bool) (x : Cpu) : Option (Option Word × Cpu) :=
  x.code[x.pc]?.map (run w fails { x with pc := x.npc, npc := x.npc + 1 })

/-- What is known before the instruction at `pc`, in a delay slot by what comes
next, of a CPU that holds the lock or does not. -/
def Ok (w : Word) (held : Bool) (x : Cpu) : Prop :=
  match x.locking, x.pc, x.npc with
  | true, 0, 1 | true, 6, 1 => ¬ held
  | true, 1, 2 | true, 3, 1 => ¬ held ∧ x.t1 = 1
  | true, 2, 3 => ¬ held ∧ x.t1 = 1 ∧ (x.linked → w = x.t0)
  | true, 3, 4 | true, 4, 5 => ¬ held ∧ x.t1 = 1 ∧ (x.linked → w = 0)
  | true, 5, 6 => held = (x.t1 != 0)
  | true, 6, 7 | true, 7, 8 | true, 8, 9 | true, 9, 10 | true, 10, 11 => held
  | false, 0, 1 | false, 1, 2 => held
  | false, 2, 3 | false, 3, 4 | false, 4, 5 => ¬ held
  | _, _, _ => False

variable {w : Word} {held : Bool} {x y : Cpu} {st : Option Word} {fails : Bool}

/-- An instruction leaves the lock, takes it when it is free, or gives it back. -/
theorem Ok.exec (h : x.Ok w held) (hrun : x.exec w fails = some (st, y)) :
    st = none ∧ y.Ok w held ∨ st = some 1 ∧ w = 0 ∧ y.Ok 1 true ∨
      st = some 0 ∧ held ∧ y.Ok 0 false := by
  obtain ⟨i, hi, hrun⟩ := Option.map_eq_some_iff.mp hrun
  obtain ⟨r, pc, npc, t0, t1, linked⟩ := x
  dsimp only [Ok] at h
  split at h
  any_goals contradiction
  -- one goal for each place in the code
  all_goals
    cases hi
    simp only [Cpu.run] at hrun
    try split at hrun
    all_goals
      cases hrun
      simp_all [Ok, code, spinLock, spinUnlock]

theorem Ok.returned (h : x.Ok w held) (hret : x.pc = x.code.length) : held = x.locking := by
  unfold Ok at h
  split at h <;> simp_all [code, spinLock, spinUnlock]

/-- A store by another CPU. -/
theorem Ok.unlink (h : x.Ok w held) (v : Word) : Ok v held { x with linked := false } := by
  unfold Ok at *
  split at h <;> simp_all

end Cpu

/-- The lock, with the CPU whose store took it. -/
structure State (ι : Type) where
  lock : Word
  holder : Option ι
  cpu : ι → Cpu

/-- A CPU calls the other routine, with any values in its registers, or runs one
instruction. -/
inductive Action
  | call (t0 t1 : Word)
  | run (fails : Bool)

variable {ι : Type} [DecidableEq ι]

def State.step (s : State ι) : ι × Action → Option (State ι)
  | (i, .call t0 t1) =>
    let x := s.cpu i
    if x.pc = x.code.length then
      some { s with cpu := update s.cpu i ⟨!x.locking, 0, 1, t0, t1, x.linked⟩ }
    else none
  | (i, .run fails) => ((s.cpu i).exec s.lock fails).map (fun
    | (none, y) => { s with cpu := update s.cpu i y }
    | (some v, y) => ⟨v, if v = 0 then none else some i,
        update (fun j => { s.cpu j with linked := false }) i y⟩)

/-- The lock is `SPINLOCK_INIT`, and every CPU as after `spin_unlock`. -/
def spinlocks (ι : Type) [DecidableEq ι] : Machine (State ι) (ι × Action) where
  init s := s = ⟨0, none, fun _ => ⟨false, 4, 5, 0, 0, false⟩⟩
  step := State.step

/-- The lock is 1 exactly while it is held, and every CPU is `Ok`. -/
structure Inv (s : State ι) : Prop where
  lock : s.lock = if s.holder.isSome then 1 else 0
  cpu : ∀ i, (s.cpu i).Ok s.lock (s.holder = some i)

/-- The CPU that makes a step, and the others. -/
theorem ok_update {cpu : ι → Cpu} {i : ι} {y : Cpu} {w : Word} {holder : Option ι}
    (hy : y.Ok w (holder = some i)) (hcpu : ∀ j, j ≠ i → (cpu j).Ok w (holder = some j)) :
    ∀ j, (update cpu i y j).Ok w (holder = some j) :=
  (forall_update_iff cpu fun j x => x.Ok w (holder = some j)).mpr ⟨hy, hcpu⟩

theorem Inv.step {s s' : State ι} {l : ι × Action} (h : Inv s) (hstep : s.step l = some s') :
    Inv s' := by
  obtain ⟨i, a⟩ := l
  cases a with
  | call t0 t1 =>
    obtain ⟨hret, hs⟩ := Option.ite_none_right_eq_some.mp hstep
    cases hs
    refine ⟨h.lock, ok_update ?_ fun j _ => h.cpu j⟩
    rw [(h.cpu i).returned hret]
    cases (s.cpu i).locking <;> simp [Cpu.Ok]
  | run fails =>
    obtain ⟨⟨st, y⟩, hrun, rfl⟩ := Option.map_eq_some_iff.mp hstep
    obtain ⟨rfl, hy⟩ | ⟨rfl, hw, hy⟩ | ⟨rfl, hx, hy⟩ := (h.cpu i).exec hrun
    · exact ⟨h.lock, ok_update hy fun j _ => h.cpu j⟩
    -- the link was intact, so the lock was free
    · have hfree : s.holder = none := by simpa [h.lock] using hw
      refine ⟨rfl, ok_update (by simpa using hy) fun j hj => ?_⟩
      simpa [Ne.symm hj, hfree] using (h.cpu j).unlink 1
    · refine ⟨rfl, ok_update (by simpa using hy) fun j hj => ?_⟩
      simpa [Ne.symm hj, of_decide_eq_true hx] using (h.cpu j).unlink 0

/-- Under any interleaving the lock is 1 exactly while a CPU holds it. A CPU that
has returned from `spin_lock` is the holder, and one that has returned from
`spin_unlock` is not. -/
theorem spinLock_exclusive {s : State ι} (hreach : (spinlocks ι).Reachable s) :
    s.lock = (if s.holder.isSome then 1 else 0) ∧
      ∀ i, (s.cpu i).pc = (s.cpu i).code.length → (s.holder = some i ↔ (s.cpu i).locking) := by
  have h : Inv s := by
    apply hreach.invariant
    · rintro s rfl
      exact ⟨rfl, fun i => Bool.false_ne_true⟩
    · exact fun s l s' _ h _ hstep => h.step hstep
  exact ⟨h.lock, fun i hret => (h.cpu i).returned hret ▸ by simp⟩

/-- CPU 1 takes the lock between the `ll` and the `sc` of CPU 0. -/
theorem spinLock_exclusive_race : ∃ s : State (Fin 2), (spinlocks _).Reachable s ∧
    (s.cpu 0).pc = 1 ∧ (s.holder = some 1 ↔ (s.cpu 1).locking) := by
  have hinit : (spinlocks (Fin 2)).Reachable _ := .init rfl
  obtain ⟨s, hs, h0, h1⟩ := Machine.exists_reachableUnder_of_exec
    (P := fun s => (s.cpu 0).pc = 1 ∧ (s.cpu 1).pc = (s.cpu 1).code.length)
    ([(0, .call 0 0)] ++ .replicate 4 (0, .run false) ++ [(1, .call 0 0)] ++
      .replicate 10 (1, .run false) ++ .replicate 3 (0, .run false)) hinit (by decide)
  exact ⟨s, hs, h0, (spinLock_exclusive hs).2 1 h1⟩

end MosSmp.Spinlock
