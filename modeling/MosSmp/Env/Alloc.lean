import MosSmp.Env.State
import Mathlib.Data.List.FinRange

/-!
Creation, naming and release of environments: `asid_alloc`, `mkenvid`,
`envid2env`, `env_init`, `env_alloc`, `env_create_named`, and the critical
sections of `env_destroy` and `env_free`.

The page-table work of these functions is not part of this state. Its only
influence here is whether `env_setup_vm` finds a page for the directory, and
that answer is the argument `vm` of `envAlloc`.
-/

namespace MosSmp

open Lib

/-- The lowest ASID whose bit is clear, with the bitmap after setting it. -/
def asidAlloc (bitmap : Fin NASID → Bool) : Option (Fin NASID × (Fin NASID → Bool)) :=
  match (List.finRange NASID).find? (fun i => !bitmap i) with
  | some i => some (i, Function.update bitmap i true)
  | none => none

theorem asidAlloc_some {bitmap bitmap' : Fin NASID → Bool} {i : Fin NASID}
    (h : asidAlloc bitmap = some (i, bitmap')) :
    bitmap i = false ∧ bitmap' = Function.update bitmap i true := by
  unfold asidAlloc at h
  split at h <;> cases h
  next j hj =>
  exact ⟨by simpa using List.find?_some hj, rfl⟩

/-- `ENVX`: the low ten bits of an environment id. -/
def envx (envid : Word) : EnvIdx :=
  ⟨(envid &&& 1023#32).toNat, by
    rw [BitVec.toNat_and]
    exact Nat.lt_of_le_of_lt Nat.and_le_right (by decide)⟩

namespace Kern

/-- `asid_free` on a valid ASID. -/
def asidFree (k : Kern) (asid : Word) : Kern :=
  { k with asidBitmap :=
      Function.update k.asidBitmap ⟨asid.toNat % NASID, Nat.mod_lt _ (by decide)⟩ false }

/-- The id `mkenvid` makes for slot `e`, with the counter already incremented
to `i`. -/
def mkenvid (i : Word) (e : EnvIdx) : Word :=
  (i <<< 11) ||| BitVec.ofNat 32 e.val

/-- Resolve an id for the calling environment `cur`. The id 0 names the
caller, without any further check. -/
def envid2env (k : Kern) (cur : EnvIdx) (envid : Word) (checkperm : Bool) :
    Except Err EnvIdx :=
  if envid = 0 then .ok cur
  else
    let e := envx envid
    if (k.envs e).envStatus = .free ∨ (k.envs e).envId ≠ envid then .error .badEnv
    else if checkperm = true ∧ e ≠ cur ∧ (k.envs e).envParentId ≠ (k.envs cur).envId then
      .error .badEnv
    else .ok e

/-- The fields that `env_alloc` resets before it looks for an ASID. -/
def resetEnv (pgdir : Word) (x : Env) : Env :=
  { x with
    envPgdir := pgdir
    envUserTlbModEntry := 0
    envRuns := 0
    envCpuId := none
    envRunning := false
    envPinnedCpu := none
    envKillPending := false }

/-- The fields that `env_alloc` fills in once it has an ASID. The trapframe
gets `STATUS_IM6 | STATUS_IM7 | STATUS_IE | STATUS_EXL | STATUS_UM` and a
stack pointer with room for `argc` and `argv`. -/
def nameEnv (id asid parentId : Word) (x : Env) : Env :=
  { x with
    envAsid := asid
    envId := id
    envParentId := parentId
    envTf := { x.envTf.setReg 29 (USTACKTOP - 8) with cp0Status := 0xC013 } }

/-- `env_alloc`. The head of the free list is taken; it stays on the list,
partly reset, when there is no ASID for it. -/
def envAlloc (k : Kern) (vm : Option Word) (parentId : Word) : Except Err EnvIdx × Kern :=
  match k.envFreeList.first with
  | none => (.error .noFreeEnv, k)
  | some e =>
    match vm with
    | none => (.error .noMem, k)
    | some pgdir =>
      let k := k.updEnv e (resetEnv pgdir)
      match asidAlloc k.asidBitmap with
      | none => (.error .noFreeEnv, k)
      | some (asid, bitmap) =>
        let i := k.mkenvidI + 1
        let k := k.updEnv e (nameEnv (mkenvid i e) (BitVec.ofNat 32 asid.val) parentId)
        (.ok e, { k with
          asidBitmap := bitmap
          mkenvidI := i
          envFreeList := k.envFreeList.remove e })

/-- What `env_destroy` decides in its critical section. -/
inductive DestroyCase
  | alreadyFree
  | remote (envid : Word)
  | local
  deriving DecidableEq

/-- The critical section of `env_destroy`, executed on CPU `c`. -/
def destroySection (k : Kern) (c : CpuId) (e : EnvIdx) : DestroyCase × Kern :=
  if (k.envs e).envStatus = .free then (.alreadyFree, k)
  else if (k.envs e).envRunning = true ∧ (k.envs e).envCpuId ≠ some c then
    (.remote (k.envs e).envId,
      k.updEnv e (fun x => { x with envKillPending := true, envKillDone := false }))
  else (.local, k.updEnv e (fun x => { x with envKillPending := true }))

/-- The fields `env_free` writes in its critical section. -/
def freeEnv (x : Env) : Env :=
  { x with
    envStatus := .free
    envRunning := false
    envCpuId := none
    envPinnedCpu := none
    envKillPending := false
    envKillDone := true }

/-- The critical section of `env_free`. -/
def freeSection (k : Kern) (e : EnvIdx) : Kern :=
  let k := if (k.envs e).envStatus = .runnable then
      { k with envSchedList := k.envSchedList.remove e } else k
  let k := k.updEnv e freeEnv
  { k with envFreeList := k.envFreeList.insertHead e }

theorem asidBitmap_freeSection (k : Kern) (e : EnvIdx) :
    (k.freeSection e).asidBitmap = k.asidBitmap := by
  unfold freeSection
  split <;> rfl

end Kern

/-- An environment block before `env_init`: the array lies in `.bss`. -/
def Env.zero : Env where
  envTf := Trapframe.zero
  envId := 0
  envAsid := 0
  envParentId := 0
  envStatus := .free
  envPgdir := 0
  envPri := 0
  envIpcValue := 0
  envIpcFrom := 0
  envIpcRecving := false
  envIpcDstva := 0
  envIpcPerm := 0
  envUserTlbModEntry := 0
  envRuns := 0
  envCpuId := none
  envRunning := false
  envPinnedCpu := none
  envKillPending := false
  envKillDone := false

namespace Kern

/-- The state after `env_init`: every slot is free, and the slots are
inserted at the head of the free list from the last to the first. -/
def envInit : Kern where
  envs := fun _ => Env.zero
  envFreeList := (List.finRange NENV).foldr (fun e q => q.insertHead e) Links.empty
  envSchedList := TailQ.empty
  asidBitmap := fun _ => false
  mkenvidI := 0
  cpuData := fun _ => ⟨none, 0, 0, Trapframe.zero⟩
  timerScheduleReady := false

/-- What the kernel needs to create an early environment: its directory, its
priority, whether it is the file server and its entry point. -/
structure Image where
  pgdir : Word
  priority : Word
  isFsServ : Bool
  entry : Word

/-- `env_create_named`; a failing `env_alloc` is a kernel panic. -/
def envCreate (k : Kern) (image : Image) : Option Kern :=
  match k.envAlloc (some image.pgdir) 0 with
  | (.error _, _) => none
  | (.ok e, k) =>
    let k := k.updEnv e (fun x => { x with
      envPri := image.priority
      envStatus := .runnable
      envPinnedCpu := if image.isFsServ then some 0 else x.envPinnedCpu
      envTf := { x.envTf with cp0Epc := image.entry } })
    some { k with envSchedList := k.envSchedList.insertHead e }

/-- Boot: `env_init`, then one early environment after the other. -/
def boot (images : List Image) : Option Kern :=
  images.foldlM envCreate envInit

end Kern

end MosSmp
