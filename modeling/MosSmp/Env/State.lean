import MosSmp.Word
import MosSmp.Lib.Queue

/-!
The kernel's data about environments: the trapframe, the control block
`struct Env`, the per-CPU record `struct cpu_local_data` and the global
variables of `kern/env.c` and `kern/sched.c`. The two intrusive queues are
kept as pointer structures, so that an insertion of a queued environment or a
removal of an unqueued one does to the links what the macros do.

The field `env_cpu_id` and `env_pinned_cpu` are `int` with `-1` for no CPU;
they are optional CPU numbers here. Page directories are addresses only: the
page tables themselves are the subject of the memory modules.
-/

namespace MosSmp

open Lib Function

structure Trapframe where
  regs : Fin 32 → Word
  cp0Status : Word
  hi : Word
  lo : Word
  cp0Badvaddr : Word
  cp0Cause : Word
  cp0Epc : Word

def Trapframe.zero : Trapframe :=
  ⟨fun _ => 0, 0, 0, 0, 0, 0, 0⟩

def Trapframe.setReg (tf : Trapframe) (r : Fin 32) (v : Word) : Trapframe :=
  { tf with regs := update tf.regs r v }

inductive EnvStatus
  | free
  | runnable
  | notRunnable
  deriving DecidableEq

structure Env where
  envTf : Trapframe
  envId : Word
  envAsid : Word
  envParentId : Word
  envStatus : EnvStatus
  envPgdir : Word
  envPri : Word
  envIpcValue : Word
  envIpcFrom : Word
  envIpcRecving : Bool
  envIpcDstva : Word
  envIpcPerm : Word
  envUserTlbModEntry : Word
  envRuns : Word
  envCpuId : Option CpuId
  envRunning : Bool
  envPinnedCpu : Option CpuId
  envKillPending : Bool
  envKillDone : Bool

structure CpuLocalData where
  curenv : Option EnvIdx
  curPgdir : Word
  schedCount : Word
  /-- The frame at the top of this CPU's kernel stack. -/
  trapframe : Trapframe

structure Kern where
  envs : EnvIdx → Env
  envFreeList : Links EnvIdx
  envSchedList : TailQ EnvIdx
  asidBitmap : Fin NASID → Bool
  /-- The static counter of `mkenvid`. -/
  mkenvidI : Word
  cpuData : CpuId → CpuLocalData
  timerScheduleReady : Bool

namespace Kern

def updEnv (k : Kern) (e : EnvIdx) (f : Env → Env) : Kern :=
  { k with envs := update k.envs e (f (k.envs e)) }

def updCpu (k : Kern) (c : CpuId) (f : CpuLocalData → CpuLocalData) : Kern :=
  { k with cpuData := update k.cpuData c (f (k.cpuData c)) }

def curenv (k : Kern) (c : CpuId) : Option EnvIdx :=
  (k.cpuData c).curenv

/-- The environment is marked as running on CPU `c`. -/
def runsOn (k : Kern) (e : EnvIdx) (c : CpuId) : Prop :=
  (k.envs e).envRunning = true ∧ (k.envs e).envCpuId = some c

instance (k : Kern) (e : EnvIdx) (c : CpuId) : Decidable (k.runsOn e c) :=
  inferInstanceAs (Decidable (_ ∧ _))

section

variable (k : Kern)

theorem envs_updEnv (e e' : EnvIdx) (f : Env → Env) :
    (k.updEnv e f).envs e' = if e' = e then f (k.envs e) else k.envs e' := by
  simp only [updEnv, update_apply]

@[simp] theorem envs_updEnv_self (e : EnvIdx) (f : Env → Env) :
    (k.updEnv e f).envs e = f (k.envs e) := by
  rw [envs_updEnv, if_pos rfl]

theorem envs_updEnv_ne {e e' : EnvIdx} (f : Env → Env) (h : e' ≠ e) :
    (k.updEnv e f).envs e' = k.envs e' := by
  rw [envs_updEnv, if_neg h]

@[simp] theorem cpuData_updEnv (e : EnvIdx) (f : Env → Env) :
    (k.updEnv e f).cpuData = k.cpuData := rfl

@[simp] theorem curenv_updEnv (e : EnvIdx) (f : Env → Env) : (k.updEnv e f).curenv = k.curenv := rfl

@[simp] theorem envs_updCpu (c : CpuId) (f : CpuLocalData → CpuLocalData) :
    (k.updCpu c f).envs = k.envs := rfl

theorem cpuData_updCpu (c d : CpuId) (f : CpuLocalData → CpuLocalData) :
    (k.updCpu c f).cpuData d = if d = c then f (k.cpuData c) else k.cpuData d := by
  simp only [updCpu, update_apply]

theorem curenv_updCpu (c d : CpuId) (f : CpuLocalData → CpuLocalData) :
    (k.updCpu c f).curenv d = if d = c then (f (k.cpuData c)).curenv else k.curenv d := by
  unfold curenv
  rw [cpuData_updCpu]
  split <;> rfl

end

end Kern

end MosSmp
