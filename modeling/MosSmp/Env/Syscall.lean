import MosSmp.Env.Sched

/-!
The system calls that touch environments, cut at their critical sections:
`sys_exofork`, `sys_set_env_status`, `sys_set_trapframe`, `sys_ipc_recv` and
`sys_ipc_try_send`. The functions here are the pieces; the order in which a
CPU executes them, and where another CPU may come in between, is defined by
the machine module.
-/

namespace MosSmp

open Lib

/-- The calls a user program can make, with their arguments. `cgetc` carries
the character the console delivers, and `other` the result of a call that
leaves the environments alone (or of an exception that returns to the
interrupted program). The trapframe that `sys_set_trapframe` reads from user
memory is part of the call. -/
inductive Syscall
  | yield
  | exofork
  | setEnvStatus (envid status : Word)
  | setTrapframe (envid va : Word) (tf : Trapframe)
  | ipcRecv (dstva : Word)
  | ipcTrySend (envid value srcva perm : Word)
  | envDestroy (envid : Word)
  | cgetc (ch : Word)
  | other (r : Word)

/-- What `page_lookup` and `page_insert` answer to `sys_ipc_try_send`. -/
inductive Transfer
  | notMapped
  | insertFails
  | mapped
  deriving DecidableEq

/-- The answers of the page layer to the calls made within one step. -/
structure Vm where
  pgdir : Option Word
  transfer : Transfer

def ENV_RUNNABLE : Word := 1
def ENV_NOT_RUNNABLE : Word := 2

/-- The status a valid argument of `sys_set_env_status` stands for. -/
def statusOfWord (status : Word) : Option EnvStatus :=
  if status = ENV_RUNNABLE then some .runnable
  else if status = ENV_NOT_RUNNABLE then some .notRunnable
  else none

namespace Kern

/-- `SAVE_ALL`: the user context goes to the top of the CPU's kernel stack. -/
def saveAll (k : Kern) (c : CpuId) (tf : Trapframe) : Kern :=
  k.updCpu c (fun d => { d with trapframe := tf })

/-- Store the result of a call in `$v0` of the saved context. -/
def setV0 (k : Kern) (c : CpuId) (r : Word) : Kern :=
  k.updCpu c (fun d => { d with trapframe := d.trapframe.setReg 2 r })

/-- `sys_exofork` for the caller `cur`, with its return value and, on
success, the new slot. -/
def exofork (k : Kern) (c : CpuId) (cur : EnvIdx) (vm : Option Word) :
    Except Err EnvIdx × Kern :=
  match k.envAlloc vm (k.envs cur).envId with
  | (.error err, k) => (.error err, k)
  | (.ok e, k) =>
    let tf := (k.cpuData c).trapframe.setReg 2 0
    (.ok e, k.updEnv e (fun x => { x with
      envTf := tf
      envStatus := .notRunnable
      envPri := (k.envs cur).envPri }))

/-- The critical section of `sys_set_env_status`. -/
def statusSection (k : Kern) (e : EnvIdx) (status : EnvStatus) : Kern :=
  let k := if status = .runnable ∧ (k.envs e).envStatus ≠ .runnable then
      { k with envSchedList := k.envSchedList.insertTail e }
    else if status = .notRunnable ∧ (k.envs e).envStatus ≠ .notRunnable then
      { k with envSchedList := k.envSchedList.remove e }
    else k
  k.updEnv e (fun x => { x with envStatus := status })

/-- The critical section of `sys_ipc_recv` for the caller `cur`. -/
def recvSection (k : Kern) (cur : EnvIdx) (dstva : Word) : Kern :=
  let k := k.updEnv cur (fun x => { x with
    envIpcRecving := true
    envIpcDstva := dstva
    envStatus := .notRunnable
    envRunning := false
    envCpuId := none })
  { k with envSchedList := k.envSchedList.remove cur }

def setRecving (k : Kern) (e : EnvIdx) (b : Bool) : Kern :=
  k.updEnv e (fun x => { x with envIpcRecving := b })

/-- The message fields of the receiver. -/
def fillIpc (k : Kern) (e : EnvIdx) (value from_ perm : Word) : Kern :=
  k.updEnv e (fun x => { x with
    envIpcValue := value
    envIpcFrom := from_
    envIpcPerm := perm })

/-- The last critical section of `sys_ipc_try_send`. -/
def wakeSection (k : Kern) (e : EnvIdx) : Kern :=
  let k := k.updEnv e (fun x => { x with envStatus := .runnable })
  { k with envSchedList := k.envSchedList.insertTail e }

/-- `env_run` up to `env_pop_tf`: save the context of the previous
environment, switch `curenv` and the address space. -/
def switchTo (k : Kern) (c : CpuId) (e : EnvIdx) : Kern :=
  let k := match k.curenv c with
    | some old => k.updEnv old (fun x => { x with envTf := (k.cpuData c).trapframe })
    | none => k
  let k := k.updCpu c (fun d => { d with curenv := some e })
  let k := k.updEnv e (fun x => { x with envRuns := x.envRuns + 1 })
  k.updCpu c (fun d => { d with curPgdir := (k.envs e).envPgdir })

def setCurenv (k : Kern) (c : CpuId) (v : Option EnvIdx) : Kern :=
  k.updCpu c (fun d => { d with curenv := v })

end Kern

end MosSmp
