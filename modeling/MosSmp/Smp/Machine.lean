import MosSmp.Lib.Transition
import MosSmp.Env.Syscall

/-!
Two CPUs executing the kernel. A step of a CPU is one critical section under
`env_sched_lock`, or one stretch of code between two sections; the steps of
the CPUs interleave in any order. `Pc` says where a CPU is, `runStep` what it
does from there, and a label names the CPU, the trap it takes when it is in
user mode, and the answers of the page layer.

`handle_ipi_irq` runs functions that leave this state alone, so it is not a
step of its own here, and the call that pokes the target of a remote
destruction is part of the waiting loop. A failed assertion ends in `halt`,
which resets the whole board: no CPU takes a step afterwards.

The record `Hist` is not kernel state. It numbers the contexts that traps and
calls produce, counts the releases of each slot and the messages of each
environment, and remembers which environment trapped on each CPU.
-/

namespace MosSmp

open Lib Function

/-- Why `env_free` was called. -/
inductive FreeKind
  | destroy
  | killed
  deriving DecidableEq

/-- The position of a CPU in the kernel. A position named after a lock is the
one right before that function's critical section. -/
inductive Pc
  | boot
  | user
  | sys (call : Syscall)
  | recvLock (dstva : Word)
  | recvTail
  | statusLock (e : EnvIdx) (status : EnvStatus)
  | statusTail (e : EnvIdx)
  | sendLock (e : EnvIdx) (value srcva perm : Word)
  | sendMap (e : EnvIdx) (value srcva perm : Word)
  | sendUndo (e : EnvIdx) (err : Err)
  | sendFill (e : EnvIdx) (value perm : Word)
  | sendWake (e : EnvIdx)
  | destroyLock (e : EnvIdx)
  | waitRemote (e : EnvIdx) (envid : Word)
  | freeMem (e : EnvIdx) (kind : FreeKind)
  | freeLock (e : EnvIdx) (kind : FreeKind)
  | freed (e : EnvIdx) (kind : FreeKind)
  | sched (yield : Bool)
  | schedLock (yield : Bool)
  | schedSpin
  | envRun (e : EnvIdx)
  | popTf (e : EnvIdx)

structure Hist where
  clock : Nat
  /-- Number of the context in the CPU's trapframe. -/
  tfStamp : CpuId → Nat
  /-- Number of the context in `env_tf`. -/
  envStamp : EnvIdx → Nat
  /-- Number of the latest context of the environment: its last trap, or the
  last context installed for it after that. -/
  latest : EnvIdx → Nat
  frees : EnvIdx → Nat
  /-- The id and the release count of the slot that trapped on the CPU. -/
  trapped : CpuId → Word × Nat
  recvs : EnvIdx → Nat
  sends : EnvIdx → Nat

structure Sys where
  kern : Kern
  pc : CpuId → Pc
  halted : Bool
  hist : Hist

inductive Act
  | tick (tf : Trapframe)
  | syscall (tf : Trapframe) (call : Syscall)
  | run (vm : Vm)

structure Label where
  cpu : CpuId
  act : Act

namespace Sys

def goto (s : Sys) (c : CpuId) (pc : Pc) : Sys :=
  { s with pc := update s.pc c pc }

def setKern (s : Sys) (k : Kern) : Sys :=
  { s with kern := k }

/-- Return from a system call with result `r`. -/
def ret (s : Sys) (c : CpuId) (r : Word) : Sys :=
  (s.setKern (s.kern.setV0 c r)).goto c .user

/-- Record that `e` trapped on CPU `c`. -/
def noteTrap (s : Sys) (c : CpuId) (e : EnvIdx) : Sys :=
  { s with hist := { s.hist with
      clock := s.hist.clock + 1
      tfStamp := update s.hist.tfStamp c (s.hist.clock + 1)
      latest := update s.hist.latest e (s.hist.clock + 1)
      trapped := update s.hist.trapped c ((s.kern.envs e).envId, s.hist.frees e) } }

/-- Record that a context was installed in the `env_tf` of `e`. -/
def noteInstall (s : Sys) (e : EnvIdx) : Sys :=
  { s with hist := { s.hist with
      clock := s.hist.clock + 1
      envStamp := update s.hist.envStamp e (s.hist.clock + 1)
      latest := update s.hist.latest e (s.hist.clock + 1) } }

/-- Record that `e`, the caller on CPU `c`, replaced its own trapframe. -/
def noteOwnInstall (s : Sys) (c : CpuId) (e : EnvIdx) : Sys :=
  { s with hist := { s.hist with
      clock := s.hist.clock + 1
      tfStamp := update s.hist.tfStamp c (s.hist.clock + 1)
      latest := update s.hist.latest e (s.hist.clock + 1) } }

/-- Record that slot `e` holds a new environment. -/
def noteAlloc (s : Sys) (e : EnvIdx) : Sys :=
  { s with hist := { s.hist with
      recvs := update s.hist.recvs e 0
      sends := update s.hist.sends e 0 } }

def noteSave (s : Sys) (c : CpuId) : Sys :=
  match s.kern.curenv c with
  | some old => { s with hist := { s.hist with
      envStamp := update s.hist.envStamp old (s.hist.tfStamp c) } }
  | none => s

def noteFree (s : Sys) (e : EnvIdx) : Sys :=
  { s with hist := { s.hist with
      frees := update s.hist.frees e (s.hist.frees e + 1) } }

def noteRecv (s : Sys) (e : EnvIdx) : Sys :=
  { s with hist := { s.hist with
      recvs := update s.hist.recvs e (s.hist.recvs e + 1) } }

def noteSend (s : Sys) (e : EnvIdx) : Sys :=
  { s with hist := { s.hist with
      sends := update s.hist.sends e (s.hist.sends e + 1) } }

attribute [simps -fullyApplied] goto setKern
attribute [simps -fullyApplied kern pc] noteTrap noteInstall noteOwnInstall noteAlloc noteFree
  noteRecv noteSend

/-- A timer interrupt in user mode, up to the call of `schedule`. -/
def tick (s : Sys) (c : CpuId) (e : EnvIdx) (tf : Trapframe) : Sys :=
  ((s.setKern (s.kern.saveAll c tf)).noteTrap c e).goto c
    (if s.kern.timerScheduleReady then .sched false else .user)

/-- A system call in user mode, up to the call of its function. -/
def enter (s : Sys) (c : CpuId) (e : EnvIdx) (tf : Trapframe) (call : Syscall) : Sys :=
  ((s.setKern (s.kern.saveAll c { tf with cp0Epc := tf.cp0Epc + 4 })).noteTrap c e).goto c
    (.sys call)

/-- `sys_exofork`; it has no critical section. -/
def sysExofork (s : Sys) (c : CpuId) (cur : EnvIdx) (vm : Option Word) : Sys :=
  match s.kern.exofork c cur vm with
  | (.error err, k) => (s.setKern k).ret c err.code
  | (.ok e, k) => (((s.setKern k).noteInstall e).noteAlloc e).ret c (k.envs e).envId

/-- `sys_set_trapframe`; it has no critical section. -/
def sysSetTrapframe (s : Sys) (c : CpuId) (cur : EnvIdx) (envid va : Word)
    (tf : Trapframe) : Sys :=
  if isIllegalVaRange va sizeofTrapframe then s.ret c Err.inval.code
  else
    match s.kern.envid2env cur envid true with
    | .error err => s.ret c err.code
    | .ok e =>
      if e = cur then
        ((s.setKern (s.kern.saveAll c tf)).noteOwnInstall c cur).ret c (tf.regs 2)
      else
        ((s.setKern (s.kern.updEnv e (fun x => { x with envTf := tf }))).noteInstall e).ret c 0

/-- The code of a system call up to its first critical section. -/
def sysStep (s : Sys) (c : CpuId) (cur : EnvIdx) (vm : Vm) : Syscall → Sys
  | .yield => s.goto c (.sched true)
  | .exofork => s.sysExofork c cur vm.pgdir
  | .setEnvStatus envid status =>
    match statusOfWord status with
    | none => s.ret c Err.inval.code
    | some st =>
      match s.kern.envid2env cur envid true with
      | .error err => s.ret c err.code
      | .ok e => s.goto c (.statusLock e st)
  | .setTrapframe envid va tf => s.sysSetTrapframe c cur envid va tf
  | .ipcRecv dstva =>
    if dstva ≠ 0 ∧ isIllegalVa dstva = true then s.ret c Err.inval.code
    else s.goto c (.recvLock dstva)
  | .ipcTrySend envid value srcva perm =>
    if srcva ≠ 0 ∧ isIllegalVa srcva = true then s.ret c Err.inval.code
    else
      match s.kern.envid2env cur envid false with
      | .error err => s.ret c err.code
      | .ok e => s.goto c (.sendLock e value srcva perm)
  | .envDestroy envid =>
    match s.kern.envid2env cur envid true with
    | .error err => s.ret c err.code
    | .ok e => s.goto c (.destroyLock e)
  | .cgetc ch =>
    if ch = 0 then (s.setKern (s.kern.setV0 c 0)).goto c (.sched true) else s.ret c ch
  | .other r => s.ret c r

/-- The page transfer of `sys_ipc_try_send`. -/
def sendMap (s : Sys) (c : CpuId) (e : EnvIdx) (value srcva perm : Word)
    (answer : Transfer) : Sys :=
  if srcva = 0 then s.goto c (.sendFill e value 0)
  else
    match answer with
    | .notMapped => s.goto c (.sendUndo e .inval)
    | .insertFails => s.goto c (.sendUndo e .noMem)
    | .mapped => s.goto c (.sendFill e value (PTE_V ||| perm))

/-- `env_destroy` up to the end of its critical section. -/
def destroyLock (s : Sys) (c : CpuId) (e : EnvIdx) : Sys :=
  match s.kern.destroySection c e with
  | (.alreadyFree, k) => (s.setKern k).ret c 0
  | (.remote envid, k) => (s.setKern k).goto c (.waitRemote e envid)
  | (.local, k) => (s.setKern k).goto c (.freeMem e .destroy)

/-- What follows `env_free` in `env_destroy` and in
`env_check_kill_pending`. -/
def freed (s : Sys) (c : CpuId) (e : EnvIdx) (kind : FreeKind) : Sys :=
  if kind = .killed ∨ s.kern.curenv c = some e then
    (s.setKern (s.kern.setCurenv c none)).goto c (.sched true)
  else s.ret c 0

/-- `smp_note_schedule_ready`, then the lock of `schedule`. -/
def noteScheduleReady (s : Sys) (c : CpuId) (yield : Bool) : Sys :=
  (s.setKern { s.kern with
    timerScheduleReady := s.kern.timerScheduleReady || c = 0 }).goto c (.schedLock yield)

/-- `schedule` up to its critical section, with the check for a pending
kill. -/
def sched (s : Sys) (c : CpuId) (yield : Bool) : Sys :=
  match s.kern.curenv c with
  | some e =>
    if (s.kern.envs e).envKillPending then s.goto c (.freeMem e .killed)
    else s.noteScheduleReady c yield
  | none => s.noteScheduleReady c yield

/-- Leave the critical section of `schedule`. -/
def schedDone (s : Sys) (c : CpuId) : Kern.SchedOutcome → Option Sys
  | .run e k => some ((s.setKern k).goto c (.envRun e))
  | .spin k => some ((s.setKern k).goto c .schedSpin)
  | .hang => none

/-- `env_run` up to `env_pop_tf`. -/
def envRun (s : Sys) (c : CpuId) (e : EnvIdx) : Sys :=
  if (s.kern.envs e).envStatus = .runnable then
    ((s.noteSave c).setKern (s.kern.switchTo c e)).goto c (.popTf e)
  else { s with halted := true }

/-- A step in the kernel on behalf of the environment `cur`. -/
def runStep (s : Sys) (c : CpuId) (cur : EnvIdx) (vm : Vm) : Pc → Option Sys
  | .sys call => some (s.sysStep c cur vm call)
  | .recvLock dstva =>
    some (((s.setKern (s.kern.recvSection cur dstva)).noteRecv cur).goto c .recvTail)
  | .recvTail => some ((s.setKern (s.kern.setV0 c 0)).goto c (.sched true))
  | .statusLock e status =>
    some ((s.setKern (s.kern.statusSection e status)).goto c (.statusTail e))
  | .statusTail e => some (if e = cur then s.goto c (.sched true) else s.ret c 0)
  | .sendLock e value srcva perm =>
    some (if (s.kern.envs e).envIpcRecving then
        (s.setKern (s.kern.setRecving e false)).goto c (.sendMap e value srcva perm)
      else s.ret c Err.ipcNotRecv.code)
  | .sendMap e value srcva perm => some (s.sendMap c e value srcva perm vm.transfer)
  | .sendUndo e err => some ((s.setKern (s.kern.setRecving e true)).ret c err.code)
  | .sendFill e value perm =>
    some ((s.setKern (s.kern.fillIpc e value (s.kern.envs cur).envId perm)).goto c (.sendWake e))
  | .sendWake e => some (((s.setKern (s.kern.wakeSection e)).noteSend e).ret c 0)
  | .destroyLock e => some (s.destroyLock c e)
  | .waitRemote e envid =>
    if (s.kern.envs e).envId = envid ∧ (s.kern.envs e).envKillDone = false then none
    else some (s.ret c 0)
  | _ => none

/-- A step in the kernel that does not need a current environment, and the
dispatch to those that do. -/
def cpuStep (s : Sys) (c : CpuId) (vm : Vm) : Option Sys :=
  match s.pc c with
  | .boot => if s.kern.timerScheduleReady then some (s.goto c (.sched false)) else none
  | .user => none
  | .freeMem e kind =>
    some ((s.setKern (s.kern.asidFree (s.kern.envs e).envAsid)).goto c (.freeLock e kind))
  | .freeLock e kind =>
    some (((s.setKern (s.kern.freeSection e)).noteFree e).goto c (.freed e kind))
  | .freed e kind => some (s.freed c e kind)
  | .sched yield => some (s.sched c yield)
  | .schedLock yield => s.schedDone c (s.kern.schedSection c yield)
  | .schedSpin => s.schedDone c (s.kern.pickNext c)
  | .envRun e => some (s.envRun c e)
  | .popTf _ => some (s.goto c .user)
  | pc =>
    match s.kern.curenv c with
    | some cur => s.runStep c cur vm pc
    | none => none

def step (s : Sys) (l : Label) : Option Sys :=
  if s.halted then none
  else
    match l.act with
    | .run vm => s.cpuStep l.cpu vm
    | .tick tf =>
      match s.pc l.cpu, s.kern.curenv l.cpu with
      | .user, some e => some (s.tick l.cpu e tf)
      | _, _ => none
    | .syscall tf call =>
      match s.pc l.cpu, s.kern.curenv l.cpu with
      | .user, some e => some (s.enter l.cpu e tf call)
      | _, _ => none

/-- CPU 0 is about to call `schedule(0)` at the end of `mips_init`, CPU 1
polls in `smp_secondary_start` until CPU 0 has entered `schedule`. -/
def start (k : Kern) : Sys where
  kern := k
  pc := fun c => if c = 0 then .sched false else .boot
  halted := false
  hist := ⟨0, fun _ => 0, fun _ => 0, fun _ => 0, fun _ => 0, fun _ => (0, 0),
    fun _ => 0, fun _ => 0⟩

end Sys

/-- The two-CPU kernel, from every boot configuration. -/
def smp : Machine Sys Label where
  init s := ∃ images k, Kern.boot images = some k ∧ s = Sys.start k
  step := Sys.step

/-- The next step of a CPU in the kernel; the page layer has a page for a new
directory and maps what it is asked to map. -/
def Label.go (c : CpuId) : Label := ⟨c, .run ⟨some 0x80500000, .mapped⟩⟩

/-- A system call from user mode, with a fixed context. -/
def Label.call (c : CpuId) (call : Syscall) : Label := ⟨c, .syscall .zero call⟩

/-- An early environment with one time slice. -/
def Kern.Image.plain : Kern.Image := ⟨0x80400000, 1, false, 0x400000⟩

theorem smp_exists_of_run (ok : Sys → Label → Prop) [∀ s l, Decidable (ok s l)]
    (P : Sys → Prop) [DecidablePred P] (images : List Kern.Image) (labels : List Label)
    (hrun : ((Kern.boot images).bind (fun k => smp.exec ok (Sys.start k) labels)).any
      (fun s => decide (P s)) = true) :
    ∃ s, smp.ReachableUnder ok s ∧ P s := by
  cases hboot : Kern.boot images with
  | none => simp [hboot] at hrun
  | some k =>
    rw [hboot] at hrun
    exact Machine.exists_reachableUnder_of_exec labels (.init ⟨images, k, hboot, rfl⟩) hrun

end MosSmp
