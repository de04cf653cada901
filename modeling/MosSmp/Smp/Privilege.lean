import MosSmp.Smp.Target
import MosSmp.Smp.Context

/-!
The status word that user programs run with. `ret_from_exception` loads
`cp0_status` from the frame it is given and `eret` continues in the mode that
the word says, so a frame with a wrong word resumes a program in kernel mode or
with interrupts masked. A trapframe comes from `env_alloc`, from `SAVE_ALL`,
from the save in `env_run`, from `sys_exofork` and from `sys_set_trapframe`;
the last of these takes it from the caller as it is.

The machine of this module is the two-CPU kernel with the status register. Each
CPU has the frame that was restored on it last, and a trap in user mode saves
the status word of that frame, since a program in user mode cannot change it.
Three more things that a program can cause are steps here:
`sys_set_tlb_mod_entry`, a TLB Mod exception, and `sys_read_dev`. The last two
store to user memory from the kernel. If the page is mapped without `PTE_D`,
the store raises a TLB Mod exception in kernel mode, and `do_tlb_mod` sends the
interrupted kernel context to the handler of the program.

What a program does in kernel mode is not described: a CPU that has resumed one
takes no further traps here.
-/

namespace MosSmp

open Lib Function Kern Sys Option Trapframe

def STATUS_IE : Word := 0x1
def STATUS_EXL : Word := 0x2
def STATUS_UM : Word := 0x10
def STATUS_IM6 : Word := 0x4000
def STATUS_IM7 : Word := 0x8000

/-- User mode with the interrupts that `env_alloc` enables. -/
def UserStatus (w : Word) : Prop :=
  w &&& STATUS_UM ≠ 0 ∧ w &&& STATUS_IE ≠ 0 ∧ w &&& STATUS_IM6 ≠ 0 ∧ w &&& STATUS_IM7 ≠ 0

instance (w : Word) : Decidable (UserStatus w) :=
  inferInstanceAs (Decidable (_ ∧ _))

/-- The status word that `SAVE_ALL` finds when the kernel itself is
interrupted: the entry code has cleared the three bits, the exception has set
`STATUS_EXL`. -/
def kernelStatus (w : Word) : Word :=
  (w &&& ~~~(STATUS_UM ||| STATUS_EXL ||| STATUS_IE)) ||| STATUS_EXL

namespace Trapframe

def UserMode (tf : Trapframe) : Prop :=
  UserStatus tf.cp0Status

instance (tf : Trapframe) : Decidable tf.UserMode :=
  inferInstanceAs (Decidable (UserStatus _))

def withStatus (tf : Trapframe) (w : Word) : Trapframe :=
  { tf with cp0Status := w }

/-- What `do_tlb_mod` does to the frame, for an environment with the handler
`entry`; without a handler the kernel panics. -/
def doTlbMod (tf : Trapframe) (entry : Word) : Option Trapframe :=
  let top := if tf.regs 29 < USTACKTOP ∨ UXSTACKTOP ≤ tf.regs 29 then UXSTACKTOP else tf.regs 29
  let sp := top - sizeofTrapframe
  if entry = 0 then none
  else some { (tf.setReg 4 sp).setReg 29 (sp - 4) with cp0Epc := entry }

theorem doTlbMod_status {tf tf' : Trapframe} {entry : Word} (h : tf.doTlbMod entry = some tf') :
    tf'.cp0Status = tf.cp0Status := by
  unfold doTlbMod at h
  dsimp only at h
  split at h <;> cases h
  rfl

end Trapframe

/-- The position of a CPU that executes its environment. -/
def Pc.isUser : Pc → Bool
  | .user => true
  | _ => false

theorem Pc.isUser_iff {p : Pc} : p.isUser = true ↔ p = .user := by
  cases p <;> simp [Pc.isUser]

namespace Sys

variable {s s' : Sys} {c : CpuId} {tf : Trapframe}

theorem step_run_not_user {vm : Vm} (h : s.step ⟨c, .run vm⟩ = some s') : s.pc c ≠ .user := by
  intro huser
  unfold step at h
  split at h
  · cases h
  · simp only [cpuStep, huser] at h
    cases h

theorem step_tick (h : s.step ⟨c, .tick tf⟩ = some s') :
    s.pc c = .user ∧ ∃ e, s.kern.curenv c = some e ∧ s' = s.tick c e tf := by
  unfold step at h
  split at h
  · cases h
  · dsimp only at h
    split at h
    · next hpc hcur => exact ⟨hpc, _, hcur, (some.inj h).symm⟩
    · cases h

theorem step_syscall {call : Syscall} (h : s.step ⟨c, .syscall tf call⟩ = some s') :
    s.pc c = .user ∧ ∃ e, s.kern.curenv c = some e ∧ s' = s.enter c e tf call := by
  unfold step at h
  split at h
  · cases h
  · dsimp only at h
    split at h
    · next hpc hcur => exact ⟨hpc, _, hcur, (some.inj h).symm⟩
    · cases h

end Sys

/-- The CPU is in `schedule`, or about to switch. -/
def Pc.scheduling : Pc → Bool
  | .sched _ | .schedLock _ | .schedSpin | .envRun _ => true
  | _ => false

/-- Where a trap from user mode can lead, if it is a clean one. -/
def Pc.AfterTrap : Pc → Prop
  | .user | .sched _ => True
  | .sys (.setTrapframe _ _ tf) => tf.UserMode
  | .sys _ => True
  | _ => False

theorem Pc.AfterTrap.pointee {p : Pc} (h : p.AfterTrap) : p.pointee = none := by
  cases p <;> first | rfl | exact absurd h id

theorem Pc.AfterTrap.popping {p : Pc} (h : p.AfterTrap) : p.popping = none := by
  cases p <;> first | rfl | exact absurd h id

/-- The kernel with the frame that `ret_from_exception` restored last on each
CPU. -/
structure ModeSys where
  sys : Sys
  restored : CpuId → Option Trapframe

/-- The kernel's registers at a store that faults, if the page it goes to is
mapped without `PTE_D`. -/
abbrev StoreFault := Option Trapframe

inductive ModeAct
  | kern (act : Act)
  | setTlbModEntry (tf : Trapframe) (envid func : Word)
  | tlbMod (tf : Trapframe) (fault : StoreFault)
  | readDev (tf : Trapframe) (fault : StoreFault)

structure ModeLabel where
  cpu : CpuId
  act : ModeAct

namespace ModeAct

/-- The frame that the action hands to `sys_set_trapframe`. -/
def given : ModeAct → Option Trapframe
  | .kern (.syscall _ (.setTrapframe _ _ tf)) => some tf
  | _ => none

def fault : ModeAct → StoreFault
  | .tlbMod _ fault | .readDev _ fault => fault
  | _ => none

end ModeAct

/-- The frame that is restored when CPU `c` goes from `s` to user mode in
`s'`: the saved context in `env_pop_tf`, otherwise the CPU's own frame. -/
def Sys.frameFor (s s' : Sys) (c : CpuId) : Trapframe :=
  match (s.pc c).popping with
  | some e => (s.kern.envs e).envTf
  | none => (s'.kern.cpuData c).trapframe

namespace ModeSys

/-- The status register of a CPU that executes its environment in user
mode. -/
def userStatus (m : ModeSys) (c : CpuId) : Option Word :=
  match m.restored c with
  | some tf => if tf.cp0Status &&& STATUS_UM ≠ 0 then some tf.cp0Status else none
  | none => none

/-- The environment that traps on CPU `c`, and the frame `SAVE_ALL` stores. -/
def trapped (m : ModeSys) (c : CpuId) (tf : Trapframe) : Option (EnvIdx × Trapframe) :=
  if m.sys.halted then none
  else
    match m.sys.pc c, m.sys.kern.curenv c, m.userStatus c with
    | .user, some e, some w => some (e, tf.withStatus w)
    | _, _, _ => none

def returnTo (m : ModeSys) (s : Sys) (c : CpuId) (tf : Trapframe) : ModeSys where
  sys := s
  restored := update m.restored c (some tf)

/-- The action with the status word that the hardware gives to the saved
frame. -/
def saved (m : ModeSys) (c : CpuId) : Act → Option Act
  | .run vm => some (.run vm)
  | .tick tf => (m.userStatus c).map (fun w => .tick (tf.withStatus w))
  | .syscall tf call => (m.userStatus c).map (fun w => .syscall (tf.withStatus w) call)

/-- A step of the two-CPU kernel. -/
def kernStep (m : ModeSys) (c : CpuId) (act : Act) : Option ModeSys :=
  match m.saved c act with
  | none => none
  | some act =>
    match m.sys.step ⟨c, act⟩ with
    | none => none
    | some s =>
      some (if (s.pc c).isUser then m.returnTo s c (m.sys.frameFor s c)
        else ⟨s, m.restored⟩)

/-- A system call that returns at once with result `r`, after a change of the
control blocks. -/
def callReturns (m : ModeSys) (c : CpuId) (e : EnvIdx) (tf : Trapframe) (change : Kern → Kern)
    (r : Word) : ModeSys :=
  let s := m.sys.enter c e tf (.other r)
  let s := (s.setKern (change s.kern)).ret c r
  m.returnTo s c (s.kern.cpuData c).trapframe

/-- A TLB Mod exception in the kernel, in a trap of environment `e` with the
saved frame `tf`. -/
def kernelMod (m : ModeSys) (c : CpuId) (e : EnvIdx) (tf kernelTf : Trapframe) : ModeSys :=
  let s := (m.sys.setKern (m.sys.kern.saveAll c tf)).noteTrap c e
  match (kernelTf.withStatus (kernelStatus tf.cp0Status)).doTlbMod
      (m.sys.kern.envs e).envUserTlbModEntry with
  | none => ⟨{ s with halted := true }, m.restored⟩
  | some tf' => m.returnTo s c tf'

/-- `sys_set_tlb_mod_entry`. -/
def setTlbModEntry (m : ModeSys) (c : CpuId) (cur : EnvIdx) (tf : Trapframe)
    (envid func : Word) : ModeSys :=
  match m.sys.kern.envid2env cur envid true with
  | .error err => m.callReturns c cur tf id err.code
  | .ok e => m.callReturns c cur tf
      (fun k => k.updEnv e (fun x => { x with envUserTlbModEntry := func })) 0

/-- `handle_mod` for a program in user mode. -/
def tlbMod (m : ModeSys) (c : CpuId) (cur : EnvIdx) (tf : Trapframe) (fault : StoreFault) :
    ModeSys :=
  match fault with
  | some kernelTf => m.kernelMod c cur tf kernelTf
  | none =>
    match tf.doTlbMod (m.sys.kern.envs cur).envUserTlbModEntry with
    | none => ⟨{ m.sys with halted := true }, m.restored⟩
    | some tf' =>
      m.returnTo ((m.sys.setKern (m.sys.kern.saveAll c tf')).noteTrap c cur) c tf'

/-- `sys_read_dev` with valid arguments. -/
def readDev (m : ModeSys) (c : CpuId) (cur : EnvIdx) (tf : Trapframe) (fault : StoreFault) :
    ModeSys :=
  match fault with
  | some kernelTf => m.kernelMod c cur { tf with cp0Epc := tf.cp0Epc + 4 } kernelTf
  | none => m.callReturns c cur tf id 0

def step (m : ModeSys) (l : ModeLabel) : Option ModeSys :=
  match l.act with
  | .kern act => m.kernStep l.cpu act
  | .setTlbModEntry tf envid func =>
    (m.trapped l.cpu tf).map (fun p => m.setTlbModEntry l.cpu p.1 p.2 envid func)
  | .tlbMod tf fault => (m.trapped l.cpu tf).map (fun p => m.tlbMod l.cpu p.1 p.2 fault)
  | .readDev tf fault => (m.trapped l.cpu tf).map (fun p => m.readDev l.cpu p.1 p.2 fault)

/-- Every frame restored for an environment is one of user mode. -/
def UserRestores (m : ModeSys) : Prop :=
  ∀ c tf, m.restored c = some tf → tf.UserMode

/-- A frame given to `sys_set_trapframe` is one of user mode, and the kernel's
stores to user memory do not fault. -/
def CleanFrames (l : ModeLabel) : Prop :=
  (∀ tf ∈ l.act.given, tf.UserMode) ∧ l.act.fault.isNone = true

instance decidableCleanFrames (l : ModeLabel) : Decidable (CleanFrames l) :=
  @instDecidableAnd _ _ (decidableForallMem _) (instDecidableEqBool _ _)

end ModeSys

/-- The two-CPU kernel with the status register, from every boot
configuration. -/
def privilege : Machine ModeSys ModeLabel where
  init m := smp.init m.sys ∧ m.restored = fun _ => none
  step := ModeSys.step

namespace Kern

variable (k : Kern) (c d : CpuId)

/-- The status word in the frame of CPU `d`. -/
def frameStatus : Word :=
  (k.cpuData d).trapframe.cp0Status

theorem frameStatus_updCpu (g : CpuLocalData → CpuLocalData)
    (hg : ∀ x, (g x).trapframe.cp0Status = x.trapframe.cp0Status) :
    (k.updCpu c g).frameStatus d = k.frameStatus d := by
  unfold frameStatus
  rw [cpuData_updCpu]
  split
  · next h =>
    subst h
    exact hg _
  · rfl

@[simp] theorem frameStatus_setV0 (r : Word) : (k.setV0 c r).frameStatus d = k.frameStatus d :=
  frameStatus_updCpu k c d _ (fun _ => rfl)

@[simp] theorem frameStatus_countDown : (k.countDown c).frameStatus d = k.frameStatus d :=
  frameStatus_updCpu k c d _ (fun _ => rfl)

@[simp] theorem frameStatus_setCurenv (v : Option EnvIdx) :
    (k.setCurenv c v).frameStatus d = k.frameStatus d :=
  frameStatus_updCpu k c d _ (fun _ => rfl)

@[simp] theorem frameStatus_assign (e : EnvIdx) : (k.assign c e).frameStatus d = k.frameStatus d :=
  frameStatus_updCpu _ c d _ (fun _ => rfl)

theorem frameStatus_congr {k k' : Kern} (h : k'.cpuData = k.cpuData) (d : CpuId) :
    k'.frameStatus d = k.frameStatus d := by
  rw [frameStatus, frameStatus, h]

@[simp] theorem frameStatus_release : (k.release c).frameStatus d = k.frameStatus d :=
  frameStatus_congr (cpuData_release k c) d

@[simp] theorem frameStatus_switchTo (e : EnvIdx) :
    (k.switchTo c e).frameStatus d = k.frameStatus d := by
  unfold switchTo frameStatus
  cases k.curenv c with
  | none | some => by_cases hd : d = c <;> simp [hd, cpuData_updCpu]

theorem frameStatus_saveAll (tf : Trapframe) :
    (k.saveAll c tf).frameStatus d = if d = c then tf.cp0Status else k.frameStatus d := by
  unfold frameStatus saveAll
  rw [cpuData_updCpu]
  split <;> rfl

end Kern

namespace Sys

variable {s s' : Sys} {c d : CpuId} {e : EnvIdx}

/-- Where the saved context of an environment comes from after a step in the
kernel. -/
inductive ContextSource (s : Sys) (c : CpuId) (e : EnvIdx) (tf : Trapframe) : Prop
  | same : tf = (s.kern.envs e).envTf → ContextSource s c e tf
  | own {cur : EnvIdx} : s.kern.curenv c = some cur → (s.pc c).inKernel = true →
      tf.cp0Status = s.kern.frameStatus c → ContextSource s c e tf
  | given {envid va : Word} : s.pc c = .sys (.setTrapframe envid va tf) →
      ContextSource s c e tf

theorem ContextSource.of_update {f : EnvIdx} {x : Env} (h : s'.kern.envs = update s.kern.envs f x)
    (hx : x.envTf = (s.kern.envs f).envTf) : ContextSource s c e (s'.kern.envs e).envTf := by
  rw [h]
  by_cases hf : e = f
  · subst hf
    exact .same (by rw [update_self, hx])
  · exact .same (by rw [update_of_ne hf])

theorem envTf_release (k : Kern) (c : CpuId) (e : EnvIdx) :
    ((k.release c).envs e).envTf = (k.envs e).envTf := by
  by_cases hcur : k.curenv c = some e
  · rw [envs_release _ _ _ hcur, update_self]
  · rw [envs_release_ne _ _ _ hcur]

theorem StepCase.context_source (h : StepCase s c s') (e : EnvIdx) :
    ContextSource s c e (s'.kern.envs e).envTf := by
  cases h with
  | forkFails hpc hcur hfork =>
    rcases exofork_error hfork with rfl | ⟨f, pgdir, _, rfl⟩
    · exact .same rfl
    · exact .of_update rfl rfl
  | @forks cur f vm k hpc hcur hfork =>
    obtain ⟨_, pgdir, _, _, _, rfl⟩ := exofork_ok f hfork
    by_cases hf : e = f
    · subst hf
      refine .own hcur (by rw [hpc]; rfl) ?_
      simp [forkEnv, setReg, frameStatus]
    · exact .same (by simp [update_of_ne hf])
  | @installOther cur f envid va tf hpc hcur =>
    by_cases hf : e = f
    · subst hf
      exact .given (by simpa using hpc)
    · exact .same (by simp [envs_updEnv_ne _ _ hf])
  | run hpc =>
    by_cases hcur : s.kern.curenv c = some e
    · exact .own hcur (by rw [hpc]; rfl) (by simp [envs_switchTo, hcur, frameStatus])
    · exact .same (by simp [envs_switchTo, hcur])
  | recv | sendTake | sendUndo | sendFill | sendWake | destroyRemote | destroyLocal | spinRun =>
    exact .of_update rfl rfl
  | setStatus => exact .of_update (envs_statusSection ..) rfl
  | free => exact .of_update (envs_freeSection ..) rfl
  | @switchRun yield f =>
    refine .same ?_
    by_cases hf : e = f
    · subst hf
      simp [envs_assign, envTf_release]
    · simp [envs_assign, update_of_ne hf, envTf_release]
  | switchSpin => exact .same (by simp [envTf_release])
  | _ => exact .same rfl

/-- The status word of a CPU's frame changes when the CPU traps, and when
`sys_set_trapframe` replaces the frame of the caller. -/
theorem StepCase.frameStatus_cases (h : StepCase s c s') (d : CpuId) :
    s'.kern.frameStatus d = s.kern.frameStatus d ∨ d = c ∧ (s.pc c = .user ∨
      ∃ envid va tf, s.pc c = .sys (.setTrapframe envid va tf) ∧
        s'.kern.frameStatus d = tf.cp0Status) := by
  cases h with
  | tick tf hpc =>
    by_cases hd : d = c
    · exact .inr ⟨hd, .inl hpc⟩
    · exact .inl (by simp [Sys.tick, Kern.frameStatus_saveAll, hd])
  | enter tf call hpc =>
    by_cases hd : d = c
    · exact .inr ⟨hd, .inl hpc⟩
    · exact .inl (by simp [Sys.enter, Kern.frameStatus_saveAll, hd])
  | installOwn hpc =>
    by_cases hd : d = c
    · exact .inr ⟨hd, .inr ⟨_, _, _, hpc, by simp [frameStatus_saveAll, hd]⟩⟩
    · exact .inl (by simp [frameStatus_saveAll, hd])
  | forkFails _ _ hfork | forks _ _ hfork =>
    exact .inl (by simp [frameStatus_congr (exofork_cpuData hfork)])
  | installOther | sendUndo | sendWake | returns | block => exact .inl (frameStatus_setV0 ..)
  | leave => exact .inl (frameStatus_setCurenv ..)
  | switchRun | switchSpin | stay | spinRun | run => exact .inl (by simp)
  | setStatus => exact .inl (frameStatus_congr (cpuData_statusSection ..) d)
  | free => exact .inl (frameStatus_congr (cpuData_freeSection ..) d)
  | _ => exact .inl rfl

/-- A step that takes an environment out of `ENV_FREE` forks it, blocks it as
the current environment of its CPU, or revives it. -/
theorem StepCase.live_source (h : StepCase s c s') (hlive : (s'.kern.envs e).envStatus ≠ .free) :
    (s.kern.envs e).envStatus ≠ .free ∨ s.kern.curenv c = some e ∨ e ∈ s.revived c ∨
      ∃ cur, s.kern.curenv c = some cur ∧ (s.pc c).inKernel = true ∧
        (s'.kern.envs e).envTf.cp0Status = s.kern.frameStatus c := by
  rcases h.status_cases hlive with hl | hcur | hrev | ⟨halloc, _⟩
  · exact .inl hl
  · exact .inr (.inl hcur)
  · exact .inr (.inr (.inl hrev))
  cases h with
  | forkFails hpc hcur hfork =>
    rcases exofork_error hfork with rfl | ⟨f, pgdir, _, rfl⟩
    · exact .inl hlive
    · refine .inl ?_
      by_cases hf : e = f
      · subst hf
        simpa [resetEnv] using hlive
      · simpa [envs_updEnv_ne _ _ hf] using hlive
  | @forks cur f vm k hpc hcur hfork =>
    obtain ⟨_, pgdir, _, _, _, rfl⟩ := exofork_ok f hfork
    by_cases hf : e = f
    · subst hf
      refine .inr (.inr (.inr ⟨cur, hcur, by rw [hpc]; rfl, ?_⟩))
      simp [forkEnv, setReg, frameStatus]
    · exact .inl (by simpa [update_of_ne hf] using hlive)
  | returns | goes | block => exact .inl hlive
  | _ => simp [allocated, *] at halloc

/-- The invariant of the frames in the kernel. Every context that can be
restored is one of user mode: those of the live environments and of the
environments that some CPU points to, and the frame of a CPU that serves a
trap. -/
structure FramesClean (s : Sys) : Prop where
  live : ∀ e, (s.kern.envs e).envStatus ≠ .free → (s.kern.envs e).envTf.UserMode
  cur : ∀ c e, s.kern.curenv c = some e → (s.kern.envs e).envTf.UserMode
  pointed : ∀ c e, (s.pc c).pointee = some e → (s.kern.envs e).envTf.UserMode
  popped : ∀ c e, (s.pc c).popping = some e → s.kern.curenv c = some e
  held : ∀ c, (s.pc c).inKernel = true → UserStatus (s.kern.frameStatus c) ∨
    (s.kern.curenv c = none ∧ (s.pc c).scheduling = true)
  given : ∀ c envid va tf, s.pc c = .sys (.setTrapframe envid va tf) → tf.UserMode
  idle : s.BootIdle

namespace FramesClean

section

variable (hinv : FramesClean s)
include hinv

theorem held_of_cur (hcur : s.kern.curenv c = some e) (hker : (s.pc c).inKernel = true) :
    UserStatus (s.kern.frameStatus c) := by
  rcases hinv.held c hker with hgood | ⟨hnone, _⟩
  · exact hgood
  · rw [hnone] at hcur
    cases hcur

theorem envid2env_mode {cur : EnvIdx} {envid : Word} {checkperm : Bool}
    (hcur : s.kern.curenv c = some cur) (hid : s.kern.envid2env cur envid checkperm = .ok e) :
    (s.kern.envs e).envTf.UserMode := by
  unfold envid2env at hid
  split at hid
  · obtain rfl := Except.ok.inj hid
    exact hinv.cur c cur hcur
  · dsimp only at hid
    split at hid
    · cases hid
    · next hlive =>
      split at hid
      · cases hid
      · obtain rfl := Except.ok.inj hid
        exact hinv.live _ (fun hfree => hlive (.inl hfree))

section

variable (h : StepCase s c s')
include h

theorem envTf_step (hmode : (s.kern.envs e).envTf.UserMode) : (s'.kern.envs e).envTf.UserMode := by
  cases h.context_source e with
  | same heq => rwa [heq]
  | own hcur hker heq =>
    unfold Trapframe.UserMode
    rw [heq]
    exact hinv.held_of_cur hcur hker
  | given hpc => exact hinv.given c _ _ _ hpc

theorem live_step (hlive : (s'.kern.envs e).envStatus ≠ .free) :
    (s'.kern.envs e).envTf.UserMode := by
  rcases h.live_source hlive with hl | hcur | hrev | ⟨_, hcur, hker, heq⟩
  · exact hinv.envTf_step h (hinv.live e hl)
  · exact hinv.envTf_step h (hinv.cur c e hcur)
  · refine hinv.envTf_step h (hinv.pointed c e ?_)
    unfold revived at hrev
    split at hrev
    case h_3 => cases hrev
    all_goals
      next hpc =>
      obtain rfl : _ = e := by simpa using hrev
      rw [hpc]
      rfl
  · unfold Trapframe.UserMode
    rw [heq]
    exact hinv.held_of_cur hcur hker

theorem cur_step (hcur : s'.kern.curenv c = some e) : (s'.kern.envs e).envTf.UserMode := by
  rcases h.curenv_cases with hsame | ⟨f, _, _, _, hnone, _⟩ | ⟨f, _, hst, hnew, _⟩
  · exact hinv.envTf_step h (hinv.cur c e (hsame ▸ hcur))
  · rw [hnone] at hcur
    cases hcur
  · cases hnew.symm.trans hcur
    exact hinv.envTf_step h (hinv.live e (by rw [hst]; decide))

theorem pointed_step (ht : (s'.pc c).pointee = some e) : (s'.kern.envs e).envTf.UserMode := by
  refine hinv.envTf_step h ?_
  cases h.pointee_cases ht with
  | kept hold => exact hinv.pointed c e hold
  | looked hpc hcur hid => exact hinv.envid2env_mode hcur hid
  | killed hpc hcur => exact hinv.cur c e hcur

end

end

end FramesClean

section

variable (h : StepCase s c s')
include h

theorem StepCase.popTf_cases (hpc : s.pc c = .popTf e) : s'.pc c = .user := by
  cases h with
  | goes p hgo =>
    rw [hpc] at hgo
    cases hgo
    simp
  | returns r hret =>
    rw [hpc] at hret
    cases hret
  | block hor => rcases hor with hor | ⟨ch, hor⟩ <;> cases hpc.symm.trans hor
  | _ => simp_all

theorem StepCase.boot_cases (hpc : s.pc c = .boot) :
    s'.pc c = .sched false ∧ s'.kern.curenv c = s.kern.curenv c := by
  cases h with
  | goes p hgo =>
    rw [hpc] at hgo
    cases hgo
    simp
  | returns r hret =>
    rw [hpc] at hret
    cases hret
  | block hor => rcases hor with hor | ⟨ch, hor⟩ <;> cases hpc.symm.trans hor
  | _ => simp_all

/-- A call is entered from user mode. -/
theorem StepCase.sys_source {call : Syscall} (hpc : s'.pc c = .sys call) : s.pc c = .user := by
  cases h with
  | tick _ hpc' | enter _ _ hpc' => exact hpc'
  | goes p hgo =>
    rw [goto_pc, update_self] at hpc
    subst hpc
    generalize s.pc c = q at hgo
    cases hgo
  | halt hrun =>
    rw [hrun] at hpc
    cases hpc
  | lockSched => simp [noteScheduleReady] at hpc
  | _ => simp at hpc

/-- A CPU without an environment leaves `schedule` only for `env_pop_tf`. -/
theorem StepCase.scheduling_cases (hs : (s.pc c).scheduling = true)
    (hcur : s.kern.curenv c = none) :
    ((s'.pc c).scheduling = true ∧ s'.kern.curenv c = none) ∨ ∃ e, s'.pc c = .popTf e := by
  cases h with
  | lockSched => exact .inl ⟨by simp [noteScheduleReady, Pc.scheduling], hcur⟩
  | switchRun | switchSpin | spinRun | spin =>
    exact .inl ⟨by simp [Pc.scheduling], by simpa using hcur⟩
  | stay _ _ hsome =>
    rw [hsome] at hcur
    cases hcur
  | @run f => exact .inr ⟨f, by simp⟩
  | halt => exact .inl ⟨hs, hcur⟩
  | goes p hgo =>
    generalize hq : s.pc c = q at hgo
    rw [hq] at hs
    cases hgo with
    | kill hsome =>
      rw [hsome] at hcur
      cases hcur
    | _ => cases hs
  | returns r hret =>
    generalize hq : s.pc c = q at hret
    rw [hq] at hs
    cases hret <;> cases hs
  | block hor => rcases hor with hor | ⟨ch, hor⟩ <;> simp [hor, Pc.scheduling] at hs
  | _ => simp_all [Pc.scheduling]

end

theorem boot_live {images : List Kern.Image} {k : Kern} (hboot : boot images = some k)
    (e : EnvIdx) (hlive : (k.envs e).envStatus ≠ .free) : (k.envs e).envTf.UserMode := by
  apply boot_induct (P := fun k => ∀ e, (k.envs e).envStatus ≠ .free →
    (k.envs e).envTf.UserMode) _ _ hboot e hlive
  · intro e hlive
    exact absurd rfl hlive
  · intro k image k' hinv hcreate e hlive
    obtain ⟨f, _, _, _, _, rfl⟩ := envCreate_some hcreate
    by_cases hf : e = f
    · subst hf
      have hword : UserStatus 0xC013 := by decide
      simpa [bootEnv, nameEnv, Trapframe.UserMode] using hword
    · simp only [update_of_ne hf] at hlive ⊢
      exact hinv e hlive

namespace FramesClean

section

variable (hinv : FramesClean s) (h : StepCase s c s') (huser : s.pc c ≠ .user)
include hinv h huser

theorem frameStatus_step (hgood : UserStatus (s.kern.frameStatus c)) :
    UserStatus (s'.kern.frameStatus c) := by
  rcases h.frameStatus_cases c with hsame | ⟨_, hpc | ⟨envid, va, tf, hpc, heq⟩⟩
  · rwa [hsame]
  · exact absurd hpc huser
  · rw [heq]
    exact hinv.given c envid va tf hpc

theorem held_step (hker : (s'.pc c).inKernel = true) :
    UserStatus (s'.kern.frameStatus c) ∨
      (s'.kern.curenv c = none ∧ (s'.pc c).scheduling = true) := by
  by_cases hold : (s.pc c).inKernel = true
  · rcases hinv.held c hold with hgood | ⟨hcur, hsched⟩
    · exact .inl (hinv.frameStatus_step h huser hgood)
    · rcases h.scheduling_cases hsched hcur with ⟨hsched', hcur'⟩ | ⟨_, hpop⟩
      · exact .inr ⟨hcur', hsched'⟩
      · rw [hpop] at hker
        cases hker
  · cases hpc : s.pc c with
    | user => exact absurd hpc huser
    | popTf =>
      rw [h.popTf_cases hpc] at hker
      cases hker
    | boot =>
      obtain ⟨hpc', hcur'⟩ := h.boot_cases hpc
      rw [hcur', hpc']
      exact .inr ⟨hinv.idle c hpc, rfl⟩
    | _ =>
      rw [hpc] at hold
      exact absurd rfl hold

/-- A step in the kernel keeps the frames clean. -/
theorem kern_step : FramesClean s' where
  live := fun e => hinv.live_step h
  cur := by
    intro d e hcur
    by_cases hd : d = c
    · subst hd
      exact hinv.cur_step h hcur
    · rw [(h.frame hd).2] at hcur
      exact hinv.envTf_step h (hinv.cur d e hcur)
  pointed := by
    intro d e ht
    by_cases hd : d = c
    · subst hd
      exact hinv.pointed_step h ht
    · rw [(h.frame hd).1] at ht
      exact hinv.envTf_step h (hinv.pointed d e ht)
  popped := by
    intro d e hpop
    by_cases hd : d = c
    · subst hd
      exact (h.popping_cases hpop).2.2.1
    · rw [(h.frame hd).1] at hpop
      rw [(h.frame hd).2]
      exact hinv.popped d e hpop
  held := by
    intro d hker
    by_cases hd : d = c
    · subst hd
      exact hinv.held_step h huser hker
    · rw [(h.frame hd).1] at hker
      rw [(h.frame hd).1, (h.frame hd).2]
      rcases h.frameStatus_cases d with hsame | ⟨hdc, _⟩
      · rw [hsame]
        exact hinv.held d hker
      · exact absurd hdc hd
  given := by
    intro d envid va tf hpc
    by_cases hd : d = c
    · subst hd
      exact absurd (h.sys_source hpc) huser
    · rw [(h.frame hd).1] at hpc
      exact hinv.given d envid va tf hpc
  idle := by
    intro d hpc
    by_cases hd : d = c
    · subst hd
      exact absurd hpc h.not_booting
    · rw [(h.frame hd).2]
      rw [(h.frame hd).1] at hpc
      exact hinv.idle d hpc

/-- The frame with which a call returns. -/
theorem returns_step (hpop : (s.pc c).popping = none) (hend : s'.pc c = .user) :
    UserStatus (s'.kern.frameStatus c) := by
  by_cases hold : (s.pc c).inKernel = true
  · rcases hinv.held c hold with hgood | ⟨hcur, hsched⟩
    · exact hinv.frameStatus_step h huser hgood
    · rcases h.scheduling_cases hsched hcur with ⟨hsched', _⟩ | ⟨_, hpop'⟩
      · rw [hend] at hsched'
        cases hsched'
      · rw [hend] at hpop'
        cases hpop'
  · cases hpc : s.pc c with
    | user => exact absurd hpc huser
    | popTf =>
      rw [hpc] at hpop
      cases hpop
    | boot =>
      rw [(h.boot_cases hpc).1] at hend
      cases hend
    | _ =>
      rw [hpc] at hold
      exact absurd rfl hold

end

/-- A trap from user mode keeps the frames clean if the frame it leaves on its
CPU is one of user mode. -/
theorem trap_step (hinv : FramesClean s) {p : Pc} {w : Word} (hw : UserStatus w)
    (hp : p.AfterTrap) (hpc : s'.pc = update s.pc c p)
    (htf : ∀ e, (s'.kern.envs e).envTf = (s.kern.envs e).envTf)
    (hst : ∀ e, (s'.kern.envs e).envStatus = (s.kern.envs e).envStatus)
    (hcur : s'.kern.curenv = s.kern.curenv)
    (hframe : ∀ d, s'.kern.frameStatus d = if d = c then w else s.kern.frameStatus d) :
    FramesClean s' where
  live := by
    intro e hlive
    rw [htf]
    exact hinv.live e (by rwa [hst] at hlive)
  cur := by
    intro d e hd
    rw [htf]
    exact hinv.cur d e (by rwa [hcur] at hd)
  pointed := by
    intro d e ht
    rw [htf]
    by_cases hd : d = c
    · rw [hpc, hd, update_self, hp.pointee] at ht
      cases ht
    · rw [hpc, update_of_ne hd] at ht
      exact hinv.pointed d e ht
  popped := by
    intro d e hpop
    rw [hcur]
    by_cases hd : d = c
    · rw [hpc, hd, update_self, hp.popping] at hpop
      cases hpop
    · rw [hpc, update_of_ne hd] at hpop
      exact hinv.popped d e hpop
  held := by
    intro d hker
    by_cases hd : d = c
    · left
      rwa [hframe, if_pos hd]
    · rw [hpc, update_of_ne hd] at hker ⊢
      rw [hframe, if_neg hd, hcur]
      exact hinv.held d hker
  given := by
    intro d envid va tf hd
    by_cases hdc : d = c
    · rw [hpc, hdc, update_self] at hd
      rw [hd] at hp
      exact hp
    · rw [hpc, update_of_ne hdc] at hd
      exact hinv.given d envid va tf hd
  idle := by
    intro d hd
    rw [hcur]
    by_cases hdc : d = c
    · rw [hpc, hdc, update_self] at hd
      rw [hd] at hp
      exact absurd hp id
    · rw [hpc, update_of_ne hdc] at hd
      exact hinv.idle d hd

theorem start {images : List Kern.Image} {k : Kern} (hboot : Kern.boot images = some k) :
    FramesClean (Sys.start k) := by
  have hidle := Kern.boot_curenv hboot
  have hpc : ∀ c, (Sys.start k).pc c = .sched false ∨ (Sys.start k).pc c = .boot := by
    intro c
    simp only [Sys.start]
    split <;> simp
  have hnone : ∀ c e, (Sys.start k).kern.curenv c ≠ some e := by
    intro c e
    show k.curenv c ≠ some e
    simp [hidle c]
  refine ⟨boot_live hboot, fun c e hcur => absurd hcur (hnone c e), fun c e ht => ?_,
    fun c e hpop => ?_, fun c hker => .inr ⟨hidle c, ?_⟩, fun c envid va tf hcall => ?_,
    fun c _ => hidle c⟩
  · rcases hpc c with h | h <;> rw [h] at ht <;> cases ht
  · rcases hpc c with h | h <;> rw [h] at hpop <;> cases hpop
  · rcases hpc c with h | h
    · rw [h]
      rfl
    · rw [h] at hker
      cases hker
  · rcases hpc c with h | h <;> rw [h] at hcall <;> cases hcall

end FramesClean

end Sys

namespace ModeSys

variable {m m' : ModeSys} {c : CpuId} {e : EnvIdx} {tf tf' : Trapframe}

theorem UserRestores.returnTo (h : m.UserRestores) (s : Sys) (htf : tf.UserMode) :
    (m.returnTo s c tf).UserRestores := by
  intro d tf' hd
  by_cases hdc : d = c
  · rw [hdc] at hd
    simp only [ModeSys.returnTo, update_self, some.injEq] at hd
    exact hd ▸ htf
  · simp only [ModeSys.returnTo, update_of_ne hdc] at hd
    exact h d tf' hd

/-- The status word that a trap saves is the one that was restored. -/
theorem UserRestores.userStatus (h : m.UserRestores) {w : Word} (hw : m.userStatus c = some w) :
    UserStatus w := by
  unfold ModeSys.userStatus at hw
  split at hw
  · next tf htf =>
    split at hw <;> cases hw
    exact h c tf htf
  · cases hw

theorem trapped_some (h : m.trapped c tf = some (e, tf')) :
    m.sys.pc c = .user ∧ m.sys.kern.curenv c = some e ∧
      ∃ w, m.userStatus c = some w ∧ tf' = tf.withStatus w := by
  unfold trapped at h
  split at h
  · cases h
  · split at h
    · next hpc hcur hw =>
      cases h
      exact ⟨hpc, hcur, _, hw, rfl⟩
    · cases h

/-- The invariant of the machine with the status register. -/
structure Inv (m : ModeSys) : Prop where
  frames : m.sys.FramesClean
  restores : m.UserRestores

namespace Inv

section

variable (hinv : m.Inv)
include hinv

theorem callReturns (htf : tf.UserMode) (change : Kern → Kern) (r : Word)
    (henvTf : ∀ k e, ((change k).envs e).envTf = (k.envs e).envTf)
    (hst : ∀ k e, ((change k).envs e).envStatus = (k.envs e).envStatus)
    (hdata : ∀ k, (change k).cpuData = k.cpuData) : (m.callReturns c e tf change r).Inv := by
  have hframe : ∀ d, (m.callReturns c e tf change r).sys.kern.frameStatus d =
      if d = c then tf.cp0Status else m.sys.kern.frameStatus d := by
    intro d
    unfold ModeSys.callReturns ModeSys.returnTo enter
    simp [frameStatus_congr (hdata _), frameStatus_saveAll]
  have hcurenv : (m.callReturns c e tf change r).sys.kern.curenv = m.sys.kern.curenv := by
    have hchange : ∀ k, (change k).curenv = k.curenv := by
      intro k
      funext d
      rw [curenv, curenv, hdata]
    simp [ModeSys.callReturns, ModeSys.returnTo, enter, hchange]
  refine ⟨hinv.frames.trap_step (p := .user) htf trivial ?_ ?_ ?_ hcurenv hframe,
    hinv.restores.returnTo _ ?_⟩
  · simp [ModeSys.callReturns, ModeSys.returnTo, enter]
  · intro f
    simp [ModeSys.callReturns, ModeSys.returnTo, enter, henvTf]
  · intro f
    simp [ModeSys.callReturns, ModeSys.returnTo, enter, hst]
  · have hown := hframe c
    rw [if_pos rfl] at hown
    exact (congrArg UserStatus hown).mpr htf

theorem setTlbModEntry (htf : tf.UserMode) (envid func : Word) :
    (m.setTlbModEntry c e tf envid func).Inv := by
  unfold ModeSys.setTlbModEntry
  split
  · exact hinv.callReturns htf id _ (fun _ _ => rfl) (fun _ _ => rfl) (fun _ => rfl)
  · next f _ =>
    refine hinv.callReturns htf _ 0 (fun k g => ?_) (fun k g => ?_) (fun _ => rfl)
    · rw [envs_updEnv]
      split
      · next hg => rw [hg]
      · rfl
    · rw [envs_updEnv]
      split
      · next hg => rw [hg]
      · rfl

/-- A frame that `do_tlb_mod` sends to the handler of a user program. -/
theorem tlbMod (huser : m.sys.pc c = .user) (htf : tf.UserMode) : (m.tlbMod c e tf none).Inv := by
  unfold ModeSys.tlbMod
  dsimp only
  split
  · exact ⟨⟨hinv.frames.live, hinv.frames.cur, hinv.frames.pointed, hinv.frames.popped,
      hinv.frames.held, hinv.frames.given, hinv.frames.idle⟩, hinv.restores⟩
  · next tf' htf' =>
    have hmode : tf'.UserMode := by
      unfold Trapframe.UserMode
      rw [doTlbMod_status htf']
      exact htf
    refine ⟨hinv.frames.trap_step (c := c) (p := .user) hmode trivial ?_ (fun _ => rfl)
      (fun _ => rfl) ?_ ?_, hinv.restores.returnTo _ hmode⟩
    · simp [ModeSys.returnTo, ← huser]
    · simp [ModeSys.returnTo]
    · intro d
      simp [ModeSys.returnTo, frameStatus_saveAll]

theorem frames_step {s : Sys} {act act' : Act} (hclean : CleanFrames ⟨c, .kern act⟩)
    (hact : m.saved c act = some act') (hstep : m.sys.step ⟨c, act'⟩ = some s) : s.FramesClean := by
  cases act with
  | run =>
    cases hact
    exact hinv.frames.kern_step (step_cases hstep).2 (step_run_not_user hstep)
  | tick =>
    obtain ⟨w, hw, rfl⟩ := map_eq_some_iff.mp hact
    obtain ⟨huser, e, hcur, rfl⟩ := step_tick hstep
    refine hinv.frames.trap_step (hinv.restores.userStatus hw) ?_ rfl (fun _ => rfl)
      (fun _ => rfl) (by simp [tick]) ?_
    · split <;> trivial
    · intro d
      simp [tick, frameStatus_saveAll, withStatus]
  | syscall tf call =>
    obtain ⟨w, hw, rfl⟩ := map_eq_some_iff.mp hact
    obtain ⟨huser, e, hcur, rfl⟩ := step_syscall hstep
    refine hinv.frames.trap_step (hinv.restores.userStatus hw) ?_ rfl (fun _ => rfl)
      (fun _ => rfl) (by simp [enter]) ?_
    · cases call with
      | setTrapframe envid va given => exact hclean.1 given rfl
      | _ => trivial
    · intro d
      simp [enter, frameStatus_saveAll, withStatus]

/-- The frame with which a step ends in user mode. -/
theorem frameFor_step {s : Sys} {act act' : Act} (hact : m.saved c act = some act')
    (hstep : m.sys.step ⟨c, act'⟩ = some s) (hend : s.pc c = .user) :
    (m.sys.frameFor s c).UserMode := by
  unfold frameFor
  split
  · next e hpop => exact hinv.frames.cur c e (hinv.frames.popped c e hpop)
  · next hpop =>
    show UserStatus (s.kern.frameStatus c)
    cases act with
    | run =>
      cases hact
      exact hinv.frames.returns_step (step_cases hstep).2 (step_run_not_user hstep) hpop hend
    | tick =>
      obtain ⟨w, hw, rfl⟩ := map_eq_some_iff.mp hact
      obtain ⟨huser, e, hcur, rfl⟩ := step_tick hstep
      simpa [tick, frameStatus_saveAll, withStatus]
        using hinv.restores.userStatus hw
    | syscall =>
      obtain ⟨w, hw, rfl⟩ := map_eq_some_iff.mp hact
      obtain ⟨huser, e, hcur, rfl⟩ := step_syscall hstep
      simp [enter] at hend

theorem kernStep {act : Act} (hclean : CleanFrames ⟨c, .kern act⟩)
    (hstep : m.kernStep c act = some m') : m'.Inv := by
  unfold ModeSys.kernStep at hstep
  split at hstep
  · cases hstep
  · next act' hact =>
    split at hstep
    · cases hstep
    · next s hs =>
      have hframes := hinv.frames_step hclean hact hs
      cases hstep
      split
      · next hend =>
        exact ⟨hframes, hinv.restores.returnTo s
          (hinv.frameFor_step hact hs (Pc.isUser_iff.mp hend))⟩
      · exact ⟨hframes, hinv.restores⟩

theorem step {l : ModeLabel} (hclean : CleanFrames l) (hstep : m.step l = some m') : m'.Inv := by
  obtain ⟨c, act⟩ := l
  have hmode : ∀ {tf tf' : Trapframe} {e : EnvIdx}, m.trapped c tf = some (e, tf') →
      tf'.UserMode := by
    intro tf tf' e htrap
    obtain ⟨_, _, _, hw, rfl⟩ := trapped_some htrap
    exact hinv.restores.userStatus hw
  cases act with
  | kern => exact hinv.kernStep hclean hstep
  | setTlbModEntry tf envid func =>
    obtain ⟨⟨e, tf'⟩, htrap, rfl⟩ := map_eq_some_iff.mp hstep
    exact hinv.setTlbModEntry (hmode htrap) envid func
  | tlbMod tf fault =>
    obtain ⟨⟨e, tf'⟩, htrap, rfl⟩ := map_eq_some_iff.mp hstep
    obtain rfl : fault = none := isNone_iff_eq_none.mp hclean.2
    exact hinv.tlbMod (trapped_some htrap).1 (hmode htrap)
  | readDev tf fault =>
    obtain ⟨⟨e, tf'⟩, htrap, rfl⟩ := map_eq_some_iff.mp hstep
    obtain rfl : fault = none := isNone_iff_eq_none.mp hclean.2
    exact hinv.callReturns (hmode htrap) id 0 (fun _ _ => rfl) (fun _ _ => rfl) (fun _ => rfl)

end

end Inv

end ModeSys

/-- In every run in which the frames given to `sys_set_trapframe` are frames of
user mode and the kernel's stores to user memory do not fault, every frame
restored for an environment has `STATUS_UM` and the interrupt bits of
`env_alloc`. -/
theorem userRestores_of_cleanFrames {m : ModeSys}
    (hrun : privilege.ReachableUnder (fun _ l => ModeSys.CleanFrames l) m) : m.UserRestores := by
  have hinv : m.Inv := by
    apply hrun.invariant
    · rintro m ⟨⟨_, _, hboot, hsys⟩, hnone⟩
      refine ⟨hsys ▸ Sys.FramesClean.start hboot, fun c tf hc => ?_⟩
      rw [hnone] at hc
      cases hc
    · intro m l m' _ hinv hok hstep
      exact hinv.step hok hstep
  exact hinv.restores

/-- A step of the kernel on CPU `c`. -/
def ModeLabel.go (c : CpuId) : ModeLabel := ⟨c, .kern (Label.go c).act⟩

theorem privilege_exists_of_run (ok : ModeSys → ModeLabel → Prop) [∀ m l, Decidable (ok m l)]
    (P : ModeSys → Prop) [DecidablePred P] (images : List Kern.Image) (labels : List ModeLabel)
    (hrun : ((boot images).bind (fun k => privilege.exec ok ⟨start k, fun _ => none⟩ labels)).any
        (fun m => decide (P m)) = true) :
    ∃ m, privilege.ReachableUnder ok m ∧ P m := by
  cases hboot : boot images with
  | none => simp [hboot] at hrun
  | some k =>
    rw [hboot] at hrun
    exact Machine.exists_reachableUnder_of_exec labels (.init ⟨⟨images, k, hboot, rfl⟩, rfl⟩) hrun

/-- One environment starts on CPU 0 and replaces its own frame by `tf`. -/
def replacesOwnFrame (tf : Trapframe) : List ModeLabel :=
  [.go 0, .go 0, .go 0, .go 0, ⟨0, .kern (.syscall .zero (.setTrapframe 0 0x400000 tf))⟩, .go 0]

/-- The environment continues at the address it asked for, in user mode. -/
theorem userRestores_ownFrame : ∃ m, privilege.ReachableUnder (fun _ l => ModeSys.CleanFrames l) m ∧
      (m.restored 0).any (fun tf => tf.cp0Epc = 0x500000) = true ∧ m.UserRestores := by
  obtain ⟨m, hm, hepc⟩ := privilege_exists_of_run (fun _ l => ModeSys.CleanFrames l)
    (fun m => (m.restored 0).any (fun tf => tf.cp0Epc = 0x500000) = true) [.plain]
    (replacesOwnFrame { zero with cp0Status := 0xC013, cp0Epc := 0x500000 })
    (by decide +kernel)
  exact ⟨m, hm, hepc, userRestores_of_cleanFrames hm⟩

/-- With a frame of zeros the environment continues in kernel mode. -/
theorem kernelRestore_reachable : ∃ m, privilege.Reachable m ∧ ¬ m.UserRestores := by
  obtain ⟨m, hm, hkern⟩ := privilege_exists_of_run (fun _ _ => True)
    (fun m => (m.restored 0).any (fun tf => tf.cp0Status &&& STATUS_UM = 0) = true) [.plain]
    (replacesOwnFrame .zero) (by decide +kernel)
  obtain ⟨tf, htf, hzero⟩ := (any_eq_true ..).mp hkern
  exact ⟨m, hm, fun h => (h 0 tf htf).1 (of_decide_eq_true hzero)⟩

/-- Clean frames alone are not enough: an environment that has registered a
handler reads a device into a page without `PTE_D`, and its handler is entered
in kernel mode. -/
theorem kernelHandler_reachable :
    ∃ m, privilege.ReachableUnder (fun _ l => ∀ tf ∈ l.act.given, tf.UserMode) m ∧
      ¬ m.UserRestores := by
  have : ∀ (_ : ModeSys) (l : ModeLabel), Decidable (∀ tf ∈ l.act.given, tf.UserMode) :=
    fun _ _ => decidableForallMem _
  obtain ⟨m, hm, hkern⟩ := privilege_exists_of_run (fun _ l => ∀ tf ∈ l.act.given, tf.UserMode)
    (fun m => (m.restored 0).any (fun tf => tf.cp0Status &&& STATUS_UM = 0) = true) [.plain]
    [.go 0, .go 0, .go 0, .go 0, ⟨0, .setTlbModEntry .zero 0 0x500000⟩,
      ⟨0, .readDev .zero (some .zero)⟩] (by decide +kernel)
  obtain ⟨tf, htf, hzero⟩ := (any_eq_true ..).mp hkern
  exact ⟨m, hm, fun h => (h 0 tf htf).1 (of_decide_eq_true hzero)⟩

end MosSmp
