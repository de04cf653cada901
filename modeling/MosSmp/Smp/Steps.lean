import MosSmp.Smp.Effects

/-!
The steps of the two-CPU kernel, one constructor per kind of step. `Goes`
lists the steps that only move the CPU to another position, `Returns` the
positions from which a call returns without a further effect, and `StepCase`
all steps. `step_cases` says that there are no others; every invariant of the
kernel is proved by cases on it.
-/

namespace MosSmp

open Lib Function

namespace Sys

variable (s : Sys) (c d : CpuId) (e : EnvIdx) (k : Kern) (p : Pc) (r : Word)

@[simp] theorem kern_ret : (s.ret c r).kern = s.kern.setV0 c r := rfl
@[simp] theorem pc_ret : (s.ret c r).pc = update s.pc c .user := rfl
@[simp] theorem halted_ret : (s.ret c r).halted = s.halted := rfl
@[simp] theorem hist_ret : (s.ret c r).hist = s.hist := rfl

@[simp] theorem pc_noteSave : (s.noteSave c).pc = s.pc := by
  unfold noteSave
  split <;> rfl

theorem envStamp_noteSave : (s.noteSave c).hist.envStamp e =
    if s.kern.curenv c = some e then s.hist.tfStamp c else s.hist.envStamp e := by
  unfold noteSave
  split
  · next old hcur =>
    simp only [hcur, update_apply, Option.some.injEq, eq_comm]
  · next hcur => simp [hcur]

@[simp] theorem tfStamp_noteSave : (s.noteSave c).hist.tfStamp = s.hist.tfStamp := by
  unfold noteSave
  split <;> rfl

@[simp] theorem latest_noteSave : (s.noteSave c).hist.latest = s.hist.latest := by
  unfold noteSave
  split <;> rfl

@[simp] theorem clock_noteSave : (s.noteSave c).hist.clock = s.hist.clock := by
  unfold noteSave
  split <;> rfl

@[simp] theorem frees_noteSave : (s.noteSave c).hist.frees = s.hist.frees := by
  unfold noteSave
  split <;> rfl

@[simp] theorem trapped_noteSave : (s.noteSave c).hist.trapped = s.hist.trapped := by
  unfold noteSave
  split <;> rfl

/-- Steps that change nothing but the position of the CPU. -/
inductive Goes (s : Sys) (c : CpuId) : Pc → Pc → Prop
  | boot : s.kern.timerScheduleReady = true → Goes s c .boot (.sched false)
  | yield : Goes s c (.sys .yield) (.sched true)
  | setStatus {cur e : EnvIdx} {envid w : Word} {st : EnvStatus} :
      s.kern.curenv c = some cur → statusOfWord w = some st →
      s.kern.envid2env cur envid true = .ok e →
      Goes s c (.sys (.setEnvStatus envid w)) (.statusLock e st)
  | recv {dstva : Word} : Goes s c (.sys (.ipcRecv dstva)) (.recvLock dstva)
  | send {cur e : EnvIdx} {envid value srcva perm : Word} :
      s.kern.curenv c = some cur → s.kern.envid2env cur envid false = .ok e →
      Goes s c (.sys (.ipcTrySend envid value srcva perm)) (.sendLock e value srcva perm)
  | destroy {cur e : EnvIdx} {envid : Word} :
      s.kern.curenv c = some cur → s.kern.envid2env cur envid true = .ok e →
      Goes s c (.sys (.envDestroy envid)) (.destroyLock e)
  | statusSelf {e : EnvIdx} : s.kern.curenv c = some e →
      Goes s c (.statusTail e) (.sched true)
  | mapped {e : EnvIdx} {value srcva perm p : Word} :
      Goes s c (.sendMap e value srcva perm) (.sendFill e value p)
  | mapFails {e : EnvIdx} {value srcva perm : Word} {err : Err} :
      Goes s c (.sendMap e value srcva perm) (.sendUndo e err)
  | kill {e : EnvIdx} {yield : Bool} : s.kern.curenv c = some e →
      (s.kern.envs e).envKillPending = true →
      Goes s c (.sched yield) (.freeMem e .killed)
  | pop {e : EnvIdx} : Goes s c (.popTf e) .user

/-- Positions from which a call returns without touching the environments. -/
inductive Returns (s : Sys) (c : CpuId) : Pc → Prop
  | call {call : Syscall} : Returns s c (.sys call)
  | statusOther {cur e : EnvIdx} : s.kern.curenv c = some cur → e ≠ cur →
      Returns s c (.statusTail e)
  | notRecving {e : EnvIdx} {value srcva perm : Word} :
      (s.kern.envs e).envIpcRecving = false → Returns s c (.sendLock e value srcva perm)
  | alreadyFree {e : EnvIdx} : (s.kern.envs e).envStatus = .free →
      Returns s c (.destroyLock e)
  | waited {e : EnvIdx} {envid : Word} :
      ¬ ((s.kern.envs e).envId = envid ∧ (s.kern.envs e).envKillDone = false) →
      Returns s c (.waitRemote e envid)
  | freedOther {e : EnvIdx} : s.kern.curenv c ≠ some e → Returns s c (.freed e .destroy)

/-- The steps of CPU `c` from `s`. -/
inductive StepCase (s : Sys) (c : CpuId) : Sys → Prop
  | tick {e : EnvIdx} (tf : Trapframe) : s.pc c = .user → s.kern.curenv c = some e →
      StepCase s c (s.tick c e tf)
  | enter {e : EnvIdx} (tf : Trapframe) (call : Syscall) : s.pc c = .user →
      s.kern.curenv c = some e → StepCase s c (s.enter c e tf call)
  | goes (p : Pc) : Goes s c (s.pc c) p → StepCase s c (s.goto c p)
  | returns (r : Word) : Returns s c (s.pc c) → StepCase s c (s.ret c r)
  | block : (s.pc c = .recvTail ∨ ∃ ch, s.pc c = .sys (.cgetc ch)) →
      StepCase s c ((s.setKern (s.kern.setV0 c 0)).goto c (.sched true))
  | forkFails {cur : EnvIdx} {vm : Option Word} {err : Err} {k : Kern} :
      s.pc c = .sys .exofork → s.kern.curenv c = some cur →
      s.kern.exofork c cur vm = (.error err, k) →
      StepCase s c ((s.setKern k).ret c err.code)
  | forks {cur e : EnvIdx} {vm : Option Word} {k : Kern} :
      s.pc c = .sys .exofork → s.kern.curenv c = some cur →
      s.kern.exofork c cur vm = (.ok e, k) →
      StepCase s c ((((s.setKern k).noteInstall e).noteAlloc e).ret c (k.envs e).envId)
  | installOwn {cur : EnvIdx} {envid va : Word} {tf : Trapframe} :
      s.pc c = .sys (.setTrapframe envid va tf) → s.kern.curenv c = some cur →
      StepCase s c (((s.setKern (s.kern.saveAll c tf)).noteOwnInstall c cur).ret c (tf.regs 2))
  | installOther {cur e : EnvIdx} {envid va : Word} {tf : Trapframe} :
      s.pc c = .sys (.setTrapframe envid va tf) → s.kern.curenv c = some cur →
      s.kern.envid2env cur envid true = .ok e → e ≠ cur →
      StepCase s c (((s.setKern
        (s.kern.updEnv e (fun x => { x with envTf := tf }))).noteInstall e).ret c 0)
  | recv {cur : EnvIdx} {dstva : Word} : s.pc c = .recvLock dstva →
      s.kern.curenv c = some cur →
      StepCase s c (((s.setKern (s.kern.recvSection cur dstva)).noteRecv cur).goto c .recvTail)
  | setStatus {cur e : EnvIdx} {st : EnvStatus} : s.pc c = .statusLock e st →
      s.kern.curenv c = some cur →
      StepCase s c ((s.setKern (s.kern.statusSection e st)).goto c (.statusTail e))
  | sendTake {cur e : EnvIdx} {value srcva perm : Word} :
      s.pc c = .sendLock e value srcva perm → s.kern.curenv c = some cur →
      (s.kern.envs e).envIpcRecving = true →
      StepCase s c ((s.setKern (s.kern.setRecving e false)).goto c (.sendMap e value srcva perm))
  | sendUndo {cur e : EnvIdx} {err : Err} : s.pc c = .sendUndo e err →
      s.kern.curenv c = some cur →
      StepCase s c ((s.setKern (s.kern.setRecving e true)).ret c err.code)
  | sendFill {cur e : EnvIdx} {value perm : Word} : s.pc c = .sendFill e value perm →
      s.kern.curenv c = some cur →
      StepCase s c ((s.setKern
        (s.kern.fillIpc e value (s.kern.envs cur).envId perm)).goto c (.sendWake e))
  | sendWake {cur e : EnvIdx} : s.pc c = .sendWake e → s.kern.curenv c = some cur →
      StepCase s c (((s.setKern (s.kern.wakeSection e)).noteSend e).ret c 0)
  | destroyRemote {cur e : EnvIdx} : s.pc c = .destroyLock e → s.kern.curenv c = some cur →
      (s.kern.envs e).envStatus ≠ .free → (s.kern.envs e).envRunning = true →
      (s.kern.envs e).envCpuId ≠ some c →
      StepCase s c ((s.setKern (s.kern.updEnv e
        (fun x => { x with envKillPending := true, envKillDone := false }))).goto c
        (.waitRemote e (s.kern.envs e).envId))
  | destroyLocal {cur e : EnvIdx} : s.pc c = .destroyLock e → s.kern.curenv c = some cur →
      (s.kern.envs e).envStatus ≠ .free →
      ((s.kern.envs e).envRunning = false ∨ (s.kern.envs e).envCpuId = some c) →
      StepCase s c ((s.setKern (s.kern.updEnv e
        (fun x => { x with envKillPending := true }))).goto c (.freeMem e .destroy))
  | freeMem {e : EnvIdx} {kind : FreeKind} : s.pc c = .freeMem e kind →
      StepCase s c ((s.setKern (s.kern.asidFree (s.kern.envs e).envAsid)).goto c
        (.freeLock e kind))
  | free {e : EnvIdx} {kind : FreeKind} : s.pc c = .freeLock e kind →
      StepCase s c (((s.setKern (s.kern.freeSection e)).noteFree e).goto c (.freed e kind))
  | leave {e : EnvIdx} {kind : FreeKind} : s.pc c = .freed e kind →
      (kind = .killed ∨ s.kern.curenv c = some e) →
      StepCase s c ((s.setKern (s.kern.setCurenv c none)).goto c (.sched true))
  | lockSched {yield : Bool} : s.pc c = .sched yield →
      (∀ e, s.kern.curenv c = some e → (s.kern.envs e).envKillPending = false) →
      StepCase s c (s.noteScheduleReady c yield)
  | switchRun {yield : Bool} {e : EnvIdx} : s.pc c = .schedLock yield →
      s.kern.switches c yield = true → (s.kern.release c).pick c = .found e →
      StepCase s c ((s.setKern ((s.kern.release c).assign c e)).goto c (.envRun e))
  | switchSpin {yield : Bool} : s.pc c = .schedLock yield →
      s.kern.switches c yield = true → (s.kern.release c).pick c = .exhausted →
      StepCase s c ((s.setKern (s.kern.release c)).goto c .schedSpin)
  | stay {yield : Bool} {e : EnvIdx} : s.pc c = .schedLock yield →
      s.kern.switches c yield = false → s.kern.curenv c = some e →
      StepCase s c ((s.setKern (s.kern.countDown c)).goto c (.envRun e))
  | spinRun {e : EnvIdx} : s.pc c = .schedSpin → s.kern.pick c = .found e →
      StepCase s c ((s.setKern (s.kern.assign c e)).goto c (.envRun e))
  | spin : s.pc c = .schedSpin → s.kern.pick c = .exhausted →
      StepCase s c ((s.setKern s.kern).goto c .schedSpin)
  | run {e : EnvIdx} : s.pc c = .envRun e → (s.kern.envs e).envStatus = .runnable →
      StepCase s c (((s.noteSave c).setKern (s.kern.switchTo c e)).goto c (.popTf e))
  | halt {e : EnvIdx} : s.pc c = .envRun e → (s.kern.envs e).envStatus ≠ .runnable →
      StepCase s c { s with halted := true }

variable {s c d e}

variable {cur : EnvIdx}

theorem exofork_cases {vm : Option Word} (hpc : s.pc c = .sys .exofork)
    (hcur : s.kern.curenv c = some cur) : StepCase s c (s.sysExofork c cur vm) := by
  unfold sysExofork
  split
  · next heq => exact .forkFails hpc hcur heq
  · next heq => exact .forks hpc hcur heq

theorem setTrapframe_cases {envid va : Word} {tf : Trapframe}
    (hpc : s.pc c = .sys (.setTrapframe envid va tf)) (hcur : s.kern.curenv c = some cur) :
    StepCase s c (s.sysSetTrapframe c cur envid va tf) := by
  have hret : Returns s c (s.pc c) := hpc ▸ .call
  unfold sysSetTrapframe
  split
  · exact .returns _ hret
  · split
    · exact .returns _ hret
    · next heq =>
      split
      · exact .installOwn hpc hcur
      · next hne => exact .installOther hpc hcur heq hne

variable {vm : Vm}

theorem sysStep_cases {call : Syscall} (hpc : s.pc c = .sys call)
    (hcur : s.kern.curenv c = some cur) : StepCase s c (s.sysStep c cur vm call) := by
  have hret : Returns s c (s.pc c) := hpc ▸ .call
  unfold sysStep
  cases call with
  | yield => exact .goes _ (hpc ▸ .yield)
  | exofork => exact exofork_cases hpc hcur
  | setEnvStatus =>
    dsimp only
    split
    · exact .returns _ hret
    · next hst =>
      split
      · exact .returns _ hret
      · next heq => exact .goes _ (hpc ▸ .setStatus hcur hst heq)
  | setTrapframe => exact setTrapframe_cases hpc hcur
  | ipcRecv =>
    dsimp only
    split
    · exact .returns _ hret
    · exact .goes _ (hpc ▸ .recv)
  | ipcTrySend =>
    dsimp only
    split
    · exact .returns _ hret
    · split
      · exact .returns _ hret
      · next heq => exact .goes _ (hpc ▸ .send hcur heq)
  | envDestroy =>
    dsimp only
    split
    · exact .returns _ hret
    · next heq => exact .goes _ (hpc ▸ .destroy hcur heq)
  | cgetc ch =>
    dsimp only
    split
    · exact .block (.inr ⟨ch, hpc⟩)
    · exact .returns _ hret
  | other => exact .returns _ hret

theorem sendMap_cases {e : EnvIdx} {value srcva perm : Word} (answer : Transfer)
    (hpc : s.pc c = .sendMap e value srcva perm) :
    StepCase s c (s.sendMap c e value srcva perm answer) := by
  unfold sendMap
  split
  · exact .goes _ (hpc ▸ .mapped)
  · cases answer with
    | notMapped | insertFails => exact .goes _ (hpc ▸ .mapFails)
    | mapped => exact .goes _ (hpc ▸ .mapped)

theorem destroyLock_cases {cur e : EnvIdx} (hpc : s.pc c = .destroyLock e)
    (hcur : s.kern.curenv c = some cur) : StepCase s c (s.destroyLock c e) := by
  unfold destroyLock Kern.destroySection
  by_cases hfree : (s.kern.envs e).envStatus = .free
  · rw [if_pos hfree]
    exact .returns _ (hpc ▸ .alreadyFree hfree)
  · rw [if_neg hfree]
    by_cases hrem : (s.kern.envs e).envRunning = true ∧ (s.kern.envs e).envCpuId ≠ some c
    · rw [if_pos hrem]
      exact .destroyRemote hpc hcur hfree hrem.1 hrem.2
    · rw [if_neg hrem]
      refine .destroyLocal hpc hcur hfree ?_
      by_cases hrun : (s.kern.envs e).envRunning = true
      · exact .inr (not_not.mp (fun h => hrem ⟨hrun, h⟩))
      · exact .inl (Bool.not_eq_true _ ▸ hrun)

variable {s' : Sys}

theorem runStep_cases (hcur : s.kern.curenv c = some cur)
    (h : s.runStep c cur vm (s.pc c) = some s') : StepCase s c s' := by
  unfold runStep at h
  split at h
  case h_1 call hpc =>
    cases h
    exact sysStep_cases hpc hcur
  case h_2 dstva hpc =>
    cases h
    exact .recv hpc hcur
  case h_3 hpc =>
    cases h
    exact .block (.inl hpc)
  case h_4 e st hpc =>
    cases h
    exact .setStatus hpc hcur
  case h_5 e hpc =>
    cases h
    split
    · next heq => exact .goes _ (hpc ▸ .statusSelf (heq ▸ hcur))
    · next hne => exact .returns _ (hpc ▸ .statusOther hcur hne)
  case h_6 e value srcva perm hpc =>
    cases h
    split
    · next hrecv => exact .sendTake hpc hcur hrecv
    · next hrecv => exact .returns _ (hpc ▸ .notRecving (Bool.not_eq_true _ ▸ hrecv))
  case h_7 e value srcva perm hpc =>
    cases h
    exact sendMap_cases _ hpc
  case h_8 e err hpc =>
    cases h
    exact .sendUndo hpc hcur
  case h_9 e value perm hpc =>
    cases h
    exact .sendFill hpc hcur
  case h_10 e hpc =>
    cases h
    exact .sendWake hpc hcur
  case h_11 e hpc =>
    cases h
    exact destroyLock_cases hpc hcur
  case h_12 e envid hpc =>
    split at h <;> cases h
    next hdone =>
    exact .returns _ (hpc ▸ .waited hdone)
  case h_13 => cases h

theorem sched_cases {yield : Bool} (hpc : s.pc c = .sched yield) :
    StepCase s c (s.sched c yield) := by
  unfold sched
  split
  · next e hcur =>
    split
    · next hkill => exact .goes _ (hpc ▸ .kill hcur hkill)
    · next hkill =>
      refine .lockSched hpc ?_
      intro f hf
      cases hcur.symm.trans hf
      exact Bool.not_eq_true _ ▸ hkill
  · next hcur =>
    refine .lockSched hpc ?_
    intro f hf
    cases hcur.symm.trans hf

theorem schedLock_cases {yield : Bool} (hpc : s.pc c = .schedLock yield)
    (h : s.schedDone c (s.kern.schedSection c yield) = some s') : StepCase s c s' := by
  unfold Kern.schedSection at h
  split at h
  · next hsw =>
    unfold Kern.pickNext at h
    split at h <;> cases h
    · next hpick =>
      exact .switchRun hpc hsw hpick
    · next hpick =>
      exact .switchSpin hpc hsw hpick
  · next hsw =>
    split at h <;> cases h
    next hcur =>
    exact .stay hpc (Bool.not_eq_true _ ▸ hsw) hcur

theorem spin_cases (hpc : s.pc c = .schedSpin) (h : s.schedDone c (s.kern.pickNext c) = some s') :
    StepCase s c s' := by
  unfold Kern.pickNext at h
  split at h <;> cases h
  · next hpick =>
    exact .spinRun hpc hpick
  · next hpick =>
    exact .spin hpc hpick

theorem cpuStep_cases (h : s.cpuStep c vm = some s') : StepCase s c s' := by
  unfold cpuStep at h
  split at h
  case h_1 hpc =>
    split at h <;> cases h
    next hready =>
    exact .goes _ (hpc ▸ .boot hready)
  case h_2 => cases h
  case h_3 hpc =>
    cases h
    exact .freeMem hpc
  case h_4 hpc =>
    cases h
    exact .free hpc
  case h_5 e kind hpc =>
    cases h
    unfold freed
    split
    · next hleave => exact .leave hpc hleave
    · next hstay =>
      rw [not_or] at hstay
      cases kind with
      | destroy => exact .returns _ (hpc ▸ .freedOther hstay.2)
      | killed => exact absurd rfl hstay.1
  case h_6 hpc =>
    cases h
    exact sched_cases hpc
  case h_7 hpc => exact schedLock_cases hpc h
  case h_8 hpc => exact spin_cases hpc h
  case h_9 hpc =>
    cases h
    unfold envRun
    split
    · next hst => exact .run hpc hst
    · next hst => exact .halt hpc hst
  case h_10 hpc =>
    cases h
    exact .goes _ (hpc ▸ .pop)
  case h_11 =>
    split at h
    · next hcur => exact runStep_cases hcur h
    · cases h

/-- Every step of the machine is one of the listed ones, and is taken while
the board is up. -/
theorem step_cases {l : Label} (h : s.step l = some s') :
    s.halted = false ∧ StepCase s l.cpu s' := by
  unfold step at h
  split at h
  · cases h
  · next hup =>
    refine ⟨Bool.not_eq_true _ ▸ hup, ?_⟩
    split at h
    · exact cpuStep_cases h
    · next tf _ =>
      split at h <;> cases h
      next hpc hcur =>
      exact .tick tf hpc hcur
    · next tf call _ =>
      split at h <;> cases h
      next hpc hcur =>
      exact .enter tf call hpc hcur

theorem Goes.not_boot {p q : Pc} (h : Goes s c p q) : q ≠ .boot := by
  cases h <;> simp

/-- The environment that `env_check_kill_pending` is releasing. -/
def killing : Pc → Option EnvIdx
  | .freeMem e .killed | .freeLock e .killed | .freed e .killed => some e
  | _ => none

theorem Goes.killing_cases {p q : Pc} (h : Goes s c p q) (hq : killing q = some e) :
    s.kern.curenv c = some e := by
  cases h with
  | kill hcur =>
    cases hq
    exact hcur
  | _ => cases hq

section

variable (h : StepCase s c s')
include h

/-- A step of one CPU leaves the position and the current environment of the
other alone. -/
theorem StepCase.frame (hne : d ≠ c) : s'.pc d = s.pc d ∧ s'.kern.curenv d = s.kern.curenv d := by
  cases h with
  | forkFails _ _ hfork | forks _ _ hfork => simp [hne, Kern.exofork_curenv hfork]
  | leave => simp [hne, Kern.curenv_setCurenv]
  | run => simp [hne, Kern.curenv_switchTo]
  | lockSched => exact ⟨by simp [noteScheduleReady, hne], rfl⟩
  | tick => simp [hne, Sys.tick]
  | enter => simp [hne, Sys.enter]
  | halt => exact ⟨rfl, rfl⟩
  | _ => simp [hne]

/-- The current environment of the stepping CPU changes only after a release
and in `env_run`. -/
theorem StepCase.curenv_cases : s'.kern.curenv c = s.kern.curenv c ∨
      (∃ e kind, s.pc c = .freed e kind ∧ (kind = .killed ∨ s.kern.curenv c = some e) ∧
        s'.kern.curenv c = none ∧ s'.pc c = .sched true ∧ s'.kern.envs = s.kern.envs) ∨
      ∃ e, s.pc c = .envRun e ∧ (s.kern.envs e).envStatus = .runnable ∧
        s'.kern.curenv c = some e ∧ s'.pc c = .popTf e ∧ s'.hist = (s.noteSave c).hist := by
  cases h with
  | forkFails _ _ hfork | forks _ _ hfork => exact .inl (by simp [Kern.exofork_curenv hfork])
  | @leave e kind hpc hleave =>
    exact .inr (.inl ⟨e, kind, hpc, hleave, by simp [Kern.curenv_setCurenv], by simp, rfl⟩)
  | @run e hpc hst =>
    exact .inr (.inr ⟨e, hpc, hst, by simp [Kern.curenv_switchTo], by simp, rfl⟩)
  | lockSched | halt => exact .inl rfl
  | tick => exact .inl (by simp [Sys.tick])
  | enter => exact .inl (by simp [Sys.enter])
  | _ => exact .inl (by simp)

theorem StepCase.envRun_cases (hpc : s.pc c = .envRun e) :
    ((s.kern.envs e).envStatus = .runnable ∧ s'.kern.curenv c = some e ∧ s'.pc c = .popTf e) ∨
      ((s.kern.envs e).envStatus ≠ .runnable ∧ s'.pc c = .envRun e ∧ s'.kern = s.kern) := by
  cases h with
  | run hpc' hst =>
    obtain rfl := Pc.envRun.inj (hpc.symm.trans hpc')
    exact .inl ⟨hst, by simp [Kern.curenv_switchTo], by simp⟩
  | halt hpc' hst =>
    obtain rfl := Pc.envRun.inj (hpc.symm.trans hpc')
    exact .inr ⟨hst, hpc, rfl⟩
  | goes p hgo =>
    rw [hpc] at hgo
    cases hgo
  | returns r hret =>
    rw [hpc] at hret
    cases hret
  | block hor => rcases hor with hor | ⟨ch, hor⟩ <;> cases hpc.symm.trans hor
  | _ => simp_all

theorem StepCase.not_booting : s'.pc c ≠ .boot := by
  intro hpc
  cases h with
  | goes p hgo =>
    simp only [goto_pc, update_self] at hpc
    exact absurd hpc hgo.not_boot
  | tick => simp [Sys.tick] at hpc; split at hpc <;> cases hpc
  | enter => simp [Sys.enter] at hpc
  | lockSched => simp [noteScheduleReady] at hpc
  | halt hrun => rw [hrun] at hpc; cases hpc
  | _ => simp at hpc

/-- A CPU that enters or continues the release of a killed environment has it
as its current environment. -/
theorem StepCase.killing_cases (hk : killing (s'.pc c) = some e) :
    s'.kern.curenv c = s.kern.curenv c ∧
      (killing (s.pc c) = some e ∨ s.kern.curenv c = some e) := by
  cases h with
  | goes p hgo => exact ⟨rfl, .inr (hgo.killing_cases (by simpa using hk))⟩
  | @freeMem f kind hpc | @free f kind hpc =>
    refine ⟨by simp, .inl ?_⟩
    cases kind <;> simp_all [killing]
  | halt hpc =>
    rw [hpc] at hk
    cases hk
  | tick =>
    simp only [Sys.tick, goto_pc, update_self] at hk
    split at hk <;> cases hk
  | enter => simp [Sys.enter, killing] at hk
  | lockSched => simp [noteScheduleReady, killing] at hk
  | _ => simp [killing] at hk

end

/-- `env_check_kill_pending` releases the current environment of its CPU. -/
def KillsOwn (s : Sys) : Prop :=
  ∀ c e, killing (s.pc c) = some e → s.kern.curenv c = some e

variable {ok : Sys → Label → Prop}

theorem killsOwn_of_reachable (hreach : smp.ReachableUnder ok s) : s.KillsOwn := by
  apply hreach.invariant
  · rintro s ⟨_, _, _, rfl⟩ c e hk
    simp only [Sys.start] at hk
    split at hk <;> cases hk
  · intro s l s' _ hinv _ hstep c e hk
    have h := (step_cases hstep).2
    by_cases hc : c = l.cpu
    · subst hc
      obtain ⟨hcur, hk | hk⟩ := h.killing_cases hk
      · rw [hcur]
        exact hinv _ e hk
      · rw [hcur]
        exact hk
    · rw [(h.frame hc).2]
      rw [(h.frame hc).1] at hk
      exact hinv c e hk

theorem KillsOwn.leaving (hkill : s.KillsOwn) {kind : FreeKind} (hpc : s.pc c = .freed e kind)
    (hleave : kind = .killed ∨ s.kern.curenv c = some e) : s.kern.curenv c = some e := by
  rcases hleave with rfl | hcur
  · exact hkill c e (by rw [hpc]; rfl)
  · exact hcur

/-- A booting CPU has no environment yet. -/
def BootIdle (s : Sys) : Prop :=
  ∀ c, s.pc c = .boot → s.kern.curenv c = none

theorem bootIdle_of_reachable (hreach : smp.ReachableUnder ok s) : s.BootIdle := by
  apply hreach.invariant
  · rintro s ⟨_, _, hboot, rfl⟩ c _
    exact Kern.boot_curenv hboot c
  · intro s l s' _ hinv _ hstep c hpc
    have h := (step_cases hstep).2
    by_cases hc : c = l.cpu
    · subst hc
      exact absurd hpc h.not_booting
    · rw [(h.frame hc).2]
      rw [(h.frame hc).1] at hpc
      exact hinv c hpc

end Sys

end MosSmp
