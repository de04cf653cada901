import MosSmp.Smp.Incarnation
import MosSmp.Smp.Atomic

/-!
The rendezvous of `sys_ipc_recv` and `sys_ipc_try_send` in runs with atomic
calls. The history counts, for the environment that a slot holds now, the
receives it has executed and the messages delivered to it. A receive is
completed by exactly one message when the counts are equal whenever the
environment executes, and when the receives are one ahead whenever a message
is delivered.

The flag `env_ipc_recving` belongs to the slot: neither `env_free` nor
`env_alloc` clears it, and `sys_set_env_status` does not look at it.
`IpcTrusted` is the condition that a slot with the flag set is neither
re-used nor made runnable; under it the rendezvous is exact. Without it, an
environment can be sent a message although it has never called
`sys_ipc_recv`, when its predecessor in the slot was destroyed while blocked.
-/

namespace MosSmp

open Lib Function Kern

namespace Pc

/-- The receiver that a sender on this CPU has claimed. -/
def delivering : Pc → Option EnvIdx
  | .sendMap e _ _ _ | .sendUndo e _ | .sendFill e _ _ | .sendWake e => some e
  | _ => none

/-- The receiver for which this CPU is about to end a delivery. -/
def settling : Pc → Option EnvIdx
  | .sendUndo e _ | .sendWake e => some e
  | _ => none

theorem delivering_of_resting {p : Pc} (h : p.resting = true) : p.delivering = none := by
  cases p <;> first | rfl | cases h

end Pc

namespace Sys

def recving (s : Sys) (e : EnvIdx) : Bool :=
  (s.kern.envs e).envIpcRecving

/-- The rendezvous is exact. -/
structure IpcExact (s : Sys) : Prop where
  /-- A send succeeds only for a live environment that has executed one more
  receive than it has got messages. -/
  sent : ∀ c e, e ∈ s.woken c →
    s.kern.status e ≠ .free ∧ s.hist.recvs e = s.hist.sends e + 1
  /-- The flag is set only for an environment that is blocked in a receive
  which no message has completed. -/
  blocked : ∀ e, s.kern.status e ≠ .free → s.recving e = true →
    s.kern.status e = .notRunnable ∧ (∀ c, ¬ s.Executing c e) ∧
      s.hist.recvs e = s.hist.sends e + 1
  /-- An executing environment has got one message for each receive. -/
  completed : ∀ c e, s.Executing c e → s.hist.recvs e = s.hist.sends e

/-- The environment that the next step of CPU `c` makes runnable, in
`sys_set_env_status`. -/
def madeRunnable (s : Sys) (c : CpuId) : Option EnvIdx :=
  match s.pc c with
  | .statusLock e .runnable => some e
  | _ => none

/-- A slot whose receive flag is set is neither allocated nor made
runnable by `sys_set_env_status`. -/
def IpcTrusted (s : Sys) (c : CpuId) : Prop :=
  (∀ e ∈ s.allocated c, s.recving e = false) ∧ ∀ e ∈ s.madeRunnable c, s.recving e = false

instance (s : Sys) (c : CpuId) : Decidable (s.IpcTrusted c) :=
  @instDecidableAnd _ _ (Option.decidableForallMem _) (Option.decidableForallMem _)

variable {s s' : Sys} {c d : CpuId} {e : EnvIdx}

/-- The flag and the two counts of `e` are the same in both states. -/
def SameIpc (s s' : Sys) (e : EnvIdx) : Prop :=
  s'.recving e = s.recving e ∧ s'.hist.recvs e = s.hist.recvs e ∧
    s'.hist.sends e = s.hist.sends e

/-- What a step of CPU `c` does to the flag and the counts of `e`. -/
inductive IpcEffect (s : Sys) (c : CpuId) (s' : Sys) (e : EnvIdx) : Prop
  | same : (s.pc c).settling ≠ some e → SameIpc s s' e → IpcEffect s c s' e
  | recv (dstva : Word) : s.pc c = .recvLock dstva → s.kern.curenv c = some e →
      s'.pc c = .recvTail → s'.kern.status e = .notRunnable → s'.recving e = true →
      s'.hist.recvs e = s.hist.recvs e + 1 → s'.hist.sends e = s.hist.sends e →
      IpcEffect s c s' e
  | take (value srcva perm : Word) : s.pc c = .sendLock e value srcva perm →
      s.recving e = true → s'.pc c = .sendMap e value srcva perm →
      s'.recving e = false → s'.hist.recvs e = s.hist.recvs e →
      s'.hist.sends e = s.hist.sends e → IpcEffect s c s' e
  | undo (err : Err) : s.pc c = .sendUndo e err → s'.recving e = true →
      s'.hist.recvs e = s.hist.recvs e → s'.hist.sends e = s.hist.sends e →
      IpcEffect s c s' e
  | wake : s.pc c = .sendWake e → s'.pc c = .user → s'.recving e = s.recving e →
      s'.hist.recvs e = s.hist.recvs e → s'.hist.sends e = s.hist.sends e + 1 →
      IpcEffect s c s' e
  | fork : e ∈ s.allocated c → s'.recving e = s.recving e → s'.hist.recvs e = 0 →
      s'.hist.sends e = 0 → IpcEffect s c s' e

theorem recving_of_envs (h : s'.kern.envs e = s.kern.envs e) : s'.recving e = s.recving e := by
  unfold recving
  rw [h]

theorem recving_of_update {f : EnvIdx} {x : Env} (h : s'.kern.envs = update s.kern.envs f x)
    (hx : x.envIpcRecving = (s.kern.envs f).envIpcRecving) : s'.recving e = s.recving e := by
  unfold recving
  rw [h, update_apply]
  split
  · next hf => rw [hx, hf]
  · rfl

theorem recving_release (k : Kern) (c : CpuId) (e : EnvIdx) :
    ((k.release c).envs e).envIpcRecving = (k.envs e).envIpcRecving := by
  by_cases hcur : k.curenv c = some e
  · rw [envs_release k c e hcur, update_self]
  · rw [envs_release_ne k c e hcur]

theorem hist_noteSave_ipc (s : Sys) (c : CpuId) :
    (s.noteSave c).hist.recvs = s.hist.recvs ∧ (s.noteSave c).hist.sends = s.hist.sends := by
  unfold noteSave
  split <;> exact ⟨rfl, rfl⟩

theorem IpcEffect.of_forks {cur f : EnvIdx} {vm : Option Word} {k : Kern}
    (hpc : s.pc c = .sys .exofork) (h : s.kern.exofork c cur vm = (.ok f, k)) :
    IpcEffect s c ((((s.setKern k).noteInstall f).noteAlloc f).ret c (k.envs f).envId) e := by
  obtain ⟨hfirst, _, _, _, _, rfl⟩ := exofork_ok f h
  by_cases hf : e = f
  · subst hf
    exact .fork (by simp [allocated, hpc, hfirst]) (recving_of_update rfl rfl)
      (by simp [noteInstall, noteAlloc]) (by simp [noteInstall, noteAlloc])
  · exact .same (by simp [hpc, Pc.settling]) ⟨recving_of_update rfl rfl,
      by simp [noteInstall, noteAlloc, hf], by simp [noteInstall, noteAlloc, hf]⟩

theorem IpcEffect.of_forkFails {cur : EnvIdx} {vm : Option Word} {err : Err} {k : Kern} {r : Word}
    (hpc : s.pc c = .sys .exofork) (h : s.kern.exofork c cur vm = (.error err, k)) :
    IpcEffect s c ((s.setKern k).ret c r) e := by
  rcases exofork_error h with rfl | ⟨_, _, _, rfl⟩
  · exact .same (by simp [hpc, Pc.settling]) ⟨recving_of_envs rfl, rfl, rfl⟩
  · exact .same (by simp [hpc, Pc.settling]) ⟨recving_of_update rfl rfl, rfl, rfl⟩

section

variable (h : StepCase s c s')
include h

theorem StepCase.ipc_effect (e : EnvIdx) : IpcEffect s c s' e := by
  cases h with
  | goes p hgo =>
    refine .same (fun hset => ?_) ⟨rfl, rfl, rfl⟩
    cases hpc : s.pc c <;> rw [hpc] at hgo hset <;> cases hgo <;> cases hset
  | returns r hret =>
    refine .same (fun hset => ?_) ⟨rfl, rfl, rfl⟩
    cases hpc : s.pc c <;> rw [hpc] at hret hset <;> cases hret <;> cases hset
  | block hor =>
    refine .same (fun hset => ?_) ⟨rfl, rfl, rfl⟩
    rcases hor with hpc | ⟨ch, hpc⟩ <;> rw [hpc] at hset <;> cases hset
  | forkFails hpc _ hfork => exact .of_forkFails hpc hfork
  | forks hpc _ hfork => exact .of_forks hpc hfork
  | installOther hpc | destroyRemote hpc | destroyLocal hpc =>
    exact .same (by simp [hpc, Pc.settling]) ⟨recving_of_update rfl rfl, rfl, rfl⟩
  | @recv cur dstva hpc hcur =>
    by_cases he : e = cur
    · subst he
      exact .recv dstva hpc hcur (by simp) (by simp [status, envs_recvSection])
        (by simp [recving, envs_recvSection]) (by simp [noteRecv]) rfl
    · exact .same (by simp [hpc, Pc.settling]) ⟨by simp [recving, envs_recvSection, he],
        by simp [noteRecv, he], rfl⟩
  | setStatus hpc =>
    exact .same (by simp [hpc, Pc.settling])
      ⟨recving_of_update (envs_statusSection ..) rfl, rfl, rfl⟩
  | @sendTake cur f value srcva perm hpc _ hrecv =>
    by_cases he : e = f
    · subst he
      exact .take value srcva perm hpc hrecv (by simp) (by simp [recving, envs_setRecving]) rfl rfl
    · exact .same (by simp [hpc, Pc.settling])
        ⟨by simp [recving, envs_setRecving, he], rfl, rfl⟩
  | @sendUndo cur f err hpc =>
    by_cases he : e = f
    · subst he
      exact .undo err hpc (by simp [recving, envs_setRecving]) rfl rfl
    · refine .same ?_ ⟨by simp [recving, envs_setRecving, he], rfl, rfl⟩
      simpa [hpc, Pc.settling] using fun h : f = e => he h.symm
  | sendFill hpc => exact .same (by simp [hpc, Pc.settling]) ⟨recving_of_update rfl rfl, rfl, rfl⟩
  | @sendWake cur f hpc =>
    by_cases he : e = f
    · subst he
      exact .wake hpc (by simp) (recving_of_update rfl rfl) rfl (by simp [noteSend])
    · refine .same ?_ ⟨recving_of_update rfl rfl, rfl, by simp [noteSend, he]⟩
      simpa [hpc, Pc.settling] using fun h : f = e => he h.symm
  | free hpc =>
    exact .same (by simp [hpc, Pc.settling]) ⟨recving_of_update (envs_freeSection ..) rfl, rfl, rfl⟩
  | @switchRun yield f hpc =>
    refine .same (by simp [hpc, Pc.settling]) ⟨Eq.trans ?_ (recving_release s.kern c e), rfl, rfl⟩
    exact recving_of_update (s := s.setKern (s.kern.release c)) (envs_assign ..) rfl
  | switchSpin hpc =>
    exact .same (by simp [hpc, Pc.settling]) ⟨recving_release s.kern c e, rfl, rfl⟩
  | spinRun hpc =>
    exact .same (by simp [hpc, Pc.settling]) ⟨recving_of_update (envs_assign ..) rfl, rfl, rfl⟩
  | run hpc =>
    obtain ⟨hrecvs, hsends⟩ := hist_noteSave_ipc s c
    refine .same (by simp [hpc, Pc.settling]) ⟨?_, congrFun hrecvs e, congrFun hsends e⟩
    simp [recving, envs_switchTo]
  | _ => exact .same (by simp_all [Pc.settling]) ⟨recving_of_envs rfl, rfl, rfl⟩

/-- An environment becomes runnable in one of two places. -/
theorem StepCase.runnable_source (hrun : s'.kern.status e = .runnable) :
    s.kern.status e = .runnable ∨ e ∈ s.madeRunnable c ∨ s.pc c = .sendWake e := by
  cases h.queue_effect with
  | same hst | rotate f _ hst => exact .inl (hst ▸ hrun)
  | block f dstva hpc hcur hst | free f kind hpc hst | fork f hpc hfirst hst =>
    rw [hst, update_apply] at hrun
    split at hrun
    · cases hrun
    · exact .inl hrun
  | status f st hpc hst =>
    rw [hst, update_apply] at hrun
    split at hrun
    · next hf =>
      subst hf hrun
      exact .inr (.inl (by simp [madeRunnable, hpc]))
    · exact .inl hrun
  | wake f hpc hst =>
    rw [hst, update_apply] at hrun
    split at hrun
    · next hf =>
      subst hf
      exact .inr (.inr hpc)
    · exact .inl hrun

/-- A delivery goes on, with nothing changed but the message of the
receiver, or has just claimed a receiver that waits. -/
theorem StepCase.delivering_source (hdel : (s'.pc c).delivering = some e) :
    s'.kern.status = s.kern.status ∧ s'.hist.recvs = s.hist.recvs ∧ s'.hist.sends = s.hist.sends ∧
      ((s.pc c).delivering = some e ∧ s'.recving e = s.recving e ∨
        s.recving e = true ∧ s'.recving e = false) := by
  cases h with
  | goes p hgo =>
    refine ⟨rfl, rfl, rfl, .inl ⟨?_, rfl⟩⟩
    cases hpc : s.pc c <;> rw [hpc] at hgo <;> cases hgo <;> simp_all [Pc.delivering]
  | @sendTake cur f value srcva perm hpc _ hrecv =>
    obtain rfl : f = e := by simpa [Pc.delivering] using hdel
    refine ⟨status_of_envs_same rfl rfl, rfl, rfl, .inr ⟨hrecv, ?_⟩⟩
    simp [recving, envs_setRecving]
  | @sendFill cur f value perm hpc =>
    obtain rfl : f = e := by simpa [Pc.delivering] using hdel
    refine ⟨status_of_envs_same rfl rfl, rfl, rfl, .inl ⟨by rw [hpc]; rfl, ?_⟩⟩
    exact recving_of_update rfl rfl
  | tick =>
    simp only [Sys.tick, goto_pc, update_self] at hdel
    split at hdel <;> cases hdel
  | enter => simp [Sys.enter, Pc.delivering] at hdel
  | lockSched => simp [noteScheduleReady, Pc.delivering] at hdel
  | halt hpc => simp [hpc, Pc.delivering] at hdel
  | _ => simp [Pc.delivering] at hdel

/-- A delivery goes on until it is undone or wakes the receiver. -/
theorem StepCase.delivering_target (hdel : (s.pc c).delivering = some e) :
    (s'.pc c).delivering = some e ∨ (s.pc c).settling = some e := by
  cases h with
  | goes p hgo =>
    cases hpc : s.pc c <;> rw [hpc] at hgo <;> cases hgo <;> simp_all [Pc.delivering, Pc.settling]
  | returns r hret =>
    cases hpc : s.pc c <;> rw [hpc] at hret <;> cases hret <;> simp_all [Pc.delivering]
  | block hor => rcases hor with hor | ⟨ch, hor⟩ <;> simp [hor, Pc.delivering] at hdel
  | _ => simp_all [Pc.delivering, Pc.settling]

end

/-- The invariant behind `IpcExact`. A slot with the flag set waits for one
message; a slot without it has got them all, unless a sender has claimed it;
and an environment that a CPU works for neither waits nor is claimed. -/
structure IpcInv (s : Sys) : Prop where
  waiting : ∀ e, s.recving e = true →
    s.kern.status e ≠ .runnable ∧ s.hist.recvs e = s.hist.sends e + 1
  settled : ∀ e, s.recving e = false → (∀ c, (s.pc c).delivering ≠ some e) →
    s.hist.recvs e = s.hist.sends e
  claimed : ∀ c e, (s.pc c).delivering = some e →
    s.recving e = false ∧ s.kern.status e ≠ .runnable ∧ s.hist.recvs e = s.hist.sends e + 1
  active : ∀ c e, s.kern.curenv c = some e → (s.pc c).active e = true →
    s.recving e = false ∧ ∀ d, (s.pc d).delivering ≠ some e

theorem active_of_executing (h : s.Executing c e) : (s.pc c).active e = true := by
  obtain ⟨_, _⟩ := h
  cases hpc : s.pc c <;> simp_all [Pc.executing, Pc.active]

theorem IpcInv.ipcExact (hinv : IpcInv s) (hatom : AtomicInv s) : s.IpcExact where
  sent := by
    intro c e hwoken
    have hsound := hatom.sound c
    unfold woken at hwoken
    unfold PcSound at hsound
    split at hwoken
    · next f hpc =>
      obtain rfl : f = e := by simpa using hwoken
      rw [hpc] at hsound
      exact ⟨hsound, (hinv.claimed c f (by rw [hpc]; rfl)).2.2⟩
    · cases hwoken
  blocked := by
    intro e hlive hrecv
    obtain ⟨hrun, hcount⟩ := hinv.waiting e hrecv
    refine ⟨?_, fun c hexec => ?_, hcount⟩
    · cases hst : s.kern.status e with
      | free => exact absurd hst hlive
      | runnable => exact absurd hst hrun
      | notRunnable => rfl
    · rw [(hinv.active c e hexec.2 (active_of_executing hexec)).1] at hrecv
      cases hrecv
  completed := by
    intro c e hexec
    obtain ⟨hrecv, hnone⟩ := hinv.active c e hexec.2 (active_of_executing hexec)
    exact hinv.settled e hrecv hnone

/-- Only the stepping CPU is in the middle of a delivery. -/
theorem Atomic.delivering_self (hatom : s.Atomic c) (h : (s.pc d).delivering = some e) : d = c := by
  by_contra hne
  rw [Pc.delivering_of_resting (hatom d hne)] at h
  cases h

section

variable (hinv : IpcInv s)
include hinv

theorem IpcInv.not_runnable_step (hok : s.IpcTrusted c) (h : StepCase s c s')
    (hst : s.kern.status e ≠ .runnable) (hrecv : s.recving e = true) :
    s'.kern.status e ≠ .runnable := by
  intro hrun
  rcases h.runnable_source hrun with hold | hmade | hwake
  · exact hst hold
  · rw [hok.2 e hmade] at hrecv
    cases hrecv
  · rw [(hinv.claimed c e (by rw [hwake]; rfl)).1] at hrecv
    cases hrecv

theorem IpcInv.waiting_step (hok : s.IpcTrusted c) (h : StepCase s c s')
    (hrecv : s'.recving e = true) :
    s'.kern.status e ≠ .runnable ∧ s'.hist.recvs e = s'.hist.sends e + 1 := by
  cases h.ipc_effect e with
  | same _ hsame =>
    obtain ⟨hflag, _, _⟩ := hsame
    rw [hflag] at hrecv
    obtain ⟨hst, hcount⟩ := hinv.waiting e hrecv
    exact ⟨hinv.not_runnable_step hok h hst hrecv, by omega⟩
  | recv dstva hpc hcur _ hst =>
    obtain ⟨hflag, hnone⟩ := hinv.active c e hcur (by rw [hpc]; rfl)
    have hcount := hinv.settled e hflag hnone
    exact ⟨by simp [hst], by omega⟩
  | take value srcva perm _ _ _ hflag =>
    rw [hflag] at hrecv
    cases hrecv
  | undo err hpc _ =>
    obtain ⟨_, hst, hcount⟩ := hinv.claimed c e (by rw [hpc]; rfl)
    refine ⟨fun hrun => ?_, by omega⟩
    rcases h.runnable_source hrun with hold | hmade | hwake
    · exact hst hold
    · simp [madeRunnable, hpc] at hmade
    · cases hpc.symm.trans hwake
  | wake hpc _ hflag =>
    rw [hflag, (hinv.claimed c e (by rw [hpc]; rfl)).1] at hrecv
    cases hrecv
  | fork halloc hflag =>
    rw [hflag, hok.1 e halloc] at hrecv
    cases hrecv

theorem IpcInv.settled_step (hatom : s.Atomic c) (h : StepCase s c s')
    (hrecv : s'.recving e = false) (hnone : (s'.pc c).delivering ≠ some e) :
    s'.hist.recvs e = s'.hist.sends e := by
  cases h.ipc_effect e with
  | same hopen hsame =>
    obtain ⟨hflag, hrecvs, hsends⟩ := hsame
    rw [hrecvs, hsends]
    rw [hflag] at hrecv
    apply hinv.settled e hrecv
    intro d hdel
    obtain rfl := hatom.delivering_self hdel
    rcases h.delivering_target hdel with hdel' | hset
    · exact hnone hdel'
    · exact hopen hset
  | recv dstva hpc hcur _ hst hflag | undo err hpc hflag =>
    rw [hflag] at hrecv
    cases hrecv
  | take value srcva perm hpc _ hpc' =>
    rw [hpc'] at hnone
    exact absurd rfl hnone
  | wake hpc =>
    have hcount := (hinv.claimed c e (by rw [hpc]; rfl)).2.2
    omega
  | fork halloc _ hrecvs hsends => rw [hrecvs, hsends]

theorem IpcInv.claimed_own (h : StepCase s c s') (hdel : (s'.pc c).delivering = some e) :
    s'.recving e = false ∧ s'.kern.status e ≠ .runnable ∧
      s'.hist.recvs e = s'.hist.sends e + 1 := by
  obtain ⟨hst, hrecvs, hsends, hor⟩ := h.delivering_source hdel
  rw [hst, hrecvs, hsends]
  rcases hor with ⟨hdel, hflag⟩ | ⟨hrecv, hflag⟩
  · rw [hflag]
    exact hinv.claimed c e hdel
  · exact ⟨hflag, hinv.waiting e hrecv⟩

end

/-- No sender claims an environment that some CPU works for. -/
theorem StepCase.unclaimed_step (h : StepCase s c s') (hatom : s.Atomic c)
    (hrecv : s.recving e = false) (hnone : (s.pc c).delivering ≠ some e) (d : CpuId) :
    (s'.pc d).delivering ≠ some e := by
  intro hdel
  by_cases hd : d = c
  · subst hd
    obtain ⟨_, _, _, ⟨hdel, _⟩ | ⟨hwait, _⟩⟩ := h.delivering_source hdel
    · exact hnone hdel
    · rw [hrecv] at hwait
      cases hwait
  · rw [(h.frame hd).1] at hdel
    exact hd (hatom.delivering_self hdel)

/-- A step keeps the flag of an environment clear, unless that environment
itself calls `sys_ipc_recv`. -/
theorem StepCase.clear_step (h : StepCase s c s') (hrecv : s.recving e = false)
    (hnone : (s.pc c).delivering ≠ some e)
    (hcall : ∀ dstva, s.pc c = .recvLock dstva → s.kern.curenv c = some e → s'.pc c ≠ .recvTail) :
    s'.recving e = false := by
  cases h.ipc_effect e with
  | same _ hsame => rw [hsame.1, hrecv]
  | recv dstva hpc hcur hpc' => exact absurd hpc' (hcall dstva hpc hcur)
  | take value srcva perm _ _ _ hflag => exact hflag
  | undo err hpc | wake hpc => exact absurd (by rw [hpc]; rfl) hnone
  | fork _ hflag => rw [hflag, hrecv]

theorem IpcInv.active_own (hinv : IpcInv s) (hboot : s.BootIdle) (hatom : s.Atomic c)
    (h : StepCase s c s') (hcur : s'.kern.curenv c = some e)
    (hact : (s'.pc c).active e = true) :
    s'.recving e = false ∧ ∀ d, (s'.pc d).delivering ≠ some e := by
  rcases h.active_cases hcur hact with ⟨hcur, hact', _⟩ | ⟨hpc, _⟩ | ⟨hpc, hcur⟩
  · obtain ⟨hrecv, hnone⟩ := hinv.active c e hcur hact'
    refine ⟨h.clear_step hrecv (hnone c) ?_, h.unclaimed_step hatom hrecv (hnone c)⟩
    intro dstva _ _ hpc'
    simp [hpc', Pc.active] at hact
  · rcases h.envRun_cases hpc with ⟨hrun, _⟩ | ⟨_, hpc', _⟩
    · have hrecv : s.recving e = false := by
        cases hflag : s.recving e with
        | false => rfl
        | true => exact absurd hrun (hinv.waiting e hflag).1
      have hnone : (s.pc c).delivering ≠ some e := by simp [hpc, Pc.delivering]
      refine ⟨h.clear_step hrecv hnone ?_, h.unclaimed_step hatom hrecv hnone⟩
      intro dstva hlock
      cases hpc.symm.trans hlock
    · simp [hpc', Pc.active] at hact
  · rw [hboot c hpc] at hcur
    cases hcur

theorem IpcInv.active_other (hinv : IpcInv s) (hmarks : MarkInv s) (hatom : s.Atomic c)
    (h : StepCase s c s') (hne : d ≠ c) (hcur : s.kern.curenv d = some e)
    (hact : (s.pc d).active e = true) :
    s'.recving e = false ∧ ∀ d, (s'.pc d).delivering ≠ some e := by
  obtain ⟨hrecv, hnone⟩ := hinv.active d e hcur hact
  refine ⟨h.clear_step hrecv (hnone c) ?_, h.unclaimed_step hatom hrecv (hnone c)⟩
  intro dstva hpc hcur'
  have hmark := hmarks.active d e hcur hact
  exact absurd hmark (hmarks.not_runsOn_other hcur' (by rw [hpc]; rfl) hne)

theorem IpcInv.step (hinv : IpcInv s) (hmarks : MarkInv s) (hboot : s.BootIdle)
    (hatom : s.Atomic c) (hok : s.IpcTrusted c) (h : StepCase s c s') : IpcInv s' where
  waiting := fun e hrecv => hinv.waiting_step hok h hrecv
  settled := fun e hrecv hnone => hinv.settled_step hatom h hrecv (hnone c)
  claimed := by
    intro d e hdel
    by_cases hd : d = c
    · subst hd
      exact hinv.claimed_own h hdel
    · rw [(h.frame hd).1] at hdel
      exact absurd (hatom.delivering_self hdel) hd
  active := by
    intro d e hcur hact
    by_cases hd : d = c
    · subst hd
      exact hinv.active_own hboot hatom h hcur hact
    · rw [(h.frame hd).2] at hcur
      rw [(h.frame hd).1] at hact
      exact hinv.active_other hmarks hatom h hd hcur hact

theorem IpcInv.start {images : List Kern.Image} {k : Kern} (hboot : boot images = some k) :
    IpcInv (Sys.start k) := by
  have hclear : ∀ e, (Sys.start k).recving e = false := fun e => (boot_fresh hboot e).2.2
  have hnone : ∀ c e, ((Sys.start k).pc c).delivering ≠ some e := by
    intro c e hdel
    simp only [Sys.start] at hdel
    split at hdel <;> cases hdel
  refine ⟨fun e hrecv => ?_, fun e _ _ => rfl, fun c e hdel => ?_, fun c e _ _ => ?_⟩
  · rw [hclear e] at hrecv
    cases hrecv
  · exact absurd hdel (hnone c e)
  · exact ⟨hclear e, fun d => hnone d e⟩

end Sys

/-- In every run with atomic calls in which a slot with the receive flag set is
neither re-used nor made runnable by its parent, every receive is completed
by exactly one message. -/
theorem ipcExact_of_ipcTrusted {s : Sys}
    (hrun : smp.ReachableUnder (fun s l => s.Atomic l.cpu ∧ s.IpcTrusted l.cpu) s) :
    s.IpcExact := by
  have hatom : ∀ {s : Sys},
      smp.ReachableUnder (fun s l => s.Atomic l.cpu ∧ s.IpcTrusted l.cpu) s → s.AtomicInv :=
    fun hreach => Sys.atomicInv_of_reachable (fun _ _ hok => hok.1) hreach
  have hinv : s.IpcInv := by
    apply hrun.invariant
    · rintro s ⟨_, _, hboot, rfl⟩
      exact Sys.IpcInv.start hboot
    · intro s l s' hreach hinv hok hstep
      exact hinv.step (hatom hreach).marks (Sys.bootIdle_of_reachable hreach) hok.1 hok.2
        (Sys.step_cases hstep).2
  exact hinv.ipcExact (hatom hrun)

/-- The child blocks in `sys_ipc_recv` and its parent is about to complete a
send to it. -/
theorem ipcExact_childReceives :
    ∃ s, smp.ReachableUnder (fun s l => s.Atomic l.cpu ∧ s.IpcTrusted l.cpu) s ∧
      (s.woken 0 = some 1 ∧ s.hist.recvs 1 = 1) ∧ s.IpcExact := by
  obtain ⟨s, hs, hsend⟩ := smp_exists_of_run (fun s l => s.Atomic l.cpu ∧ s.IpcTrusted l.cpu)
    (fun s => s.woken 0 = some 1 ∧ s.hist.recvs 1 = 1) [.plain]
    (childBlocks ++ [.call 0 (.ipcTrySend 4097 7 0 0), .go 0, .go 0, .go 0, .go 0])
    (by decide +kernel)
  exact ⟨s, hs, hsend, ipcExact_of_ipcTrusted hs⟩

/-- The parent destroys the blocked child, forks again into the same slot and
sends to the new child. -/
def sendToSuccessor : List Label :=
  [.call 0 (.envDestroy 4097), .go 0, .go 0, .go 0, .go 0, .go 0, .call 0 .exofork, .go 0,
   .call 0 (.ipcTrySend 6145 7 0 0), .go 0, .go 0, .go 0, .go 0]

/-- With atomic calls, a send is about to succeed although its target has
never executed a receive. -/
theorem sendWithoutRecv_reachable :
    ∃ s, smp.ReachableUnder (fun s l => s.Atomic l.cpu) s ∧ ¬ s.IpcExact := by
  obtain ⟨s, hs, hwoken, _⟩ := smp_exists_of_run (fun s l => s.Atomic l.cpu)
    (fun s => s.woken 0 = some 1 ∧ s.hist.recvs 1 = 0) [.plain]
    (childBlocks ++ sendToSuccessor) (by decide +kernel)
  refine ⟨s, hs, fun h => ?_⟩
  have hcount := (h.sent 0 1 hwoken).2
  omega

end MosSmp
