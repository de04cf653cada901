import MosSmp.Smp.Steps

/-!
What a step of a CPU can do to the control block of one environment. The
steps are many, but a control block changes in few ways; `EnvEffect` lists
them with the positions that cause them, and `StepCase.env_effect` says that
the list is complete. Facts about single fields follow by cases on it.
-/

namespace MosSmp

open Lib Function Kern

namespace Sys

/-- The slot that the next step of CPU `c` resets, in `env_alloc`. -/
def allocated (s : Sys) (c : CpuId) : Option EnvIdx :=
  match s.pc c with
  | .sys .exofork => s.kern.envFreeList.first
  | _ => none

/-- The slot that the next step of CPU `c` releases, in `env_free`. -/
def freeing (s : Sys) (c : CpuId) : Option EnvIdx :=
  match s.pc c with
  | .freeLock e _ => some e
  | _ => none

/-- The environment that the next step of CPU `c` gives up, in `schedule`. -/
def descheduled (s : Sys) (c : CpuId) : Option EnvIdx :=
  match s.pc c with
  | .schedLock yield => if s.kern.switches c yield then s.kern.curenv c else none
  | _ => none

/-- The environment that the next step of CPU `c` makes runnable, in
`sys_ipc_try_send`. -/
def woken (s : Sys) (c : CpuId) : Option EnvIdx :=
  match s.pc c with
  | .sendWake e => some e
  | _ => none

inductive EnvEffect (s : Sys) (c : CpuId) (s' : Sys) (e : EnvIdx) : Prop
  | data (tf : Trapframe) (runs value from_ perm : Word) :
      s'.kern.envs e = { s.kern.envs e with
        envTf := tf
        envRuns := runs
        envIpcValue := value
        envIpcFrom := from_
        envIpcPerm := perm } → EnvEffect s c s' e
  | reset (pgdir : Word) : e ∈ s.allocated c →
      s'.kern.envs e = resetEnv pgdir (s.kern.envs e) → EnvEffect s c s' e
  | fork (id asid parentId pgdir pri : Word) (tf : Trapframe) : e ∈ s.allocated c →
      s'.hist.envStamp e = s'.hist.latest e → s'.hist.recvs e = 0 → s'.hist.sends e = 0 →
      s'.kern.envs e = forkEnv id asid parentId pgdir pri tf (s.kern.envs e) →
      EnvEffect s c s' e
  | block (dstva : Word) : s.pc c = .recvLock dstva → s.kern.curenv c = some e →
      s'.kern.envs e = { s.kern.envs e with
        envIpcRecving := true
        envIpcDstva := dstva
        envStatus := .notRunnable
        envRunning := false
        envCpuId := none } → EnvEffect s c s' e
  | status (st : EnvStatus) : s.pc c = .statusLock e st →
      s'.kern.envs e = { s.kern.envs e with envStatus := st } → EnvEffect s c s' e
  | take (value srcva perm : Word) : s.pc c = .sendLock e value srcva perm →
      (s.kern.envs e).envIpcRecving = true →
      s'.kern.envs e = { s.kern.envs e with envIpcRecving := false } → EnvEffect s c s' e
  | undo (err : Err) : s.pc c = .sendUndo e err →
      s'.kern.envs e = { s.kern.envs e with envIpcRecving := true } → EnvEffect s c s' e
  | wake : s.pc c = .sendWake e →
      s'.kern.envs e = { s.kern.envs e with envStatus := .runnable } → EnvEffect s c s' e
  | killRemote : s.pc c = .destroyLock e → (s.kern.envs e).envStatus ≠ .free →
      (s.kern.envs e).envRunning = true → (s.kern.envs e).envCpuId ≠ some c →
      s'.kern.envs e = { s.kern.envs e with
        envKillPending := true
        envKillDone := false } → EnvEffect s c s' e
  | killLocal : s.pc c = .destroyLock e → (s.kern.envs e).envStatus ≠ .free →
      ((s.kern.envs e).envRunning = false ∨ (s.kern.envs e).envCpuId = some c) →
      s'.kern.envs e = { s.kern.envs e with envKillPending := true } → EnvEffect s c s' e
  | free : e ∈ s.freeing c → s'.kern.envs e = freeEnv (s.kern.envs e) →
      EnvEffect s c s' e
  | release : e ∈ s.descheduled c →
      s'.kern.envs e = { s.kern.envs e with
        envRunning := false
        envCpuId := none } → EnvEffect s c s' e
  | assign : s'.pc c = .envRun e → (s.kern.envs e).envKillPending = false →
      (e ∈ s.descheduled c ∨ ∀ d, d ≠ c → ¬ s.kern.runsOn e d) →
      s'.kern.envs e = { s.kern.envs e with
        envRunning := true
        envCpuId := some c } → EnvEffect s c s' e

variable {s s' : Sys} {c d : CpuId} {e : EnvIdx}

theorem EnvEffect.of_same (h : s'.kern.envs e = s.kern.envs e) : EnvEffect s c s' e :=
  .data _ _ _ _ _ h

variable {f : EnvIdx}

theorem EnvEffect.of_update {x : Env} (h : s'.kern.envs = update s.kern.envs f x)
    (heff : e = f → s'.kern.envs f = x → EnvEffect s c s' f) : EnvEffect s c s' e := by
  by_cases hf : e = f
  · subst hf
    exact heff rfl (by rw [h, update_self])
  · exact .of_same (by rw [h, update_of_ne hf])

theorem EnvEffect.of_forkFails {cur : EnvIdx} {vm : Option Word} {err : Err} {k : Kern}
    (hpc : s.pc c = .sys .exofork) (h : s.kern.exofork c cur vm = (.error err, k))
    (hs' : s'.kern.envs = k.envs) : EnvEffect s c s' e := by
  rcases exofork_error h with rfl | ⟨_, pgdir, hfirst, rfl⟩
  · exact .of_same (by rw [hs'])
  · refine .of_update hs' (fun _ heq => ?_)
    exact .reset pgdir (by simp [allocated, hpc, hfirst]) heq

theorem EnvEffect.of_forks {cur f : EnvIdx} {vm : Option Word} {k : Kern}
    (hpc : s.pc c = .sys .exofork) (h : s.kern.exofork c cur vm = (.ok f, k))
    (hs' : s'.kern.envs = k.envs) (hstamp : s'.hist.envStamp f = s'.hist.latest f)
    (hrecvs : s'.hist.recvs f = 0) (hsends : s'.hist.sends f = 0) : EnvEffect s c s' e := by
  obtain ⟨hfirst, _, _, _, _, rfl⟩ := exofork_ok f h
  refine .of_update hs' (fun _ heq => ?_)
  exact .fork _ _ _ _ _ _ (by simp [allocated, hpc, hfirst]) hstamp hrecvs hsends heq

theorem EnvEffect.of_release {yield : Bool} (hpc : s.pc c = .schedLock yield)
    (hsw : s.kern.switches c yield = true) (hs' : s'.kern.envs e = (s.kern.release c).envs e) :
    EnvEffect s c s' e := by
  by_cases hcur : s.kern.curenv c = some e
  · refine .release (by simp [descheduled, hpc, hsw, hcur]) ?_
    rw [hs', envs_release _ _ _ hcur, update_self]
  · exact .of_same (by rw [hs', envs_release_ne _ _ _ hcur])

theorem EnvEffect.of_assign (hf : e = f) (hpc' : s'.pc c = .envRun f)
    (hpick : s.kern.pick c = .found f) (hs' : s'.kern.envs = (s.kern.assign c f).envs) :
    EnvEffect s c s' e := by
  subst hf
  have helig := pick_eligible _ _ _ hpick
  refine .assign hpc' (eligible_not_pending _ _ _ helig) ?_ ?_
  · exact .inr (fun d hne => eligible_not_runsOn _ _ _ _ helig hne)
  · rw [hs', envs_assign, update_self]

theorem EnvEffect.of_release_assign {yield : Bool} (hpc : s.pc c = .schedLock yield)
    (hsw : s.kern.switches c yield = true) (hpc' : s'.pc c = .envRun f)
    (hpick : (s.kern.release c).pick c = .found f)
    (hs' : s'.kern.envs = ((s.kern.release c).assign c f).envs) : EnvEffect s c s' e := by
  by_cases hf : e = f
  · subst hf
    have helig := pick_eligible _ _ _ hpick
    have hpend := eligible_not_pending _ _ _ helig
    by_cases hcur : s.kern.curenv c = some e
    · have hrel := envs_release _ _ _ hcur
      refine .assign hpc' (by simpa [hrel] using hpend)
        (.inl (by simp [descheduled, hpc, hsw, hcur])) ?_
      rw [hs', envs_assign, hrel]
      simp
    · have hrel := envs_release_ne _ _ _ hcur
      refine .assign hpc' (hrel ▸ hpend) (.inr fun d hne hrun => ?_) ?_
      · apply eligible_not_runsOn _ _ d e helig hne
        unfold runsOn
        rwa [hrel]
      · rw [hs', envs_assign, hrel, update_self]
  · apply EnvEffect.of_release hpc hsw
    rw [hs', envs_assign, update_of_ne hf]

/-- Every step of CPU `c` has one of the listed effects on every slot. -/
theorem StepCase.env_effect (h : StepCase s c s') (e : EnvIdx) : EnvEffect s c s' e := by
  cases h with
  | forkFails hpc _ hfork => exact .of_forkFails hpc hfork rfl
  | forks hpc _ hfork =>
    apply EnvEffect.of_forks hpc hfork rfl <;> simp [noteInstall, noteAlloc]
  | installOther | sendFill => exact .of_update rfl (fun _ heq => .data _ _ _ _ _ heq)
  | recv hpc hcur => exact .of_update rfl (fun _ heq => .block _ hpc hcur heq)
  | setStatus hpc =>
    exact .of_update (envs_statusSection ..) (fun _ heq => .status _ hpc heq)
  | sendTake hpc _ hrecv => exact .of_update rfl (fun _ heq => .take _ _ _ hpc hrecv heq)
  | sendUndo hpc => exact .of_update rfl (fun _ heq => .undo _ hpc heq)
  | sendWake hpc => exact .of_update rfl (fun _ heq => .wake hpc heq)
  | destroyRemote hpc _ hfree hrun hcpu =>
    exact .of_update rfl (fun _ heq => .killRemote hpc hfree hrun hcpu heq)
  | destroyLocal hpc _ hfree hrun =>
    exact .of_update rfl (fun _ heq => .killLocal hpc hfree hrun heq)
  | free hpc =>
    refine .of_update (envs_freeSection ..) (fun _ heq => ?_)
    exact .free (by simp [freeing, hpc]) heq
  | switchRun hpc hsw hpick => exact .of_release_assign hpc hsw (by simp) hpick rfl
  | switchSpin hpc hsw => exact .of_release hpc hsw rfl
  | @spinRun f hpc hpick =>
    by_cases hf : e = f
    · exact .of_assign hf (by simp) hpick rfl
    · exact .of_same (by simp [envs_assign, update_of_ne hf])
  | run => exact .data _ _ _ _ _ (envs_switchTo ..)
  | _ => exact .of_same rfl

theorem StepCase.freeing_cases (h : StepCase s c s') (he : e ∈ s.freeing c) :
    s'.kern.envs e = freeEnv (s.kern.envs e) := by
  obtain ⟨kind, hpc⟩ : ∃ kind, s.pc c = .freeLock e kind := by
    unfold freeing at he
    split at he
    · next f kind hpc =>
      obtain rfl : f = e := by simpa using he
      exact ⟨kind, hpc⟩
    · cases he
  cases h with
  | free hpc' =>
    obtain ⟨rfl, _⟩ := Pc.freeLock.inj (hpc.symm.trans hpc')
    simp [envs_freeSection]
  | goes p hgo =>
    rw [hpc] at hgo
    cases hgo
  | returns r hret =>
    rw [hpc] at hret
    cases hret
  | block hor => rcases hor with hor | ⟨ch, hor⟩ <;> cases hpc.symm.trans hor
  | _ => simp_all

end Sys

end MosSmp
