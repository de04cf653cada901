import MosSmp.Smp.Marks

/-!
Remote destruction. `env_destroy` of an environment that runs on the other CPU
sets `env_kill_pending` and waits until that CPU has released the
environment, which it does in `env_check_kill_pending` at the top of
`schedule`. A request is orphaned when no CPU is releasing the environment and
no CPU can still reach the check with it as its current environment.

The check is made before `schedule` takes its lock, the request is made under
the lock, and `schedule` then passes over environments with a pending kill. A
request that arrives between the two is therefore lost: the target is
descheduled and nobody picks it up again. `KillInTime` is the condition that
requests arrive in time, and that `env_alloc` takes free slots only; under it
no request is ever orphaned.
-/

namespace MosSmp

open Lib Function Kern Sys

namespace Pc

/-- The environment that the CPU is releasing in `env_free`. -/
def inFree : Pc → Option EnvIdx
  | .freeMem e _ | .freeLock e _ => some e
  | _ => none

/-- The environment whose release by the other CPU this CPU waits for. -/
def awaits : Pc → Option (EnvIdx × Word)
  | .waitRemote e envid => some (e, envid)
  | _ => none

/-- Positions on the way back to the top of `schedule`, with the current
environment `cur` neither descheduled nor being released. -/
def leadsToCheck (cur : EnvIdx) : Pc → Bool
  | .boot | .schedLock _ | .schedSpin | .envRun _ | .waitRemote _ _ => false
  | .freeMem e _ | .freeLock e _ | .freed e _ => e ≠ cur
  | _ => true

/-- Positions at which the current environment `cur` may carry the mark of
this CPU. -/
def keepsMark (cur : EnvIdx) : Pc → Bool
  | .boot | .schedSpin | .envRun _ => false
  | .freed e _ => e ≠ cur
  | _ => true

end Pc

namespace Sys

/-- From where CPU `c` is, it can still reach `env_check_kill_pending` with
`e` as its current environment. -/
def canReachCheck (s : Sys) (c : CpuId) (e : EnvIdx) : Bool :=
  match s.pc c with
  | .envRun f => f = e && (s.kern.envs e).envStatus = .runnable
  | .schedLock yield => s.kern.curenv c = some e && !s.kern.switches c yield
  | pc => s.kern.curenv c = some e && pc.leadsToCheck e

/-- Some CPU is releasing `e` or can still reach the check with it. -/
def ReleaseAhead (s : Sys) (e : EnvIdx) : Prop :=
  ∃ c, (s.pc c).inFree = some e ∨ s.canReachCheck c e = true

/-- No pending kill is orphaned, and no CPU waits for a release that is not
ahead. -/
structure NoOrphan (s : Sys) : Prop where
  pending : ∀ e, (s.kern.envs e).envStatus ≠ .free → (s.kern.envs e).envKillPending = true →
    s.ReleaseAhead e
  waiting : ∀ c e envid, (s.pc c).awaits = some (e, envid) → (s.kern.envs e).envId = envid →
    (s.kern.envs e).envKillDone = false → s.ReleaseAhead e

/-- The environment for which the next step of CPU `c` makes a remote kill
request. -/
def requested (s : Sys) (c : CpuId) : Option EnvIdx :=
  match s.pc c with
  | .destroyLock e =>
    if (s.kern.envs e).envStatus ≠ .free ∧ (s.kern.envs e).envRunning = true ∧
      (s.kern.envs e).envCpuId ≠ some c then some e else none
  | _ => none

/-- CPU `d` is past the check: it is about to deschedule its environment, or
waits for a remote kill itself, or is about to fail the assertion in
`env_run`. -/
def pastCheck (s : Sys) (d : CpuId) (e : EnvIdx) : Bool :=
  match s.pc d with
  | .schedLock yield => s.kern.switches d yield
  | .waitRemote _ _ => true
  | .envRun _ => (s.kern.envs e).envStatus ≠ .runnable
  | _ => false

/-- A remote kill is requested only while the target's CPU is not past the
check, and only free slots are allocated. -/
def KillInTime (s : Sys) (c : CpuId) : Prop :=
  (∀ e ∈ s.requested c, ∀ d, (s.kern.envs e).envCpuId = some d → s.pastCheck d e = false) ∧
    ∀ e ∈ s.allocated c, (s.kern.envs e).envStatus = .free

instance (s : Sys) (c : CpuId) : Decidable (s.KillInTime c) :=
  @instDecidableAnd _ _ (Option.decidableForallMem _) (Option.decidableForallMem _)

variable {s s' : Sys} {c d : CpuId} {e : EnvIdx}

/-- Only the CPU that picks an environment in `schedule` can gain a mark. -/
theorem StepCase.runsOn_source (h : StepCase s c s') (hrun : s'.kern.runsOn e d) :
    s.kern.runsOn e d ∨ (d = c ∧ s'.pc c = .envRun e) := by
  unfold runsOn at hrun ⊢
  cases h.env_effect e with
  | data tf runs value from_ perm heq | status st hpc heq | take value srcva perm hpc hrecv heq
  | undo err hpc heq | wake hpc heq | killRemote hpc hfree hrun' hcpu heq
  | killLocal hpc hfree hrun' heq => exact .inl (by rwa [heq] at hrun)
  | reset pgdir halloc heq | fork id asid parentId pgdir pri tf halloc hstamp hrecvs hsends heq
  | block dstva hpc hcur heq | free hfree heq | release hdes heq =>
    rw [heq] at hrun
    cases hrun.1
  | assign hpc hpend hor heq =>
    rw [heq] at hrun
    exact .inr ⟨(Option.some.inj hrun.2).symm, hpc⟩

theorem Goes.keepsMark_target {p q : Pc} (h : Goes s c p q) (hp : p.keepsMark e = true) :
    q.keepsMark e = true := by
  cases h with
  | boot => cases hp
  | _ => rfl

/-- What becomes of an environment that may carry the mark of the stepping
CPU. -/
theorem StepCase.keepsMark_cases (h : StepCase s c s') (hkill : s.KillsOwn)
    (hcur : s.kern.curenv c = some e) (hkeep : (s.pc c).keepsMark e = true) :
    (s'.kern.curenv c = some e ∧ (s'.pc c).keepsMark e = true) ∨
      s'.pc c = .envRun e ∨ ¬ s'.kern.runsOn e c := by
  cases h with
  | tick =>
    refine .inl ⟨by simpa [Sys.tick] using hcur, ?_⟩
    simp only [Sys.tick, goto_pc, update_self]
    split <;> rfl
  | enter => exact .inl ⟨by simpa [Sys.enter] using hcur, by simp [Sys.enter, Pc.keepsMark]⟩
  | goes p hgo => exact .inl ⟨hcur, by simpa using hgo.keepsMark_target hkeep⟩
  | forkFails _ _ hfork | forks _ _ hfork =>
    exact .inl ⟨by simpa [Kern.exofork_curenv hfork] using hcur, by simp [Pc.keepsMark]⟩
  | @free f kind hpc =>
    by_cases hf : f = e
    · subst hf
      right; right
      rintro ⟨hrun, _⟩
      simp [Kern.envs_freeSection, Kern.freeEnv] at hrun
    · exact .inl ⟨by simpa using hcur, by simpa [Pc.keepsMark] using hf⟩
  | @leave f kind hpc hleave =>
    cases (hkill.leaving hpc hleave).symm.trans hcur
    simp [hpc, Pc.keepsMark] at hkeep
  | @switchRun yield f hpc hsw hpick =>
    by_cases hf : e = f
    · subst hf
      exact .inr (.inl (by simp))
    · right; right
      rintro ⟨hrun, _⟩
      simp [Kern.envs_assign, update_of_ne hf, Kern.envs_release _ _ _ hcur] at hrun
  | switchSpin =>
    right; right
    rintro ⟨hrun, _⟩
    simp [Kern.envs_release _ _ _ hcur] at hrun
  | stay _ _ hcur' =>
    cases hcur'.symm.trans hcur
    exact .inr (.inl (by simp))
  | spinRun hpc | spin hpc | run hpc | halt hpc => simp [hpc, Pc.keepsMark] at hkeep
  | lockSched => exact .inl ⟨hcur, by simp [noteScheduleReady, Pc.keepsMark]⟩
  | _ => exact .inl ⟨by simpa using hcur, by simp [Pc.keepsMark]⟩

/-- A mark of CPU `c` is on its current environment, or on the environment it
is about to switch to. -/
def MarksHeld (s : Sys) : Prop :=
  ∀ c e, s.kern.runsOn e c →
    (s.kern.curenv c = some e ∧ (s.pc c).keepsMark e = true) ∨ s.pc c = .envRun e

variable {ok : Sys → Label → Prop}

theorem marksHeld_of_reachable (hreach : smp.ReachableUnder ok s) : s.MarksHeld := by
  apply hreach.invariant
  · rintro s ⟨_, k, hboot, rfl⟩ _ e ⟨hrun, _⟩
    rw [show (start k).kern = k from rfl, (boot_fresh hboot e).1] at hrun
    cases hrun
  · intro s l s' hprev hinv _ hstep d e hrun
    have h := (step_cases hstep).2
    by_cases hd : d = l.cpu
    · subst hd
      rcases h.runsOn_source hrun with hrun' | ⟨_, hpc⟩
      · rcases hinv _ e hrun' with ⟨hcur, hkeep⟩ | hpc
        · rcases h.keepsMark_cases (killsOwn_of_reachable hprev) hcur hkeep with hk | hpc | hnot
          · exact .inl hk
          · exact .inr hpc
          · exact absurd hrun hnot
        · rcases h.envRun_cases hpc with ⟨_, hcur, hpop⟩ | ⟨_, hpc, _⟩
          · exact .inl ⟨hcur, by rw [hpop]; rfl⟩
          · exact .inr hpc
      · exact .inr hpc
    · rcases h.runsOn_source hrun with hrun' | ⟨heq, _⟩
      · rw [(h.frame hd).1, (h.frame hd).2]
        exact hinv d e hrun'
      · exact absurd heq hd

theorem canReachCheck_cases (h : s.canReachCheck c e = true) :
    (s.kern.curenv c = some e ∧ (s.pc c).leadsToCheck e = true) ∨
      (∃ yield, s.pc c = .schedLock yield ∧ s.kern.curenv c = some e ∧
        s.kern.switches c yield = false) ∨
      (s.pc c = .envRun e ∧ (s.kern.envs e).envStatus = .runnable) := by
  unfold canReachCheck at h
  split at h
  · next f hpc =>
    obtain ⟨rfl, hst⟩ : f = e ∧ (s.kern.envs e).envStatus = .runnable := by simpa using h
    exact .inr (.inr ⟨hpc, hst⟩)
  · next yield hpc => exact .inr (.inl ⟨yield, hpc, by simpa using h⟩)
  · exact .inl (by simpa using h)

theorem canReachCheck_of_leads (hcur : s.kern.curenv c = some e)
    (hlead : (s.pc c).leadsToCheck e = true) : s.canReachCheck c e = true := by
  unfold canReachCheck
  split
  · next hpc => simp [hpc, Pc.leadsToCheck] at hlead
  · next hpc => simp [hpc, Pc.leadsToCheck] at hlead
  · simp [hcur, hlead]

theorem Goes.leads_target {p q : Pc} (h : Goes s c p q) (hcur : s.kern.curenv c = some e)
    (hp : p.leadsToCheck e = true) : q.leadsToCheck e = true ∨ q.inFree = some e := by
  cases h with
  | boot => cases hp
  | kill hkill =>
    cases hkill.symm.trans hcur
    exact .inr rfl
  | _ => exact .inl rfl

theorem Kern.runnable_of_not_switches {k : Kern} {c : CpuId} {e : EnvIdx} {yield : Bool}
    (hsw : k.switches c yield = false) (hcur : k.curenv c = some e) :
    (k.envs e).envStatus = .runnable := by
  unfold switches at hsw
  rw [hcur] at hsw
  simp only [Bool.or_eq_false_iff, decide_eq_false_iff_not, not_not] at hsw
  exact hsw.2

section

variable (h : StepCase s c s')
include h

/-- On its way to the check with a pending kill, a CPU stays on its way or
starts the release, unless it makes a remote request itself. -/
theorem StepCase.leads_cases (hkill : s.KillsOwn) (hcur : s.kern.curenv c = some e)
    (hpend : (s.kern.envs e).envKillPending = true) (hlead : (s.pc c).leadsToCheck e = true) :
    s.requested c ≠ none ∨ (s'.pc c).inFree = some e ∨
      (s'.kern.curenv c = some e ∧ (s'.pc c).leadsToCheck e = true) := by
  cases h with
  | tick =>
    refine .inr (.inr ⟨by simpa [Sys.tick] using hcur, ?_⟩)
    simp only [Sys.tick, goto_pc, update_self]
    split <;> rfl
  | enter =>
    exact .inr (.inr ⟨by simpa [Sys.enter] using hcur, by simp [Sys.enter, Pc.leadsToCheck]⟩)
  | goes p hgo =>
    rcases hgo.leads_target hcur hlead with hq | hq
    · exact .inr (.inr ⟨hcur, by simpa using hq⟩)
    · exact .inr (.inl (by simpa using hq))
  | forkFails _ _ hfork | forks _ _ hfork =>
    refine .inr (.inr ⟨by simpa [Kern.exofork_curenv hfork] using hcur, ?_⟩)
    simp [Pc.leadsToCheck]
  | destroyRemote hpc _ hfree hrun hcpu =>
    exact .inl (by simp [requested, hpc, hfree, hrun, hcpu])
  | @destroyLocal cur f hpc =>
    by_cases hf : f = e
    · subst hf
      exact .inr (.inl (by simp [Pc.inFree]))
    · exact .inr (.inr ⟨by simpa using hcur, by simpa [Pc.leadsToCheck] using hf⟩)
  | freeMem hpc | free hpc =>
    exact .inr (.inr ⟨by simpa using hcur, by simpa [hpc, Pc.leadsToCheck] using hlead⟩)
  | @leave f kind hpc hleave =>
    cases (hkill.leaving hpc hleave).symm.trans hcur
    simp [hpc, Pc.leadsToCheck] at hlead
  | lockSched hpc hnot =>
    rw [hnot e hcur] at hpend
    cases hpend
  | switchRun hpc | switchSpin hpc | stay hpc | spinRun hpc | spin hpc | run hpc | halt hpc =>
    simp [hpc, Pc.leadsToCheck] at hlead
  | _ => exact .inr (.inr ⟨by simpa using hcur, by simp [Pc.leadsToCheck]⟩)

/-- A CPU that keeps its environment in `schedule` enters `env_run` with it. -/
theorem StepCase.stay_cases {yield : Bool} (hpc : s.pc c = .schedLock yield)
    (hcur : s.kern.curenv c = some e) (hsw : s.kern.switches c yield = false) :
    s'.pc c = .envRun e ∧ s'.kern.envs = s.kern.envs := by
  cases h with
  | stay _ _ hcur' =>
    cases hcur'.symm.trans hcur
    exact ⟨by simp, rfl⟩
  | switchRun hpc' hsw' | switchSpin hpc' hsw' =>
    obtain rfl := Pc.schedLock.inj (hpc.symm.trans hpc')
    rw [hsw] at hsw'
    cases hsw'
  | goes p hgo =>
    rw [hpc] at hgo
    cases hgo
  | returns r hret =>
    rw [hpc] at hret
    cases hret
  | block hor => rcases hor with hor | ⟨ch, hor⟩ <;> cases hpc.symm.trans hor
  | _ => simp_all

/-- A CPU that can reach the check of a pending kill still can after its step,
or has started the release. -/
theorem StepCase.canReachCheck_step (hkill : s.KillsOwn)
    (hpend : (s.kern.envs e).envKillPending = true) (hreq : s.requested c = none)
    (hreach : s.canReachCheck c e = true) :
    (s'.pc c).inFree = some e ∨ s'.canReachCheck c e = true := by
  rcases canReachCheck_cases hreach with ⟨hcur, hlead⟩ | ⟨_, hpc, hcur, hsw⟩ | ⟨hpc, hst⟩
  · rcases h.leads_cases hkill hcur hpend hlead with hne | hfree | ⟨hcur', hlead'⟩
    · exact absurd hreq hne
    · exact .inl hfree
    · exact .inr (canReachCheck_of_leads hcur' hlead')
  · obtain ⟨hpc', henvs⟩ := h.stay_cases hpc hcur hsw
    right
    unfold canReachCheck
    rw [hpc', henvs]
    simp [Kern.runnable_of_not_switches hsw hcur]
  · rcases h.envRun_cases hpc with ⟨_, hcur', hpc'⟩ | ⟨hst', _⟩
    · exact .inr (canReachCheck_of_leads hcur' (by rw [hpc']; rfl))
    · exact absurd hst hst'

theorem StepCase.statusLock_cases {st : EnvStatus} (hpc : s'.pc c = .statusLock e st) :
    st ≠ .free := by
  cases h with
  | goes p hgo =>
    rw [goto_pc, update_self] at hpc
    subst hpc
    generalize s.pc c = q at hgo
    cases hgo with
    | setStatus hcur hst =>
      rintro rfl
      unfold statusOfWord at hst
      split at hst
      · cases hst
      · split at hst <;> cases hst
  | halt hrun =>
    rw [hrun] at hpc
    cases hpc
  | tick =>
    simp only [Sys.tick, goto_pc, update_self] at hpc
    split at hpc <;> cases hpc
  | enter => simp [Sys.enter] at hpc
  | lockSched => simp [noteScheduleReady] at hpc
  | _ => simp at hpc

end

/-- `sys_set_env_status` never sets a status to `ENV_FREE`. -/
def StatusValid (s : Sys) : Prop :=
  ∀ c e st, s.pc c = .statusLock e st → st ≠ .free

theorem statusValid_of_reachable (hreach : smp.ReachableUnder ok s) : s.StatusValid := by
  apply hreach.invariant
  · rintro s ⟨_, _, _, rfl⟩ _ e st hpc
    simp only [start] at hpc
    split at hpc <;> cases hpc
  · intro s l s' _ hinv _ hstep d e st hpc
    have h := (step_cases hstep).2
    by_cases hd : d = l.cpu
    · subst hd
      exact h.statusLock_cases hpc
    · rw [(h.frame hd).1] at hpc
      exact hinv d e st hpc

/-- An environment marked as running is marked with a CPU. -/
def MarksNamed (s : Sys) : Prop :=
  ∀ e, (s.kern.envs e).envRunning = true → ∃ c, s.kern.runsOn e c

theorem StepCase.marksNamed (h : StepCase s c s') (hinv : s.MarksNamed) : s'.MarksNamed := by
  intro e hrun
  have hsame : SameMark s s' e → ∃ d, s'.kern.runsOn e d := by
    intro hmark
    rw [hmark.1] at hrun
    obtain ⟨d, hd⟩ := hinv e hrun
    exact ⟨d, (hmark.runsOn_iff d).mpr hd⟩
  cases h.env_effect e with
  | data tf runs value from_ perm heq | status st hpc heq | take value srcva perm hpc hrecv heq
  | undo err hpc heq | wake hpc heq | killRemote hpc hfree hrun' hcpu heq
  | killLocal hpc hfree hrun' heq => exact hsame (sameMark_of_eq heq ⟨rfl, rfl⟩)
  | assign hpc hpend hor heq => exact ⟨c, by rw [heq], by rw [heq]⟩
  | reset pgdir halloc heq | fork id asid parentId pgdir pri tf halloc hstamp hrecvs hsends heq
  | block dstva hpc hcur heq | free hfree heq | release hdes heq =>
    rw [heq] at hrun
    cases hrun

theorem marksNamed_of_reachable (hreach : smp.ReachableUnder ok s) : s.MarksNamed := by
  apply hreach.invariant
  · rintro s ⟨_, k, hboot, rfl⟩ e hrun
    rw [show (start k).kern = k from rfl, (boot_fresh hboot e).1] at hrun
    cases hrun
  · intro s l s' _ hinv _ hstep
    exact (step_cases hstep).2.marksNamed hinv

theorem StepCase.destroyLock_cases (h : StepCase s c s') (hpc : s.pc c = .destroyLock e) :
    (s.kern.envs e).envStatus = .free ∨ (s'.pc c).inFree = some e ∨
      (e ∈ s.requested c ∧ s' = (s.setKern (s.kern.updEnv e
        (fun x => { x with envKillPending := true, envKillDone := false }))).goto c
        (.waitRemote e (s.kern.envs e).envId)) := by
  cases h with
  | destroyRemote hpc' _ hfree hrun hcpu =>
    obtain rfl := Pc.destroyLock.inj (hpc.symm.trans hpc')
    exact .inr (.inr ⟨by simp [requested, hpc, hfree, hrun, hcpu], rfl⟩)
  | destroyLocal hpc' =>
    obtain rfl := Pc.destroyLock.inj (hpc.symm.trans hpc')
    exact .inr (.inl (by simp [Pc.inFree]))
  | goes p hgo =>
    rw [hpc] at hgo
    cases hgo
  | returns r hret =>
    rw [hpc] at hret
    cases hret with
    | alreadyFree hfree => exact .inl hfree
  | block hor => rcases hor with hor | ⟨ch, hor⟩ <;> cases hpc.symm.trans hor
  | _ => simp_all

theorem StepCase.inFree_cases (h : StepCase s c s') (hfree : (s.pc c).inFree = some e) :
    (s'.pc c).inFree = some e ∨ (s'.kern.envs e).envStatus = .free := by
  cases h with
  | @freeMem f kind hpc =>
    left
    simpa [hpc, Pc.inFree] using hfree
  | @free f kind hpc =>
    right
    obtain rfl : f = e := by simpa [hpc, Pc.inFree] using hfree
    simp [envs_freeSection, freeEnv]
  | goes p hgo =>
    generalize s.pc c = q at hgo hfree
    cases hgo <;> cases hfree
  | returns r hret =>
    generalize s.pc c = q at hret hfree
    cases hret <;> cases hfree
  | block hor => rcases hor with hor | ⟨ch, hor⟩ <;> rw [hor] at hfree <;> cases hfree
  | _ => simp_all [Pc.inFree]

variable {envid : Word}

/-- A kill of `e` is being carried out by some CPU, or the requesting CPU waits
for it and the other CPU is on its way to the check. -/
def KillAhead (s : Sys) (e : EnvIdx) : Prop :=
  (∃ c, (s.pc c).inFree = some e) ∨
    ∃ c d, c ≠ d ∧ (s.pc d).awaits = some (e, (s.kern.envs e).envId) ∧
      (s.kern.envs e).envKillDone = false ∧ s.canReachCheck c e = true

structure KillInv (s : Sys) : Prop where
  clean : ∀ e, (s.kern.envs e).envStatus = .free → (s.kern.envs e).envKillPending = false
  waits : ∀ c e envid, (s.pc c).awaits = some (e, envid) →
    (s.kern.envs e).envKillDone = false →
    (s.kern.envs e).envStatus ≠ .free ∧ (s.kern.envs e).envKillPending = true
  ahead : ∀ e, (s.kern.envs e).envStatus ≠ .free → (s.kern.envs e).envKillPending = true →
    s.KillAhead e

theorem KillInv.noOrphan (hinv : KillInv s) : s.NoOrphan := by
  have hpending : ∀ e, (s.kern.envs e).envStatus ≠ .free →
      (s.kern.envs e).envKillPending = true → s.ReleaseAhead e := by
    intro e hlive hpend
    rcases hinv.ahead e hlive hpend with ⟨c, hfree⟩ | ⟨c, _, _, _, _, hreach⟩
    · exact ⟨c, .inl hfree⟩
    · exact ⟨c, .inr hreach⟩
  refine ⟨hpending, fun c e envid hwait _ hdone => ?_⟩
  obtain ⟨hlive, hpend⟩ := hinv.waits c e envid hwait hdone
  exact hpending e hlive hpend

theorem KillInv.waits_other (hinv : KillInv s) (hvalid : s.StatusValid) (h : StepCase s c s')
    (hok : s.KillInTime c) (hwait : (s.pc d).awaits = some (e, envid))
    (hdone : (s'.kern.envs e).envKillDone = false) :
    (s'.kern.envs e).envStatus ≠ .free ∧ (s'.kern.envs e).envKillPending = true := by
  have hold := hinv.waits d e envid hwait
  cases h.env_effect e with
  | data tf runs value from_ perm heq | take value srcva perm hpc hrecv heq | undo err hpc heq
  | release hdes heq | assign hpc hpend hor heq =>
    rw [heq] at hdone ⊢
    exact hold hdone
  | reset pgdir halloc heq | fork id asid parentId pgdir pri tf halloc hstamp hrecvs hsends heq =>
    rw [heq] at hdone
    exact absurd (hok.2 e halloc) (hold hdone).1
  | block dstva hpc hcur heq | wake hpc heq =>
    rw [heq] at hdone ⊢
    exact ⟨by simp, (hold hdone).2⟩
  | status st hpc heq =>
    rw [heq] at hdone ⊢
    exact ⟨hvalid c e st hpc, (hold hdone).2⟩
  | killRemote hpc hlive hrun hcpu heq | killLocal hpc hlive hrun heq =>
    rw [heq]
    exact ⟨hlive, rfl⟩
  | free hfree heq =>
    rw [heq] at hdone
    cases hdone

theorem requested_spec (hreq : e ∈ s.requested c) :
    s.pc c = .destroyLock e ∧ (s.kern.envs e).envStatus ≠ .free ∧
      (s.kern.envs e).envRunning = true ∧ (s.kern.envs e).envCpuId ≠ some c := by
  unfold requested at hreq
  split at hreq
  · next f hpc =>
    split at hreq
    · next hif =>
      obtain rfl : f = e := by simpa using hreq
      exact ⟨hpc, hif⟩
    · cases hreq
  · cases hreq

/-- A remote request is for an environment that the other CPU runs. -/
theorem requested_target (hnamed : s.MarksNamed) (hreq : e ∈ s.requested c) :
    ∃ d, d ≠ c ∧ s.kern.runsOn e d := by
  obtain ⟨_, _, hrun, hcpu⟩ := requested_spec hreq
  obtain ⟨d, hd⟩ := hnamed e hrun
  refine ⟨d, ?_, hd⟩
  rintro rfl
  exact hcpu hd.2

/-- While one CPU waits for a release, the other makes no remote request. -/
theorem not_requested (hnamed : s.MarksNamed) (hok : s.KillInTime c) (hne : d ≠ c) {f : EnvIdx}
    (hwait : (s.pc d).awaits = some (f, envid)) : s.requested c = none := by
  cases hreq : s.requested c with
  | none => rfl
  | some e =>
    obtain ⟨a, hac, ha⟩ := requested_target hnamed hreq
    obtain rfl := CpuId.eq_of_ne hac hne
    have hpast := hok.1 e hreq a ha.2
    unfold pastCheck at hpast
    cases hpc : s.pc a <;> simp_all [Pc.awaits]

theorem inFree_or_canReachCheck (hheld : s.MarksHeld) (hrun : s.kern.runsOn e d)
    (hpast : s.pastCheck d e = false) :
    (s.pc d).inFree = some e ∨ s.canReachCheck d e = true := by
  rcases hheld d e hrun with ⟨_, hkeep⟩ | hpc
  · unfold pastCheck at hpast
    cases hpc : s.pc d
    all_goals simp only [hpc] at hkeep hpast
    all_goals simp_all [Pc.keepsMark, canReachCheck, Pc.leadsToCheck, Pc.inFree]
    all_goals exact em _
  · right
    unfold pastCheck at hpast
    unfold canReachCheck
    simp_all

theorem canReachCheck_congr (hpc : s'.pc d = s.pc d) (hdata : s'.kern.cpuData d = s.kern.cpuData d)
    (hst : (s'.kern.envs e).envStatus = (s.kern.envs e).envStatus)
    (h : s.canReachCheck d e = true) : s'.canReachCheck d e = true := by
  have hcur' : s'.kern.curenv d = s.kern.curenv d := by
    unfold curenv
    rw [hdata]
  rcases canReachCheck_cases h with ⟨hcur, hlead⟩ | ⟨_, hlock, hcur, hsw⟩ | ⟨hrun, hrunnable⟩
  · exact canReachCheck_of_leads (hcur'.trans hcur) (hpc ▸ hlead)
  · unfold switches at hsw
    unfold canReachCheck switches
    rw [hpc, hlock, hcur', hdata]
    simp_all
  · unfold canReachCheck
    rw [hpc, hrun]
    simp [hst, hrunnable]

theorem killAhead_request (hheld : s.MarksHeld) (hnamed : s.MarksNamed)
    (hok : s.KillInTime c) (hreq : e ∈ s.requested c) (h : StepCase s c s')
    (hs' : s' = (s.setKern (s.kern.updEnv e
      (fun x => { x with envKillPending := true, envKillDone := false }))).goto c
      (.waitRemote e (s.kern.envs e).envId)) : KillAhead s' e := by
  obtain ⟨d, hdc, hrun⟩ := requested_target hnamed hreq
  rcases inFree_or_canReachCheck hheld hrun (hok.1 e hreq d hrun.2) with hfree | hreach
  · exact .inl ⟨d, by rw [(h.frame hdc).1]; exact hfree⟩
  · refine .inr ⟨d, c, hdc, by simp [hs', Pc.awaits], by simp [hs'], ?_⟩
    exact canReachCheck_congr (h.frame hdc).1 (by simp [hs']) (by simp [hs']) hreach

section

variable (h : StepCase s c s')
include h

/-- A waiting CPU takes no step before its wait is over. -/
theorem StepCase.not_waiting (hwait : (s.pc c).awaits = some (e, envid))
    (hid : (s.kern.envs e).envId = envid) : (s.kern.envs e).envKillDone ≠ false := by
  intro hdone
  cases h with
  | goes p hgo =>
    generalize s.pc c = q at hgo hwait
    cases hgo <;> cases hwait
  | returns r hret =>
    generalize s.pc c = q at hret hwait
    cases hret with
    | waited hover =>
      obtain ⟨rfl, rfl⟩ := hwait
      exact hover ⟨hid, hdone⟩
    | _ => cases hwait
  | block hor => rcases hor with hor | ⟨ch, hor⟩ <;> rw [hor] at hwait <;> cases hwait
  | _ => simp_all [Pc.awaits]

/-- A free slot has no pending kill, and a step keeps it so. -/
theorem StepCase.clean_step (hvalid : s.StatusValid)
    (hclean : (s.kern.envs e).envStatus = .free → (s.kern.envs e).envKillPending = false)
    (hfree : (s'.kern.envs e).envStatus = .free) : (s'.kern.envs e).envKillPending = false := by
  cases h.env_effect e with
  | data tf runs value from_ perm heq | take value srcva perm hpc hrecv heq | undo err hpc heq
  | release hdes heq | assign hpc hpend hor heq =>
    rw [heq] at hfree ⊢
    exact hclean hfree
  | reset pgdir halloc heq | fork id asid parentId pgdir pri tf halloc hstamp hrecvs hsends heq
  | free hfree heq => rw [heq]; rfl
  | block dstva hpc hcur heq | wake hpc heq =>
    rw [heq] at hfree
    cases hfree
  | status st hpc heq =>
    rw [heq] at hfree
    exact absurd hfree (hvalid c e st hpc)
  | killRemote hpc hlive hrun hcpu heq | killLocal hpc hlive hrun heq =>
    rw [heq] at hfree
    exact absurd hfree hlive

/-- A request in progress stays recorded: the id and the open mark of a live
environment survive a step. -/
theorem StepCase.request_kept (hok : s.KillInTime c) (hlive : (s.kern.envs e).envStatus ≠ .free)
    (hlive' : (s'.kern.envs e).envStatus ≠ .free) (hdone : (s.kern.envs e).envKillDone = false) :
    (s'.kern.envs e).envId = (s.kern.envs e).envId ∧ (s'.kern.envs e).envKillDone = false := by
  cases h.env_effect e with
  | data tf runs value from_ perm heq | block dstva hpc hcur heq | status st hpc heq
  | take value srcva perm hpc hrecv heq | undo err hpc heq | wake hpc heq
  | killLocal hpc hfree hrun heq | release hdes heq | assign hpc hpend hor heq =>
    exact ⟨by rw [heq], by rw [heq]; exact hdone⟩
  | reset pgdir halloc => exact absurd (hok.2 e halloc) hlive
  | fork id asid parentId pgdir pri tf halloc =>
    exact absurd (hok.2 e halloc) hlive
  | killRemote hpc hfree hrun hcpu heq => exact ⟨by rw [heq], by rw [heq]⟩
  | free hfree heq =>
    rw [heq] at hlive'
    exact absurd rfl hlive'

/-- A kill becomes pending in `env_destroy` only. -/
theorem StepCase.pending_source (hpend : ¬ (s.kern.envs e).envKillPending = true)
    (hpend' : (s'.kern.envs e).envKillPending = true) :
    s.pc c = .destroyLock e ∧ (s.kern.envs e).envStatus ≠ .free := by
  cases h.env_effect e with
  | killRemote hpc hfree | killLocal hpc hfree => exact ⟨hpc, hfree⟩
  | reset pgdir halloc heq | fork id asid parentId pgdir pri tf halloc hstamp hrecvs hsends heq
  | free hfree heq =>
    rw [heq] at hpend'
    cases hpend'
  | data tf runs value from_ perm heq | block dstva hpc hcur heq | status st hpc heq
  | take value srcva perm hpc hrecv heq | undo err hpc heq | wake hpc heq | release hdes heq
  | assign hpc _ hor heq => exact absurd (by rwa [heq] at hpend') hpend

end

theorem StepCase.awaits_cases (h : StepCase s c s') (hwait : (s'.pc c).awaits = some (e, envid)) :
    (s'.kern.envs e).envStatus ≠ .free ∧ (s'.kern.envs e).envKillPending = true := by
  cases h with
  | @destroyRemote cur f hpc _ hfree =>
    obtain rfl : f = e := by
      simp only [goto_pc, update_self, Pc.awaits, Option.some.injEq, Prod.mk.injEq] at hwait
      exact hwait.1
    simp [hfree]
  | goes p hgo =>
    rw [goto_pc, update_self] at hwait
    generalize s.pc c = q at hgo
    cases hgo <;> cases hwait
  | halt hrun =>
    rw [hrun] at hwait
    cases hwait
  | tick =>
    simp only [Sys.tick, goto_pc, update_self] at hwait
    split at hwait <;> cases hwait
  | enter => simp [Sys.enter, Pc.awaits] at hwait
  | lockSched => simp [noteScheduleReady, Pc.awaits] at hwait
  | _ => simp [Pc.awaits] at hwait

section

variable (hinv : KillInv s) (hkill : s.KillsOwn) (hheld : s.MarksHeld) (hnamed : s.MarksNamed)
include hinv hkill hheld hnamed

theorem KillInv.ahead_step (h : StepCase s c s') (hok : s.KillInTime c)
    (hlive' : (s'.kern.envs e).envStatus ≠ .free)
    (hpend' : (s'.kern.envs e).envKillPending = true) : KillAhead s' e := by
  by_cases hpend : (s.kern.envs e).envKillPending = true
  · have hlive : (s.kern.envs e).envStatus ≠ .free := by
      intro hfree
      rw [hinv.clean e hfree] at hpend
      cases hpend
    rcases hinv.ahead e hlive hpend with ⟨a, hfree⟩ | ⟨a, d, had, hwait, hdone, hreach⟩
    · by_cases hac : a = c
      · subst hac
        rcases h.inFree_cases hfree with hfree' | hdead
        · exact .inl ⟨a, hfree'⟩
        · exact absurd hdead hlive'
      · exact .inl ⟨a, by rw [(h.frame hac).1]; exact hfree⟩
    · have hdc : d ≠ c := by
        rintro rfl
        exact h.not_waiting hwait rfl hdone
      obtain rfl : a = c := CpuId.eq_of_ne had hdc.symm
      obtain ⟨hid, hdone'⟩ := h.request_kept hok hlive hlive' hdone
      rcases h.canReachCheck_step hkill hpend (not_requested hnamed hok hdc hwait) hreach with
        hfree | hreach'
      · exact .inl ⟨a, hfree⟩
      · exact .inr ⟨a, d, had, by rw [(h.frame hdc).1, hid]; exact hwait, hdone', hreach'⟩
  · have hlock := h.pending_source hpend hpend'
    rcases h.destroyLock_cases hlock.1 with hfree | hfree | ⟨hreq, hs'⟩
    · exact absurd hfree hlock.2
    · exact .inl ⟨c, hfree⟩
    · exact killAhead_request hheld hnamed hok hreq h hs'

theorem KillInv.step (hvalid : s.StatusValid) (h : StepCase s c s') (hok : s.KillInTime c) :
    KillInv s' where
  clean := fun e => h.clean_step hvalid (hinv.clean e)
  waits := by
    intro d e envid hwait hdone
    by_cases hd : d = c
    · subst hd
      exact h.awaits_cases hwait
    · rw [(h.frame hd).1] at hwait
      exact hinv.waits_other hvalid h hok hwait hdone
  ahead := fun e => hinv.ahead_step hkill hheld hnamed h hok

end

theorem KillInv.start {images : List Kern.Image} {k : Kern}
    (hboot : boot images = some k) : KillInv (start k) := by
  have hpend : ∀ e, ((Sys.start k).kern.envs e).envKillPending = false :=
    fun e => (boot_fresh hboot e).2.1
  refine ⟨fun e _ => hpend e, fun c e envid hwait => ?_, fun e _ h => ?_⟩
  · simp only [Sys.start] at hwait
    split at hwait <;> cases hwait
  · rw [hpend e] at h
    cases h

theorem killInv_of_killInTime
    (hrun : smp.ReachableUnder (fun s l => s.KillInTime l.cpu) s) : KillInv s := by
  apply hrun.invariant
  · rintro s ⟨_, _, hboot, rfl⟩
    exact KillInv.start hboot
  · intro s l s' hreach hinv hok hstep
    exact hinv.step (killsOwn_of_reachable hreach) (marksHeld_of_reachable hreach)
      (marksNamed_of_reachable hreach) (statusValid_of_reachable hreach) (step_cases hstep).2 hok

end Sys

/-- In every run in which remote kills are requested in time, and only free
slots are allocated, no kill request is orphaned and no CPU waits for a release
that is not ahead. -/
theorem noOrphan_of_killInTime {s : Sys}
    (hrun : smp.ReachableUnder (fun s l => s.KillInTime l.cpu) s) : s.NoOrphan :=
  (killInv_of_killInTime hrun).noOrphan

/-- Environment 0 forks environment 1 and lets it run on CPU 1. -/
def childRuns : List Label :=
  [.go 0, .go 0, .go 0, .go 0, .go 1, .go 1, .go 1,
   .call 0 .exofork, .go 0, .call 0 (.setEnvStatus 4097 1), .go 0, .go 0, .go 0,
   .go 1, .go 1, .go 1]

/-- The parent destroys the child while CPU 1 executes it in user mode. -/
theorem noOrphan_childRuns : ∃ s, smp.ReachableUnder (fun s l => s.KillInTime l.cpu) s ∧
      ((s.kern.envs 1).envKillPending = true ∧ (s.pc 0).awaits = some (1, 4097)) ∧
      s.NoOrphan := by
  obtain ⟨s, hs, hpend⟩ := smp_exists_of_run (fun s l => s.KillInTime l.cpu)
    (fun s => (s.kern.envs 1).envKillPending = true ∧ (s.pc 0).awaits = some (1, 4097)) [.plain]
    (childRuns ++ [.call 0 (.envDestroy 4097), .go 0, .go 0]) (by decide +kernel)
  exact ⟨s, hs, hpend, noOrphan_of_killInTime hs⟩

/-- The child yields and CPU 1 passes the check; then the parent destroys the
child, and `schedule` on CPU 1 deschedules it. -/
def killAfterCheck : List Label :=
  childRuns ++ [.call 1 .yield, .go 1, .go 1, .call 0 (.envDestroy 4097), .go 0, .go 0, .go 1]

/-- CPU 0 waits for a release that no CPU will perform. -/
theorem orphanedKill_reachable : ∃ s, smp.Reachable s ∧ ¬ s.NoOrphan := by
  obtain ⟨s, hs, hlive, hpend, hnone⟩ := smp_exists_of_run (fun _ _ => True)
    (fun s => (s.kern.envs 1).envStatus ≠ .free ∧ (s.kern.envs 1).envKillPending = true ∧
      ∀ c, (s.pc c).inFree ≠ some 1 ∧ s.canReachCheck c 1 = false) [.plain]
    killAfterCheck (by decide +kernel)
  refine ⟨s, hs, fun h => ?_⟩
  obtain ⟨c, hfree | hreach⟩ := h.pending 1 hlive hpend
  · exact (hnone c).1 hfree
  · rw [(hnone c).2] at hreach
    cases hreach

/-- Under every interleaving a running mark names a CPU that has the environment
as its current one or is about to switch to it. -/
theorem runningMark_current {s : Sys} {e : EnvIdx} (hreach : smp.Reachable s)
    (hrun : (s.kern.envs e).envRunning = true) :
    ∃ c, s.kern.runsOn e c ∧ (s.kern.curenv c = some e ∨ s.pc c = .envRun e) := by
  obtain ⟨c, hc⟩ := Sys.marksNamed_of_reachable hreach e hrun
  exact ⟨c, hc, (Sys.marksHeld_of_reachable hreach c e hc).imp_left And.left⟩

/-- The child that CPU 1 has taken up. -/
theorem runningMark_current_child : ∃ s c, smp.Reachable s ∧ s.kern.runsOn 1 c ∧
    (s.kern.curenv c = some 1 ∨ s.pc c = .envRun 1) := by
  obtain ⟨s, hs, hrun⟩ := smp_exists_of_run (fun _ _ => True)
    (fun s => (s.kern.envs 1).envRunning = true) [.plain] childRuns (by decide +kernel)
  obtain ⟨c, hc⟩ := runningMark_current hs hrun
  exact ⟨s, c, hs, hc⟩

end MosSmp
