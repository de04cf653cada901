import MosSmp.Smp.EnvEffect

/-!
The running marks `env_running` and `env_cpu_id`. They are meant as an
ownership record: an environment is marked with the CPU that executes it, and
`schedule` passes over environments marked with another CPU. The functions
`schedule`, `env_free` and `env_alloc` clear the mark of their environment
without looking at the CPU in it. `MarksKept` is the condition that no step
clears a mark of the other CPU; under it the marks are what they are meant to
be, in every interleaving.

Without the condition they are not. The receiver in `sys_ipc_recv` gives up
its mark before its CPU calls `schedule`. A sender can wake it in between, the
sender's CPU can pick it, and then `schedule` on the first CPU clears the mark
and picks it again.
-/

namespace MosSmp

open Lib Function Kern

namespace Pc

/-- From the moment `env_run` has switched to an environment until that
environment traps. -/
def executing : Pc → Bool
  | .popTf _ | .user => true
  | _ => false

/-- Positions at which the CPU works for its current environment `cur` and
has not begun to give it up. -/
def active (cur : EnvIdx) : Pc → Bool
  | .boot | .recvTail | .sched true | .schedLock true | .schedSpin | .envRun _ => false
  | .freeMem e _ | .freeLock e _ | .freed e _ => e ≠ cur
  | _ => true

end Pc

namespace Sys

def Executing (s : Sys) (c : CpuId) (e : EnvIdx) : Prop :=
  (s.pc c).executing = true ∧ s.kern.curenv c = some e

instance (s : Sys) (c : CpuId) (e : EnvIdx) : Decidable (s.Executing c e) :=
  inferInstanceAs (Decidable (_ ∧ _))

/-- No environment is executed by two CPUs, and an executed environment
carries the mark of its CPU. -/
def NoDoubleRun (s : Sys) : Prop :=
  (∀ c d e, s.Executing c e → s.Executing d e → c = d) ∧
    ∀ c e, s.Executing c e → s.kern.runsOn e c

/-- The step does not clear the mark of an environment that the other CPU
runs, and does not allocate a slot that any CPU runs. -/
def MarksKept (s : Sys) (c : CpuId) : Prop :=
  (∀ e ∈ s.descheduled c, ∀ d, d ≠ c → ¬ s.kern.runsOn e d) ∧
    (∀ e ∈ s.freeing c, ∀ d, d ≠ c → ¬ s.kern.runsOn e d) ∧
    ∀ e ∈ s.allocated c, ∀ d, ¬ s.kern.runsOn e d

instance (s : Sys) (c : CpuId) : Decidable (s.MarksKept c) :=
  @instDecidableAnd _ _ (Option.decidableForallMem _)
    (@instDecidableAnd _ _ (Option.decidableForallMem _) (Option.decidableForallMem _))

variable {s s' : Sys} {c d : CpuId} {e : EnvIdx}

/-- The mark of `e` is the same in both states. -/
def SameMark (s s' : Sys) (e : EnvIdx) : Prop :=
  (s'.kern.envs e).envRunning = (s.kern.envs e).envRunning ∧
    (s'.kern.envs e).envCpuId = (s.kern.envs e).envCpuId

theorem SameMark.runsOn_iff (h : SameMark s s' e) (d : CpuId) :
    s'.kern.runsOn e d ↔ s.kern.runsOn e d := by
  unfold runsOn
  rw [h.1, h.2]

theorem sameMark_of_envs (h : s'.kern.envs = s.kern.envs) : SameMark s s' e := by
  constructor <;> rw [h]

theorem sameMark_of_update {f : EnvIdx} {x : Env} (h : s'.kern.envs = update s.kern.envs f x)
    (hx : e = f → x.envRunning = (s.kern.envs f).envRunning ∧
      x.envCpuId = (s.kern.envs f).envCpuId) : SameMark s s' e := by
  unfold SameMark
  rw [h]
  by_cases hf : e = f
  · subst hf
    simpa using hx rfl
  · simp [update_of_ne hf]

theorem runsOn_assign (k : Kern) (c : CpuId) (e : EnvIdx) : (k.assign c e).runsOn e c := by
  unfold runsOn
  rw [envs_assign]
  simp

theorem sameMark_of_eq {x : Env} (h : s'.kern.envs e = x)
    (hx : x.envRunning = (s.kern.envs e).envRunning ∧
      x.envCpuId = (s.kern.envs e).envCpuId) : SameMark s s' e := by
  unfold SameMark
  rw [h]
  exact hx

/-- Everything a step of CPU `c` can do to the mark of an environment: leave
it, clear it in one of four places, or set it when `schedule` picks an
environment that carries no mark of another CPU. -/
theorem StepCase.mark_cases (h : StepCase s c s') (e : EnvIdx) : SameMark s s' e ∨
      ((∃ dstva, s.pc c = .recvLock dstva) ∧ s.kern.curenv c = some e) ∨
      e ∈ s.descheduled c ∨ e ∈ s.freeing c ∨ e ∈ s.allocated c ∨
      (s'.pc c = .envRun e ∧ ∀ d, d ≠ c → ¬ s.kern.runsOn e d) := by
  cases h.env_effect e with
  | data tf runs value from_ perm heq | status st hpc heq | take value srcva perm hpc hrecv heq
  | undo err hpc heq | wake hpc heq | killRemote hpc hfree hrun hcpu heq
  | killLocal hpc hfree hrun heq => exact .inl (sameMark_of_eq heq ⟨rfl, rfl⟩)
  | reset pgdir halloc | fork id asid parentId pgdir pri tf halloc =>
    exact .inr (.inr (.inr (.inr (.inl halloc))))
  | block dstva hpc hcur => exact .inr (.inl ⟨⟨dstva, hpc⟩, hcur⟩)
  | free hfree => exact .inr (.inr (.inr (.inl hfree)))
  | release hdes => exact .inr (.inr (.inl hdes))
  | assign hpc hpend hor =>
    rcases hor with hdes | hnot
    · exact .inr (.inr (.inl hdes))
    · exact .inr (.inr (.inr (.inr (.inr ⟨hpc, hnot⟩))))

/-- What the marks say: the current environment of an active CPU and the
choice of a CPU about to enter `env_run` carry that CPU's mark. -/
structure MarkInv (s : Sys) : Prop where
  active : ∀ c e, s.kern.curenv c = some e → (s.pc c).active e = true → s.kern.runsOn e c
  chosen : ∀ c e, s.pc c = .envRun e → s.kern.runsOn e c

theorem Kern.runsOn_unique {k : Kern} {e : EnvIdx} {c d : CpuId} (hc : k.runsOn e c)
    (hd : k.runsOn e d) : c = d :=
  Option.some.inj (hc.2.symm.trans hd.2)

theorem Goes.not_envRun {p q : Pc} (h : Goes s c p q) : q ≠ .envRun e := by
  cases h <;> simp

theorem Goes.active_source {p q : Pc} (h : Goes s c p q) (hcur : s.kern.curenv c = some e)
    (hact : q.active e = true) : p.active e = true ∨ p = .boot := by
  cases h with
  | boot => exact .inr rfl
  | kill hkill =>
    cases hkill.symm.trans hcur
    simp [Pc.active] at hact
  | yield | statusSelf => cases hact
  | _ => exact .inl rfl

theorem Returns.active_source {p : Pc} (h : Returns s c p) (hcur : s.kern.curenv c = some e) :
    p.active e = true := by
  cases h with
  | @freedOther f hne =>
    have hfe : f ≠ e := by
      rintro rfl
      exact hne hcur
    simpa [Pc.active] using hfe
  | _ => rfl

/-- Where an active CPU comes from: it was active for the same environment
before the step, which left the mark alone or was an `env_alloc`; or it has
just switched to the environment; or it was still booting. -/
theorem StepCase.active_cases (h : StepCase s c s') (hcur : s'.kern.curenv c = some e)
    (hact : (s'.pc c).active e = true) :
    (s.kern.curenv c = some e ∧ (s.pc c).active e = true ∧ (SameMark s s' e ∨ e ∈ s.allocated c)) ∨
      (s.pc c = .envRun e ∧ SameMark s s' e) ∨
      (s.pc c = .boot ∧ s.kern.curenv c = some e) := by
  cases h with
  | tick tf hpc =>
    refine .inl ⟨by simpa [Sys.tick] using hcur, by rw [hpc]; rfl, ?_⟩
    exact .inl (sameMark_of_envs rfl)
  | enter tf call hpc =>
    refine .inl ⟨by simpa [Sys.enter] using hcur, by rw [hpc]; rfl, ?_⟩
    exact .inl (sameMark_of_envs rfl)
  | goes p hgo =>
    have hcur : s.kern.curenv c = some e := by simpa using hcur
    rcases hgo.active_source hcur (by simpa using hact) with hp | hp
    · exact .inl ⟨hcur, hp, .inl (sameMark_of_envs rfl)⟩
    · exact .inr (.inr ⟨hp, hcur⟩)
  | returns r hret =>
    have hcur : s.kern.curenv c = some e := by simpa using hcur
    exact .inl ⟨hcur, hret.active_source hcur, .inl (sameMark_of_envs rfl)⟩
  | block | recv => simp [Pc.active] at hact
  | forkFails hpc _ hfork | forks hpc _ hfork =>
    refine .inl ⟨by simpa [exofork_curenv hfork] using hcur, by rw [hpc]; rfl, ?_⟩
    by_cases hfirst : s.kern.envFreeList.first = some e
    · exact .inr (by simp [allocated, hpc, hfirst])
    · have heq := exofork_envs_ne e hfork hfirst
      exact .inl (sameMark_of_eq heq ⟨rfl, rfl⟩)
  | installOwn hpc =>
    refine .inl ⟨by simpa using hcur, by rw [hpc]; rfl, ?_⟩
    exact .inl (sameMark_of_envs rfl)
  | installOther hpc | sendTake hpc | sendUndo hpc | sendFill hpc | sendWake hpc
  | destroyRemote hpc | destroyLocal hpc =>
    refine .inl ⟨by simpa using hcur, by rw [hpc]; rfl, ?_⟩
    exact .inl (sameMark_of_update rfl (fun _ => ⟨rfl, rfl⟩))
  | setStatus hpc =>
    refine .inl ⟨by simpa using hcur, by rw [hpc]; rfl, ?_⟩
    exact .inl (sameMark_of_update (envs_statusSection ..) (fun _ => ⟨rfl, rfl⟩))
  | freeMem hpc =>
    refine .inl ⟨by simpa using hcur, by simpa [hpc, Pc.active] using hact, ?_⟩
    exact .inl (sameMark_of_envs rfl)
  | @free f kind hpc =>
    have hne : f ≠ e := by simpa [Pc.active] using hact
    refine .inl ⟨by simpa using hcur, by simpa [hpc, Pc.active] using hne, ?_⟩
    exact .inl (sameMark_of_update (envs_freeSection ..) (fun h => absurd h.symm hne))
  | leave => simp [curenv_setCurenv] at hcur
  | @lockSched yield hpc =>
    refine .inl ⟨hcur, ?_, .inl (sameMark_of_envs rfl)⟩
    cases yield
    · rw [hpc]
      rfl
    · simp [noteScheduleReady, Pc.active] at hact
  | run hpc =>
    simp only [goto_kern, setKern_kern, curenv_switchTo, update_self, Option.some.injEq] at hcur
    subst hcur
    refine .inr (.inl ⟨hpc, ?_⟩)
    constructor <;> simp [envs_switchTo]
  | halt hpc => simp [hpc, Pc.active] at hact
  | _ => simp [Pc.active] at hact

theorem MarkInv.start {images : List Kern.Image} {k : Kern} (hboot : boot images = some k) :
    MarkInv (Sys.start k) := by
  have hcur := boot_curenv hboot
  refine ⟨fun c e h _ => ?_, fun c e hpc => ?_⟩
  · have hnone : k.curenv c = some e := h
    rw [hcur c] at hnone
    cases hnone
  · simp only [Sys.start] at hpc
    split at hpc <;> cases hpc

section

variable (hinv : MarkInv s)
include hinv

/-- A step of one CPU keeps the marks of the other. -/
theorem MarkInv.runsOn_other (h : StepCase s c s') (hok : s.MarksKept c) (hne : d ≠ c)
    (hrun : s.kern.runsOn e d) : s'.kern.runsOn e d := by
  rcases h.mark_cases e with
    hsame | ⟨⟨dstva, hpc⟩, hcur⟩ | hdes | hfree | halloc | ⟨_, hnot⟩
  · exact (hsame.runsOn_iff d).mpr hrun
  · have hown : s.kern.runsOn e c := hinv.active c e hcur (by simp [hpc, Pc.active])
    exact absurd (Kern.runsOn_unique hrun hown) hne
  · exact absurd hrun (hok.1 e hdes d hne)
  · exact absurd hrun (hok.2.1 e hfree d hne)
  · exact absurd hrun (hok.2.2 e halloc d)
  · exact absurd hrun (hnot d hne)

/-- The mark of the current environment of an active CPU survives a step of
that CPU after which the CPU is still active for it. -/
theorem MarkInv.active_own (hboot : s.BootIdle) (h : StepCase s c s') (hok : s.MarksKept c)
    (hcur : s'.kern.curenv c = some e) (hact : (s'.pc c).active e = true) : s'.kern.runsOn e c := by
  rcases h.active_cases hcur hact with ⟨hcur, hact, hmark⟩ | ⟨hpc, hsame⟩ | ⟨hpc, hcur⟩
  · have hrun := hinv.active c e hcur hact
    rcases hmark with hsame | halloc
    · exact (hsame.runsOn_iff c).mpr hrun
    · exact absurd hrun (hok.2.2 e halloc c)
  · exact (hsame.runsOn_iff c).mpr (hinv.chosen c e hpc)
  · rw [hboot c hpc] at hcur
    cases hcur

theorem MarkInv.chosen_own (h : StepCase s c s') (hpc : s'.pc c = .envRun e) :
    s'.kern.runsOn e c := by
  cases h with
  | switchRun | spinRun =>
    simp only [goto_pc, update_self, Pc.envRun.injEq] at hpc
    subst hpc
    exact runsOn_assign _ _ _
  | @stay yield f hlock hsw hcur =>
    simp only [goto_pc, update_self, Pc.envRun.injEq] at hpc
    subst hpc
    have hyield : yield = false := by
      cases yield
      · rfl
      · simp [switches] at hsw
    exact hinv.active c f hcur (by rw [hlock, hyield]; rfl)
  | halt => exact hinv.chosen c e hpc
  | goes p hgo =>
    simp only [goto_pc, update_self] at hpc
    exact absurd hpc hgo.not_envRun
  | tick => simp [Sys.tick] at hpc; split at hpc <;> cases hpc
  | enter => simp [Sys.enter] at hpc
  | lockSched => simp [noteScheduleReady] at hpc
  | _ => simp at hpc

theorem MarkInv.step (hboot : s.BootIdle) (h : StepCase s c s') (hok : s.MarksKept c) :
    MarkInv s' := by
  refine ⟨fun d e hcur hact => ?_, fun d e hpc => ?_⟩
  all_goals by_cases hd : d = c
  · subst hd
    exact hinv.active_own hboot h hok hcur hact
  · obtain ⟨hpc, hcur'⟩ := h.frame hd
    rw [hpc] at hact
    rw [hcur'] at hcur
    exact hinv.runsOn_other h hok hd (hinv.active d e hcur hact)
  · subst hd
    exact hinv.chosen_own h hpc
  · rw [(h.frame hd).1] at hpc
    exact hinv.runsOn_other h hok hd (hinv.chosen d e hpc)

theorem MarkInv.noDoubleRun : s.NoDoubleRun := by
  have hmark : ∀ c e, s.Executing c e → s.kern.runsOn e c := by
    rintro c e ⟨_, hcur⟩
    apply hinv.active c e hcur
    cases h : s.pc c <;> simp_all [Pc.executing, Pc.active]
  exact ⟨fun c d e hc hd => Kern.runsOn_unique (hmark c e hc) (hmark d e hd), hmark⟩

end

theorem markInv_of_marksKept (h : smp.ReachableUnder (fun s l => s.MarksKept l.cpu) s) :
    MarkInv s := by
  apply h.invariant
  · rintro s ⟨_, _, hboot, rfl⟩
    exact MarkInv.start hboot
  · intro s l s' hreach hinv hok hstep
    exact hinv.step (bootIdle_of_reachable hreach) (step_cases hstep).2 hok

end Sys

/-- In every run in which no step takes away a running mark of the other CPU,
no environment is ever executed by both CPUs, and every executed environment
is marked as running on its CPU. -/
theorem noDoubleRun_of_marksKept {s : Sys}
    (hrun : smp.ReachableUnder (fun s l => s.MarksKept l.cpu) s) : s.NoDoubleRun :=
  (Sys.markInv_of_marksKept hrun).noDoubleRun

/-- Both CPUs start, each executes an environment of its own. -/
def bothStart : List Label :=
  [.go 0, .go 0, .go 0, .go 0, .go 1, .go 1, .go 1, .go 1, .go 1]

theorem noDoubleRun_bothStart : ∃ s, smp.ReachableUnder (fun s l => s.MarksKept l.cpu) s ∧
      (s.Executing 0 1 ∧ s.Executing 1 0) ∧ s.NoDoubleRun := by
  obtain ⟨s, hs, hexec⟩ := smp_exists_of_run (fun s l => s.MarksKept l.cpu)
    (fun s => s.Executing 0 1 ∧ s.Executing 1 0) [.plain, .plain] bothStart
    (by decide +kernel)
  exact ⟨s, hs, hexec, noDoubleRun_of_marksKept hs⟩

/-- Environment 1 receives on CPU 0 and stops short of `schedule`; environment
0 sends to it on CPU 1 and then receives too, so that CPU 1 picks environment
1; then CPU 0 enters `schedule`. -/
def wakeBeforeSchedule : List Label :=
  [.call 0 (.ipcRecv 0), .go 0, .go 0,
   .call 1 (.ipcTrySend 4097 7 0 0), .go 1, .go 1, .go 1, .go 1, .go 1,
   .call 1 (.ipcRecv 0), .go 1, .go 1, .go 1, .go 1, .go 1, .go 1, .go 1,
   .go 0, .go 0, .go 0, .go 0, .go 0]

/-- Two CPUs execute the same environment in user mode. -/
theorem doubleRun_reachable : ∃ s, smp.Reachable s ∧ ¬ s.NoDoubleRun := by
  obtain ⟨s, hs, h0, h1⟩ := smp_exists_of_run (fun _ _ => True)
    (fun s => s.Executing 0 1 ∧ s.Executing 1 1) [.plain, .plain]
    (bothStart ++ wakeBeforeSchedule) (by decide +kernel)
  refine ⟨s, hs, fun h => ?_⟩
  have heq := h.1 0 1 1 h0 h1
  revert heq
  decide

end MosSmp
