import MosSmp.Smp.Context

/-!
Environments that are bound to a CPU. Only the kernel binds one, before the
CPUs start; afterwards a binding can only be lost. The scheduler chooses an
environment under the lock and `env_run` takes it up later, and in between the
choice stays right.
-/

namespace MosSmp

open Lib

namespace Sys

variable {s s' t : Sys} {c : CpuId} {e : EnvIdx} {l : Label}

/-- The CPU that the environment is bound to. -/
def pinned (s : Sys) (e : EnvIdx) : Option CpuId :=
  (s.kern.envs e).envPinnedCpu

theorem EnvEffect.pinned (h : EnvEffect s c s' e) :
    s'.pinned e = s.pinned e ∨ s'.pinned e = none := by
  unfold Sys.pinned
  cases h with
  | reset pgdir _ heq | fork id asid parentId pgdir pri tf _ _ _ _ heq | free _ heq =>
    right
    rw [heq]
    rfl
  | _ =>
    rename_i heq
    exact .inl (by rw [heq])

/-- No step binds an environment. -/
theorem pinned_step {k : CpuId} (hstep : s.step l = some s') (hpin : s'.pinned e = some k) :
    s.pinned e = some k := by
  rcases ((step_cases hstep).2.env_effect e).pinned with hsame | hnone
  · rw [← hsame]
    exact hpin
  · rw [hnone] at hpin
    cases hpin

variable {ok : Sys → Label → Prop}

theorem unpinned_leads (hrun : smp.Leads ok s t) (hnone : s.pinned e = none) :
    t.pinned e = none := by
  induction hrun with
  | refl => exact hnone
  | step l _ hstep _ ih =>
    apply ih
    rw [Option.eq_none_iff_forall_ne_some] at hnone ⊢
    intro k hpin
    exact hnone k (pinned_step hstep hpin)

theorem pick_pinned {k : Kern} {d : CpuId} (h : (k.pick c).result = some e)
    (hpin : (k.envs e).envPinnedCpu = some d) : d = c := by
  have hfound : k.pick c = .found e := by
    cases hpick : k.pick c with
    | found =>
      rw [hpick] at h
      rw [Option.some.inj h]
    | exhausted | cyclic =>
      rw [hpick] at h
      cases h
  have helig := Kern.pick_eligible _ _ _ hfound
  unfold Kern.eligible at helig
  simp only [Bool.and_eq_true, decide_eq_true_eq] at helig
  rcases helig.1.1 with hnone | hsome
  · rw [hpin] at hnone
    cases hnone
  · rw [hpin] at hsome
    exact Option.some.inj hsome

theorem envPinnedCpu_release {k : Kern} :
    ((k.release c).envs e).envPinnedCpu = (k.envs e).envPinnedCpu := by
  by_cases hcur : k.curenv c = some e
  · rw [Kern.envs_release k c e hcur, Function.update_self]
  · rw [Kern.envs_release_ne k c e hcur]

/-- What the scheduler picks for a CPU may run there. -/
theorem picked_pinned {d : CpuId} (h : e ∈ s.picked c) (hpin : s.pinned e = some d) : d = c := by
  unfold picked at h
  split at h
  · split at h
    · refine pick_pinned h ?_
      rw [envPinnedCpu_release]
      exact hpin
    · cases h
  · exact pick_pinned h hpin
  · cases h

/-- Every CPU has only environments that may run there, and is only about to
switch to such. -/
def PinsKept (s : Sys) : Prop :=
  ∀ c e d, s.Busy c e → s.pinned e = some d → d = c

theorem pinsKept_of_reachable (hreach : smp.ReachableUnder ok s) : s.PinsKept := by
  apply hreach.invariant
  · rintro s ⟨_, _, hboot, rfl⟩ c e d hbusy _
    rcases hbusy with hcur | htarget
    · cases (Kern.boot_curenv hboot c).symm.trans hcur
    · simp only [Sys.start] at htarget
      split at htarget <;> cases htarget
  · intro s l s' _ hinv _ hstep c e d hbusy hpin
    have hpin' := pinned_step hstep hpin
    have hcase := (step_cases hstep).2
    by_cases hc : c = l.cpu
    · subst hc
      rcases hcase.busy_cases hbusy with hbefore | hpicked
      · exact hinv _ e d hbefore hpin'
      · exact picked_pinned hpicked hpin'
    · obtain ⟨hpc, hcur⟩ := hcase.frame hc
      unfold Busy at hbusy
      rw [hpc, hcur] at hbusy
      exact hinv c e d hbusy hpin'

/-- The step of `l` creates `e` in `sys_exofork`. -/
def Creates (s : Sys) (l : Label) (e : EnvIdx) : Prop :=
  ∃ cur vm k, s.pc l.cpu = .sys .exofork ∧ s.kern.curenv l.cpu = some cur ∧ l.act = .run vm ∧
    s.kern.exofork l.cpu cur vm.pgdir = (.ok e, k)

theorem Creates.unpinned (h : s.Creates l e) (hstep : s.step l = some s') : s'.pinned e = none := by
  obtain ⟨cur, vm, _, hpc, hcur, hact, hfork⟩ := h
  have hrun : s.step l = some (s.sysExofork l.cpu cur vm.pgdir) := by
    unfold Sys.step cpuStep
    simp [(step_cases hstep).1, hact, hpc, hcur, runStep, sysStep]
  cases hrun.symm.trans hstep
  obtain ⟨_, _, _, _, _, rfl⟩ := Kern.exofork_ok e hfork
  unfold sysExofork pinned
  rw [hfork]
  change (Function.update s.kern.envs e _ e).envPinnedCpu = none
  rw [Function.update_self]
  rfl

end Sys

open Sys

/-- An environment that is bound to a CPU is never executed by another one or
handed to its `env_run`, and an environment that `sys_exofork` creates is not
bound, at any time of its life. -/
theorem pinning_respected {s : Sys} (hreach : smp.Reachable s) :
    (∀ c e d, s.pc c = .envRun e → s.pinned e = some d → d = c) ∧
      (∀ c e d, s.kern.curenv c = some e → s.pinned e = some d → d = c) ∧
      ∀ l s' e t, s.Creates l e → s.step l = some s' → smp.Leads (fun _ _ => True) s' t →
        t.pinned e = none := by
  have hpins := pinsKept_of_reachable hreach
  refine ⟨fun c e d hpc => hpins c e d (.inr ?_), fun c e d hcur => hpins c e d (.inl hcur),
    fun l s' e t hcreates hstep hrun => unpinned_leads hrun (hcreates.unpinned hstep)⟩
  rw [hpc]
  rfl

/-- The file server runs on CPU 0, to which it is bound. -/
theorem pinning_respected_fsServ :
    ∃ s, smp.Reachable s ∧ s.kern.curenv 0 = some 0 ∧ s.pinned 0 = some 0 ∧
      ∀ c, s.kern.curenv c = some 0 → (0 : CpuId) = c := by
  obtain ⟨s, hs, hcur, hpin⟩ := smp_exists_of_run (fun _ _ => True)
    (fun s => s.kern.curenv 0 = some 0 ∧ s.pinned 0 = some 0)
    [{ Kern.Image.plain with isFsServ := true }] [.go 0, .go 0, .go 0] (by decide +kernel)
  exact ⟨s, hs, hcur, hpin, fun c hc => (pinning_respected hs).2.1 c 0 0 hc hpin⟩

end MosSmp
