import MosSmp.Smp.RunQueue
import MosSmp.Smp.Context

/-!
The assertion at the start of `env_run`. `schedule` chooses a runnable
environment under the lock and gives the lock back before it calls `env_run`.
In between the other CPU can change the status of the chosen environment, and
`env_run` then stops the kernel. Nothing else can make the assertion fail, as
long as the run queue holds the runnable environments.
-/

namespace MosSmp

open Lib Function

namespace Sys

variable {s s' : Sys} {c d : CpuId} {e : EnvIdx}

/-- The step changes only the status of a live environment that no other CPU is
about to run, and finds the status it relies on. -/
def ChoiceKept (s : Sys) (c : CpuId) : Prop :=
  (∀ e ∈ s.changing c, s.kern.status e ≠ .free ∧ ∀ d, d ≠ c → (s.pc d).target ≠ some e) ∧
    s.QueueTrusted c

instance (s : Sys) (c : CpuId) : Decidable (s.ChoiceKept c) :=
  @instDecidableAnd _ _ (Option.decidableForallMem _) _

/-- What `env_run` is called with is runnable, and the queues are exact. -/
structure ChoiceInv (s : Sys) : Prop where
  queues : s.QueuesExact
  chosen : ∀ c e, (s.pc c).target = some e → s.kern.status e = .runnable
  up : s.halted = false

/-- The status of a runnable environment changes only in the steps that
`changing` lists. -/
theorem StepCase.runnable_kept (h : StepCase s c s') (hrun : s.kern.status e = .runnable)
    (hkept : e ∉ s.changing c)
    (hfreeList : s.kern.envFreeList.Holds (fun f => s.kern.status f = .free)) :
    s'.kern.status e = .runnable := by
  have hupdate : ∀ {f : EnvIdx} {st : EnvStatus}, f ≠ e →
      s'.kern.status = update s.kern.status f st → s'.kern.status e = .runnable := by
    intro f st hne hst
    rw [hst, update_of_ne hne.symm]
    exact hrun
  have hchanging : ∀ {f : EnvIdx}, f ∈ s.changing c → f ≠ e := by
    rintro f hf rfl
    exact hkept hf
  cases h.queue_effect with
  | same hst | rotate f _ hst =>
    rw [hst]
    exact hrun
  | block f dstva hpc hcur hst => exact hupdate (hchanging (by simp [changing, hpc, hcur])) hst
  | status f st hpc hst | wake f hpc hst | free f kind hpc hst =>
    exact hupdate (hchanging (by simp [changing, hpc])) hst
  | fork f hpc hfirst hst =>
    refine hupdate ?_ hst
    rintro rfl
    cases (hfreeList.first hfirst).symm.trans hrun

/-- A CPU that is about to call `env_run` has found the environment on the run
queue or goes on with its runnable one. -/
theorem StepCase.chosen_runnable (h : StepCase s c s') (hup : s'.halted = false)
    (hq : s'.kern.envSchedList.Holds (fun f => s'.kern.status f = .runnable))
    (ht : (s'.pc c).target = some e) : s'.kern.status e = .runnable := by
  cases h with
  | switchRun hpc hsw hpick =>
    obtain rfl : _ = e := by simpa [Pc.target] using ht
    exact Kern.pick_holds (s.kern.release c) c _ hq hpick
  | spinRun hpc hpick =>
    obtain rfl : _ = e := by simpa [Pc.target] using ht
    exact Kern.pick_holds s.kern c _ hq hpick
  | stay hpc hsw hcur =>
    obtain rfl : _ = e := by simpa [Pc.target] using ht
    unfold Kern.switches at hsw
    simp only [hcur, Bool.or_eq_false_iff, decide_eq_false_iff_not, not_not] at hsw
    exact hsw.2
  | halt => cases hup
  | goes p hgo =>
    rw [goto_pc, update_self] at ht
    cases p with
    | envRun => exact absurd rfl hgo.not_envRun
    | _ => cases ht
  | tick =>
    simp only [Sys.tick, goto_pc, update_self] at ht
    split at ht <;> cases ht
  | enter => simp [Sys.enter, Pc.target] at ht
  | lockSched => simp [noteScheduleReady, Pc.target] at ht
  | _ => simp [Pc.target] at ht

/-- Only a failed assertion stops the kernel. -/
theorem StepCase.up (h : StepCase s c s') (hinv : ChoiceInv s) : s'.halted = false := by
  cases h with
  | halt hpc hst =>
    refine absurd (hinv.chosen c _ ?_) hst
    rw [hpc]
    rfl
  | run =>
    unfold noteSave
    split <;> exact hinv.up
  | _ => exact hinv.up

theorem ChoiceInv.step (hinv : ChoiceInv s) (hvalid : s.StatusValid) (h : StepCase s c s')
    (hok : s.ChoiceKept c) : ChoiceInv s' := by
  have hlive : ∀ e ∈ s.changing c, s.kern.status e ≠ .free := fun e he => (hok.1 e he).1
  have hqueues : s'.QueuesExact := ⟨h.schedList_step hvalid hlive hok.2 hinv.queues.2 hinv.queues.1,
      h.freeList_step hvalid hlive hinv.queues.2⟩
  have hup : s'.halted = false := h.up hinv
  refine ⟨hqueues, fun d e ht => ?_, hup⟩
  by_cases hd : d = c
  · subst hd
    exact h.chosen_runnable hup hqueues.1 ht
  · rw [(h.frame hd).1] at ht
    exact h.runnable_kept (hinv.chosen d e ht) (fun he => (hok.1 e he).2 d hd ht) hinv.queues.2

end Sys

open Sys

/-- In every run in which no step changes the status of an environment that the
other CPU is about to run, `env_run` is only called with runnable
environments, and the kernel never stops. -/
theorem envRun_runnable {s : Sys} (hrun : smp.ReachableUnder (fun s l => s.ChoiceKept l.cpu) s) :
    (∀ c e, s.pc c = .envRun e → s.kern.status e = .runnable) ∧ s.halted = false := by
  have hinv : ChoiceInv s := by
    apply hrun.invariant
    · rintro s ⟨_, _, hboot, rfl⟩
      obtain ⟨hfree, hsched⟩ := Kern.boot_queues hboot
      refine ⟨⟨hsched, hfree⟩, fun c e ht => ?_, rfl⟩
      simp only [Sys.start] at ht
      split at ht <;> cases ht
    · intro s l s' hreach hinv hok hstep
      exact hinv.step (statusValid_of_reachable hreach) (step_cases hstep).2 hok
  refine ⟨fun c e hpc => hinv.chosen c e ?_, hinv.up⟩
  rw [hpc]
  rfl

/-- A parent lets its child run, and CPU 1 chooses it. -/
def childChosen : List Label :=
  [.go 0, .go 0, .go 0, .go 0, .go 1, .go 1, .go 1,
   .call 0 .exofork, .go 0, .call 0 (.setEnvStatus 4097 1), .go 0, .go 0, .go 0, .go 1]

theorem envRun_runnable_child :
    ∃ s, smp.ReachableUnder (fun s l => s.ChoiceKept l.cpu) s ∧ s.pc 1 = .envRun 1 ∧
      s.kern.status 1 = .runnable := by
  obtain ⟨s, hs, hpc⟩ := smp_exists_of_run (fun s l => s.ChoiceKept l.cpu)
    (fun s => (s.pc 1).target = some 1) [.plain] childChosen (by decide +kernel)
  have hpc : s.pc 1 = .envRun 1 := by
    cases hpc' : s.pc 1 with
    | envRun =>
      rw [hpc'] at hpc
      rw [Option.some.inj hpc]
    | _ =>
      rw [hpc'] at hpc
      cases hpc
  exact ⟨s, hs, hpc, (envRun_runnable hs).1 1 1 hpc⟩

/-- The parent stops the child before CPU 1 has called `env_run`. -/
theorem envRun_asserts_reachable : ∃ s, smp.Reachable s ∧ s.halted = true :=
  smp_exists_of_run (fun _ _ => True) (fun s => s.halted = true) [.plain]
    (childChosen ++ [.call 0 (.setEnvStatus 4097 2), .go 0, .go 0, .go 1]) (by decide +kernel)

end MosSmp
