import MosSmp.Smp.Marks

/-!
Which environment a context belongs to. When `env_run` saves the trapframe of
its CPU into the slot `cpu_curenv()`, that slot should still hold the
environment that trapped on this CPU: the same id, and no release since. The
slot of an environment can be released and handed out again by the other CPU
while it is still a `curenv`, because `env_destroy` decides from
`env_running` alone; an environment that blocked in `sys_ipc_recv` is not
running, but it stays the `curenv` of its CPU throughout the idle loop of
`schedule`.

`SlotsIdle` is the condition that excludes this: the slots released and
allocated by a step are not in use by the other CPU's kernel. Under it every
save goes to the right environment.
-/

namespace MosSmp

open Lib

namespace Pc

/-- The CPU is about to save its trapframe in `env_run`. -/
def saving : Pc → Bool
  | .envRun _ => true
  | _ => false

/-- The CPU has trapped and has not yet switched to an environment. -/
def inKernel : Pc → Bool
  | .boot | .user | .popTf _ => false
  | _ => true

/-- The trapframe of the CPU may still be saved into the slot `cur`. -/
def unsaved (cur : EnvIdx) : Pc → Bool
  | .freed e _ => e ≠ cur
  | pc => pc.inKernel

end Pc

namespace Sys

/-- A save goes to the incarnation that trapped on the CPU. -/
def SavesIntoTrapped (s : Sys) : Prop :=
  ∀ c e, (s.pc c).saving = true → s.kern.curenv c = some e →
    s.hist.trapped c = ((s.kern.envs e).envId, s.hist.frees e)

/-- No CPU in the kernel has its current environment in a slot that another
CPU releases or allocates. -/
def SlotsIdle (s : Sys) (c : CpuId) : Prop :=
  (∀ e ∈ s.freeing c, ∀ d, d ≠ c → (s.pc d).inKernel = true → s.kern.curenv d ≠ some e) ∧
    ∀ e ∈ s.allocated c, ∀ d, d ≠ c → (s.pc d).inKernel = true → s.kern.curenv d ≠ some e

instance (s : Sys) (c : CpuId) : Decidable (s.SlotsIdle c) :=
  @instDecidableAnd _ _ (Option.decidableForallMem _) (Option.decidableForallMem _)

variable {s s' : Sys} {c d : CpuId} {e : EnvIdx}

/-- Slot `e` holds the same incarnation in both states. -/
def SameIncarnation (s s' : Sys) (e : EnvIdx) : Prop :=
  (s'.kern.envs e).envId = (s.kern.envs e).envId ∧ s'.hist.frees e = s.hist.frees e

/-- The trapframe of a CPU in the kernel belongs to the incarnation in the
slot it will be saved into. -/
def TrapInv (s : Sys) : Prop :=
  ∀ c e, s.kern.curenv c = some e → (s.pc c).unsaved e = true →
    s.hist.trapped c = ((s.kern.envs e).envId, s.hist.frees e)

theorem Goes.unsaved_source {p q : Pc} (h : Goes s c p q) (hq : q.unsaved e = true) :
    p.unsaved e = true ∨ p = .boot := by
  cases h with
  | boot => exact .inr rfl
  | pop => cases hq
  | _ => exact .inl rfl

/-- No context was made, saved or installed between the two states. -/
def SameContexts (s s' : Sys) : Prop :=
  s'.hist.trapped = s.hist.trapped ∧ s'.hist.tfStamp = s.hist.tfStamp ∧
    s'.hist.envStamp = s.hist.envStamp ∧ s'.hist.latest = s.hist.latest

section

variable (h : StepCase s c s')
include h

theorem StepCase.frees_cases (e : EnvIdx) : s'.hist.frees e = s.hist.frees e ∨ e ∈ s.freeing c := by
  cases h with
  | @free f kind hpc =>
    by_cases hf : e = f
    · subst hf
      right
      simp [freeing, hpc]
    · left
      simp [noteFree, Function.update_of_ne hf]
  | run => exact .inl (by simp)
  | _ => exact .inl rfl

/-- Only `env_free` and `env_alloc` end an incarnation. -/
theorem StepCase.incarnation_cases (e : EnvIdx) :
    SameIncarnation s s' e ∨ e ∈ s.freeing c ∨ e ∈ s.allocated c := by
  rcases h.frees_cases e with hfrees | hfree
  · cases h.env_effect e with
    | reset pgdir halloc | fork id asid parentId pgdir pri tf halloc => exact .inr (.inr halloc)
    | data tf runs value from_ perm heq | block dstva hpc hcur heq | status st hpc heq
    | take value srcva perm hpc hrecv heq | undo err hpc heq | wake hpc heq
    | killRemote hpc hfree hrun hcpu heq | killLocal hpc hfree hrun heq | release hdes heq
    | assign hpc hpend hor heq => exact .inl ⟨by rw [heq], hfrees⟩
    | free hfree => exact .inr (.inl hfree)
  · exact .inr (.inl hfree)

theorem StepCase.trapped_frame (hne : d ≠ c) : s'.hist.trapped d = s.hist.trapped d := by
  cases h with
  | tick => simp [Sys.tick, noteTrap, hne]
  | enter => simp [Sys.enter, noteTrap, hne]
  | run => simp
  | _ => rfl

theorem StepCase.sameIncarnation (hfree : s.freeing c = none) (halloc : s.allocated c = none) :
    SameIncarnation s s' e := by
  rcases h.incarnation_cases e with hsame | hmem | hmem
  · exact hsame
  · rw [hfree] at hmem
    cases hmem
  · rw [halloc] at hmem
    cases hmem

/-- Where a CPU with an unsaved context comes from: it has just trapped, or
it had the same context before the step, or it was still booting. -/
theorem StepCase.unsaved_cases (hcur : s'.kern.curenv c = some e)
    (hpc' : (s'.pc c).unsaved e = true) :
    (s'.hist.trapped c = ((s'.kern.envs e).envId, s'.hist.frees e) ∧
      s'.hist.tfStamp c = s'.hist.latest e) ∨
      (s.kern.curenv c = some e ∧ (s.pc c).unsaved e = true ∧
        SameContexts s s' ∧ SameIncarnation s s' e) ∨
      (s.pc c = .boot ∧ s.kern.curenv c = some e) := by
  have hinc : s.freeing c = none → s.allocated c = none → SameIncarnation s s' e :=
    h.sameIncarnation
  cases h with
  | tick tf hpc hcur' =>
    cases hcur'.symm.trans (by simpa [Sys.tick] using hcur)
    exact .inl (by simp [Sys.tick, noteTrap])
  | enter tf call hpc hcur' =>
    cases hcur'.symm.trans (by simpa [Sys.enter] using hcur)
    exact .inl (by simp [Sys.enter, noteTrap])
  | goes p hgo =>
    have hcur : s.kern.curenv c = some e := by simpa using hcur
    rcases hgo.unsaved_source (by simpa using hpc') with hp | hp
    · exact .inr (.inl ⟨hcur, hp, ⟨rfl, rfl, rfl, rfl⟩, rfl, rfl⟩)
    · exact .inr (.inr ⟨hp, hcur⟩)
  | block hpc =>
    refine .inr (.inl ⟨by simpa using hcur, ?_, ⟨rfl, rfl, rfl, rfl⟩, rfl, rfl⟩)
    rcases hpc with hpc | ⟨ch, hpc⟩ <;> rw [hpc] <;> rfl
  | recv hpc | setStatus hpc | sendTake hpc | sendFill hpc | destroyRemote hpc | destroyLocal hpc
  | switchRun hpc | switchSpin hpc | spinRun hpc =>
    refine .inr (.inl ⟨by simpa using hcur, by rw [hpc]; rfl, ⟨rfl, rfl, rfl, rfl⟩, ?_⟩)
    exact hinc (by simp [freeing, hpc]) (by simp [allocated, hpc])
  | freeMem hpc | stay hpc =>
    exact .inr (.inl ⟨by simpa using hcur, by rw [hpc]; rfl, ⟨rfl, rfl, rfl, rfl⟩, rfl, rfl⟩)
  | @free f kind hpc =>
    have hne : f ≠ e := by simpa [Pc.unsaved] using hpc'
    refine .inr (.inl ⟨by simpa using hcur, by rw [hpc]; rfl, ⟨rfl, rfl, rfl, rfl⟩, ?_, ?_⟩)
    · simp [Kern.envs_freeSection, Function.update_of_ne hne.symm]
    · simp [noteFree, Function.update_of_ne hne.symm]
  | leave => simp [Kern.curenv_setCurenv] at hcur
  | lockSched hpc | spin hpc =>
    exact .inr (.inl ⟨hcur, by rw [hpc]; rfl, ⟨rfl, rfl, rfl, rfl⟩, rfl, rfl⟩)
  | halt => exact .inr (.inl ⟨hcur, hpc', ⟨rfl, rfl, rfl, rfl⟩, rfl, rfl⟩)
  | _ => simp [Pc.unsaved, Pc.inKernel] at hpc'

end

theorem Pc.inKernel_of_unsaved {p : Pc} (h : p.unsaved e = true) : p.inKernel = true := by
  cases p <;> first | exact h | rfl

theorem TrapInv.step (hinv : TrapInv s) (hboot : s.BootIdle) (h : StepCase s c s')
    (hok : s.SlotsIdle c) : TrapInv s' := by
  intro d e hcur hpc
  by_cases hd : d = c
  · subst hd
    rcases h.unsaved_cases hcur hpc with
      ⟨htrap, _⟩ | ⟨hcur, hpc, hctx, hid, hfrees⟩ | ⟨hpc, hcur⟩
    · exact htrap
    · rw [hctx.1, hid, hfrees]
      exact hinv d e hcur hpc
    · rw [hboot d hpc] at hcur
      cases hcur
  · rw [(h.frame hd).1] at hpc
    rw [(h.frame hd).2] at hcur
    have hker := Pc.inKernel_of_unsaved hpc
    rw [h.trapped_frame hd]
    rcases h.incarnation_cases e with ⟨hid, hfrees⟩ | hfree | halloc
    · rw [hid, hfrees]
      exact hinv d e hcur hpc
    · exact absurd hcur (hok.1 e hfree d hd hker)
    · exact absurd hcur (hok.2 e halloc d hd hker)

theorem TrapInv.savesIntoTrapped (hinv : TrapInv s) : s.SavesIntoTrapped := by
  intro c e hsave hcur
  apply hinv c e hcur
  cases h : s.pc c <;> simp_all [Pc.saving, Pc.unsaved, Pc.inKernel]

theorem trapInv_of_slotsIdle (h : smp.ReachableUnder (fun s l => s.SlotsIdle l.cpu) s) :
    TrapInv s := by
  apply h.invariant
  · rintro s ⟨_, k, hboot, rfl⟩
    intro c e hcur _
    have hnone : k.curenv c = some e := hcur
    rw [Kern.boot_curenv hboot c] at hnone
    cases hnone
  · intro s l s' hreach hinv hok hstep
    exact hinv.step (bootIdle_of_reachable hreach) (step_cases hstep).2 hok

end Sys

/-- In every run in which no slot is released or allocated while the other
CPU's kernel still has it as its current environment, every save of a context
goes to the incarnation that trapped. -/
theorem savesIntoTrapped_of_slotsIdle {s : Sys}
    (hrun : smp.ReachableUnder (fun s l => s.SlotsIdle l.cpu) s) : s.SavesIntoTrapped :=
  (Sys.trapInv_of_slotsIdle hrun).savesIntoTrapped

/-- Environment 0 forks environment 1 and lets it run, CPU 1 picks it, and it
blocks in `sys_ipc_recv` until CPU 1 is idle. -/
def childBlocks : List Label :=
  [.go 0, .go 0, .go 0, .go 0, .go 1, .go 1, .go 1,
   .call 0 .exofork, .go 0, .call 0 (.setEnvStatus 4097 1), .go 0, .go 0, .go 0,
   .go 1, .go 1, .go 1,
   .call 1 (.ipcRecv 0), .go 1, .go 1, .go 1, .go 1, .go 1]

/-- The parent sends to the child, so that CPU 1 takes it up again. -/
theorem savesIntoTrapped_childResumes : ∃ s, smp.ReachableUnder (fun s l => s.SlotsIdle l.cpu) s ∧
      ((s.pc 1).saving = true ∧ s.kern.curenv 1 = some 1) ∧ s.SavesIntoTrapped := by
  obtain ⟨s, hs, hsave⟩ := smp_exists_of_run (fun s l => s.SlotsIdle l.cpu)
    (fun s => (s.pc 1).saving = true ∧ s.kern.curenv 1 = some 1) [.plain]
    (childBlocks ++ [.call 0 (.ipcTrySend 4097 7 0 0), .go 0, .go 0, .go 0, .go 0, .go 0, .go 1])
    (by decide +kernel)
  exact ⟨s, hs, hsave, savesIntoTrapped_of_slotsIdle hs⟩

/-- The parent destroys the blocked child, forks again into the same slot and
makes the new child runnable; CPU 1 picks it. -/
def slotReused : List Label :=
  [.call 0 (.envDestroy 4097), .go 0, .go 0, .go 0, .go 0, .go 0,
   .call 0 .exofork, .go 0, .call 0 (.setEnvStatus 6145 1), .go 0, .go 0, .go 0, .go 1]

/-- CPU 1 is about to save the context of a destroyed environment into the
slot of its successor. -/
theorem saveIntoReusedSlot_reachable : ∃ s, smp.Reachable s ∧ ¬ s.SavesIntoTrapped := by
  obtain ⟨s, hs, hsave, hcur, hne⟩ := smp_exists_of_run (fun _ _ => True)
    (fun s => (s.pc 1).saving = true ∧ s.kern.curenv 1 = some 1 ∧
      s.hist.trapped 1 ≠ ((s.kern.envs 1).envId, s.hist.frees 1)) [.plain]
    (childBlocks ++ slotReused) (by decide +kernel)
  exact ⟨s, hs, fun h => hne (h 1 1 hsave hcur)⟩

end MosSmp
