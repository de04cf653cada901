import MosSmp.Smp.Incarnation

/-!
Which context an environment resumes from. Every trap and every installed
context has a number, and `env_run` should restore the context with the
latest number of its environment and never save over a later one.

The save happens in `env_run`, after `schedule` has released its lock. In
between, and throughout the idle loop of `schedule`, the previous environment
may be picked by the other CPU from its old `env_tf`. `ContextsKept` rules
this out, together with three rarer races: a slot that is allocated, or a
context that is installed by `sys_set_trapframe`, while another CPU has yet to
save into that slot, and a status change or wake-up that reaches its target
after the target was freed.
-/

namespace MosSmp

open Lib Function

namespace Pc

/-- The environment whose context `env_pop_tf` is about to restore. -/
def popping : Pc → Option EnvIdx
  | .popTf e => some e
  | _ => none

/-- The environment `env_run` has been called with. -/
def target : Pc → Option EnvIdx
  | .envRun e => some e
  | _ => none

end Pc

namespace Sys

/-- A restored context is the latest one of its environment, and a save does
not overwrite a later context. -/
structure ContextIntact (s : Sys) : Prop where
  restored : ∀ c e, (s.pc c).popping = some e → s.hist.envStamp e = s.hist.latest e
  saved : ∀ c e, (s.pc c).saving = true → s.kern.curenv c = some e →
    s.hist.envStamp e ≤ s.hist.tfStamp c

/-- CPU `c` has `e` as its current environment, or is about to switch to it. -/
def Busy (s : Sys) (c : CpuId) (e : EnvIdx) : Prop :=
  s.kern.curenv c = some e ∨ (s.pc c).target = some e

instance (s : Sys) (c : CpuId) (e : EnvIdx) : Decidable (s.Busy c e) :=
  inferInstanceAs (Decidable (_ ∨ _))

/-- The environment that the next step of CPU `c` picks in `schedule`. -/
def picked (s : Sys) (c : CpuId) : Option EnvIdx :=
  match s.pc c with
  | .schedLock yield =>
    if s.kern.switches c yield then ((s.kern.release c).pick c).result else none
  | .schedSpin => (s.kern.pick c).result
  | _ => none

/-- The environment, other than the caller, whose context the next step of
CPU `c` replaces in `sys_set_trapframe`. -/
def installed (s : Sys) (c : CpuId) : Option EnvIdx :=
  match s.pc c, s.kern.curenv c with
  | .sys (.setTrapframe envid _ _), some cur =>
    match s.kern.envid2env cur envid true with
    | .ok e => if e = cur then none else some e
    | .error _ => none
  | _, _ => none

/-- The environment whose status the next step of CPU `c` sets, in
`sys_set_env_status` or at the end of `sys_ipc_try_send`. -/
def revived (s : Sys) (c : CpuId) : Option EnvIdx :=
  match s.pc c with
  | .statusLock e _ | .sendWake e => some e
  | _ => none

/-- The step picks no environment that the other CPU is busy with, allocates
no slot and installs no context while another CPU has yet to save into it,
and does not revive a freed environment. -/
def ContextsKept (s : Sys) (c : CpuId) : Prop :=
  (∀ e ∈ s.picked c, ∀ d, d ≠ c → ¬ s.Busy d e) ∧
    (∀ e ∈ s.allocated c, ∀ d, d ≠ c → (s.pc d).inKernel = true → s.kern.curenv d ≠ some e) ∧
    (∀ e ∈ s.installed c, ∀ d, d ≠ c → (s.pc d).inKernel = true → s.kern.curenv d ≠ some e) ∧
    ∀ e ∈ s.revived c, (s.kern.envs e).envStatus ≠ .free

instance (s : Sys) (c : CpuId) : Decidable (s.ContextsKept c) :=
  @instDecidableAnd _ _ (Option.decidableForallMem _)
    (@instDecidableAnd _ _ (Option.decidableForallMem _)
      (@instDecidableAnd _ _ (Option.decidableForallMem _) (Option.decidableForallMem _)))

variable {s s' : Sys} {c d : CpuId} {e : EnvIdx}

/-- What a step of CPU `c` can do to the contexts of environment `e`. -/
inductive StampEffect (s : Sys) (c : CpuId) (s' : Sys) (e : EnvIdx) : Prop
  | same : s'.hist.envStamp e = s.hist.envStamp e → s'.hist.latest e = s.hist.latest e →
      s.hist.clock ≤ s'.hist.clock → StampEffect s c s' e
  | trap : s.kern.curenv c = some e → s'.hist.envStamp e = s.hist.envStamp e →
      s'.hist.latest e = s.hist.clock + 1 → s'.hist.clock = s.hist.clock + 1 →
      StampEffect s c s' e
  | install : (e ∈ s.allocated c ∨ e ∈ s.installed c) →
      s'.hist.envStamp e = s.hist.clock + 1 → s'.hist.latest e = s.hist.clock + 1 →
      s'.hist.clock = s.hist.clock + 1 → StampEffect s c s' e
  | save : (s.pc c).saving = true → s.kern.curenv c = some e →
      s'.hist.envStamp e = s.hist.tfStamp c → s'.hist.latest e = s.hist.latest e →
      s'.hist.clock = s.hist.clock → StampEffect s c s' e

section

variable (h : StepCase s c s')
include h

theorem StepCase.stamp_effect (e : EnvIdx) : StampEffect s c s' e := by
  cases h with
  | @tick f tf hpc hcur =>
    by_cases hf : e = f
    · subst hf
      exact .trap hcur rfl (by simp [Sys.tick, noteTrap]) rfl
    · exact .same rfl (by simp [Sys.tick, noteTrap, update_of_ne hf])
        (by simp [Sys.tick, noteTrap])
  | @enter f tf call hpc hcur =>
    by_cases hf : e = f
    · subst hf
      exact .trap hcur rfl (by simp [Sys.enter, noteTrap]) rfl
    · exact .same rfl (by simp [Sys.enter, noteTrap, update_of_ne hf])
        (by simp [Sys.enter, noteTrap])
  | @forks cur f vm k hpc hcur hfork =>
    obtain ⟨hfirst, _⟩ := Kern.exofork_ok f hfork
    by_cases hf : e = f
    · subst hf
      exact .install (.inl (by simp [allocated, hpc, hfirst]))
        (by simp [noteInstall, noteAlloc]) (by simp [noteInstall, noteAlloc]) rfl
    · exact .same (by simp [noteInstall, noteAlloc, update_of_ne hf])
        (by simp [noteInstall, noteAlloc, update_of_ne hf])
        (by simp [noteInstall, noteAlloc])
  | @installOwn cur envid va tf hpc hcur =>
    by_cases hf : e = cur
    · subst hf
      exact .trap hcur rfl (by simp [noteOwnInstall]) rfl
    · exact .same rfl (by simp [noteOwnInstall, update_of_ne hf])
        (by simp [noteOwnInstall])
  | @installOther cur f envid va tf hpc hcur hid hne =>
    by_cases hf : e = f
    · subst hf
      exact .install (.inr (by simp [installed, hpc, hcur, hid, hne]))
        (by simp [noteInstall]) (by simp [noteInstall]) rfl
    · exact .same (by simp [noteInstall, update_of_ne hf])
        (by simp [noteInstall, update_of_ne hf]) (by simp [noteInstall])
  | run hpc =>
    by_cases hcur : s.kern.curenv c = some e
    · exact .save (by rw [hpc]; rfl) hcur (by simp [envStamp_noteSave, hcur]) (by simp)
        (by simp)
    · exact .same (by simp [envStamp_noteSave, hcur]) (by simp) (by simp)
  | _ => exact .same rfl rfl (le_refl _)

theorem StepCase.tfStamp_frame (hne : d ≠ c) : s'.hist.tfStamp d = s.hist.tfStamp d := by
  cases h with
  | tick => simp [Sys.tick, noteTrap, hne]
  | enter => simp [Sys.enter, noteTrap, hne]
  | installOwn => simp [noteOwnInstall, hne]
  | run => simp
  | _ => rfl

/-- A CPU that enters `env_run` has picked its environment or keeps the
current one. -/
theorem StepCase.target_cases (ht : (s'.pc c).target = some e) : e ∈ s.picked c ∨ s.Busy c e := by
  cases h with
  | switchRun hpc hsw hpick =>
    obtain rfl : _ = e := by simpa [Pc.target] using ht
    left
    simp [picked, hpc, hsw, hpick, Links.Scan.result]
  | spinRun hpc hpick =>
    obtain rfl : _ = e := by simpa [Pc.target] using ht
    left
    simp [picked, hpc, hpick, Links.Scan.result]
  | stay hpc hsw hcur =>
    obtain rfl : _ = e := by simpa [Pc.target] using ht
    exact .inr (.inl hcur)
  | halt => exact .inr (.inr ht)
  | goes p hgo =>
    rw [goto_pc, update_self] at ht
    cases p with
    | envRun => exact absurd rfl hgo.not_envRun
    | _ => cases ht
  | tick =>
    simp only [Sys.tick, goto_pc, update_self] at ht
    split at ht <;> cases ht
  | enter => simp [Sys.enter, Pc.target] at ht
  | lockSched => simp [noteScheduleReady, Pc.target] at ht
  | _ => simp [Pc.target] at ht

theorem StepCase.busy_cases (hbusy : s'.Busy c e) : s.Busy c e ∨ e ∈ s.picked c := by
  rcases hbusy with hcur | ht
  · rcases h.curenv_cases with hsame | ⟨f, _, _, _, hnone, _⟩ | ⟨f, hpc, _, hnew, _⟩
    · rw [hsame] at hcur
      exact .inl (.inl hcur)
    · rw [hnone] at hcur
      cases hcur
    · cases hnew.symm.trans hcur
      exact .inl (.inr (by rw [hpc]; rfl))
  · exact (h.target_cases ht).symm

/-- A step that takes an environment out of `ENV_FREE` forks it, blocks it as
the current environment of its CPU, or revives it. -/
theorem StepCase.status_cases (hlive : (s'.kern.envs e).envStatus ≠ .free) :
    (s.kern.envs e).envStatus ≠ .free ∨ s.kern.curenv c = some e ∨ e ∈ s.revived c ∨
      (e ∈ s.allocated c ∧ s'.hist.envStamp e = s'.hist.latest e) := by
  cases h.env_effect e with
  | fork id asid parentId pgdir pri tf halloc hstamp => exact .inr (.inr (.inr ⟨halloc, hstamp⟩))
  | block dstva hpc hcur => exact .inr (.inl hcur)
  | status st hpc | wake hpc => exact .inr (.inr (.inl (by simp [revived, hpc])))
  | free hfree heq =>
    rw [heq] at hlive
    exact absurd rfl hlive
  | data tf runs value from_ perm heq | reset pgdir halloc heq
  | take value srcva perm hpc hrecv heq | undo err hpc heq | release hdes heq
  | assign hpc hpend hor heq => exact .inl (by rwa [heq] at hlive)
  | killRemote hpc hfree | killLocal hpc hfree => exact .inl hfree

end

/-- The invariant behind `ContextIntact`. The CPUs are busy with different
environments; a CPU with an unsaved context holds the latest context of its
environment, and a live environment that is current nowhere has its latest
context saved. -/
structure ContextInv (s : Sys) : Prop where
  apart : ∀ c d e, c ≠ d → s.Busy c e → ¬ s.Busy d e
  popped : ∀ c e, (s.pc c).popping = some e →
    s.kern.curenv c = some e ∧ s.hist.envStamp e = s.hist.latest e
  held : ∀ c e, s.kern.curenv c = some e → (s.pc c).unsaved e = true →
    s.hist.tfStamp c = s.hist.latest e
  rest : ∀ e, (s.kern.envs e).envStatus ≠ .free → (∀ c, s.kern.curenv c ≠ some e) →
    s.hist.envStamp e = s.hist.latest e
  dead : ∀ c e kind, s.pc c = .freed e kind → s.kern.curenv c = some e →
    (s.kern.envs e).envStatus = .free
  stamped : ∀ e, s.hist.envStamp e ≤ s.hist.latest e ∧ s.hist.latest e ≤ s.hist.clock

section

variable (hinv : ContextInv s)
include hinv

theorem ContextInv.contextIntact : s.ContextIntact := by
  refine ⟨fun c e hpop => (hinv.popped c e hpop).2, fun c e hsave hcur => ?_⟩
  have hun : (s.pc c).unsaved e = true := by
    cases h : s.pc c <;> simp_all [Pc.saving, Pc.unsaved, Pc.inKernel]
  rw [hinv.held c e hcur hun]
  exact (hinv.stamped e).1

theorem ContextInv.apart_step (h : StepCase s c s') (hok : s.ContextsKept c) (hne : d ≠ c)
    (hc : s'.Busy c e) : ¬ s'.Busy d e := by
  intro hd
  have hd' : s.Busy d e := by
    unfold Busy at hd ⊢
    rwa [(h.frame hne).1, (h.frame hne).2] at hd
  rcases h.busy_cases hc with hc | hpick
  · exact hinv.apart c d e hne.symm hc hd'
  · exact hok.1 e hpick d hne hd'

theorem ContextInv.not_curenv (hne : d ≠ c) (hd : s.kern.curenv d = some e) :
    s.kern.curenv c ≠ some e :=
  fun hc => hinv.apart d c e hne (.inl hd) (.inl hc)

theorem ContextInv.popped_other (h : StepCase s c s') (hne : d ≠ c)
    (hpop : (s.pc d).popping = some e) : s'.hist.envStamp e = s'.hist.latest e := by
  obtain ⟨hcur, hstamp⟩ := hinv.popped d e hpop
  have hnot := hinv.not_curenv hne hcur
  cases h.stamp_effect e with
  | same henv hlatest => rw [henv, hlatest, hstamp]
  | trap hcur' | save _ hcur' => exact absurd hcur' hnot
  | install _ henv hlatest => rw [henv, hlatest]

theorem ContextInv.held_other (h : StepCase s c s') (hok : s.ContextsKept c) (hne : d ≠ c)
    (hcur : s.kern.curenv d = some e) (hun : (s.pc d).unsaved e = true) :
    s'.hist.tfStamp d = s'.hist.latest e := by
  have hnot := hinv.not_curenv hne hcur
  have hker := Pc.inKernel_of_unsaved hun
  rw [h.tfStamp_frame hne, hinv.held d e hcur hun]
  cases h.stamp_effect e with
  | same henv hlatest => exact hlatest.symm
  | trap hcur' | save _ hcur' => exact absurd hcur' hnot
  | install hor =>
    rcases hor with halloc | hinst
    · exact absurd hcur (hok.2.1 e halloc d hne hker)
    · exact absurd hcur (hok.2.2.1 e hinst d hne hker)

theorem ContextInv.held_own (hboot : s.BootIdle) (h : StepCase s c s')
    (hcur : s'.kern.curenv c = some e) (hun : (s'.pc c).unsaved e = true) :
    s'.hist.tfStamp c = s'.hist.latest e := by
  rcases h.unsaved_cases hcur hun with ⟨_, hstamp⟩ | ⟨hcur, hun, hctx, _⟩ | ⟨hpc, hcur⟩
  · exact hstamp
  · rw [hctx.2.1, hctx.2.2.2]
    exact hinv.held c e hcur hun
  · rw [hboot c hpc] at hcur
    cases hcur

/-- The context that a CPU saves is the latest one of its environment. -/
theorem ContextInv.save_latest (hsave : (s.pc c).saving = true) (hcur : s.kern.curenv c = some e) :
    s.hist.tfStamp c = s.hist.latest e := by
  apply hinv.held c e hcur
  cases h : s.pc c <;> simp_all [Pc.saving, Pc.unsaved, Pc.inKernel]

end

/-- A CPU about to pop a context has just saved the previous one. -/
theorem StepCase.popping_cases (h : StepCase s c s') (hpop : (s'.pc c).popping = some e) :
    s.pc c = .envRun e ∧ (s.kern.envs e).envStatus = .runnable ∧
      s'.kern.curenv c = some e ∧ s'.hist = (s.noteSave c).hist := by
  cases h with
  | @run f hpc hst =>
    obtain rfl : f = e := by simpa [Pc.popping] using hpop
    exact ⟨hpc, hst, by simp [Kern.curenv_switchTo], rfl⟩
  | goes p hgo =>
    rw [goto_pc, update_self] at hpop
    generalize s.pc c = q at hgo
    cases hgo <;> cases hpop
  | halt hpc =>
    rw [hpc] at hpop
    cases hpop
  | tick =>
    simp only [Sys.tick, goto_pc, update_self] at hpop
    split at hpop <;> cases hpop
  | enter => simp [Sys.enter, Pc.popping] at hpop
  | lockSched => simp [noteScheduleReady, Pc.popping] at hpop
  | _ => simp [Pc.popping] at hpop

theorem StepCase.freed_cases (h : StepCase s c s') {kind : FreeKind}
    (hpc : s'.pc c = .freed e kind) : (s'.kern.envs e).envStatus = .free := by
  cases h with
  | @free f kind' hpc' =>
    obtain ⟨rfl, rfl⟩ : f = e ∧ kind' = kind := by simpa using hpc
    simp [Kern.envs_freeSection, Kern.freeEnv]
  | goes p hgo =>
    rw [goto_pc, update_self] at hpc
    subst hpc
    generalize s.pc c = q at hgo
    cases hgo
  | halt hrun =>
    rw [hrun] at hpc
    cases hpc
  | tick =>
    simp only [Sys.tick, goto_pc, update_self] at hpc
    split at hpc <;> cases hpc
  | enter => simp [Sys.enter] at hpc
  | lockSched => simp [noteScheduleReady] at hpc
  | _ => simp at hpc

section

variable (hinv : ContextInv s)
include hinv

theorem ContextInv.popped_own (h : StepCase s c s') (hpop : (s'.pc c).popping = some e) :
    s'.kern.curenv c = some e ∧ s'.hist.envStamp e = s'.hist.latest e := by
  obtain ⟨hpc, hst, hcur', hhist⟩ := h.popping_cases hpop
  refine ⟨hcur', ?_⟩
  rw [hhist, envStamp_noteSave, latest_noteSave]
  split
  · next hcur => exact hinv.save_latest (by rw [hpc]; rfl) hcur
  · next hcur =>
    apply hinv.rest e (by rw [hst]; decide)
    intro d hd
    by_cases hdc : d = c
    · exact hcur (hdc ▸ hd)
    · exact hinv.apart c d e (Ne.symm hdc) (.inr (by rw [hpc]; rfl)) (.inl hd)

theorem ContextInv.rest_step (hkill : s.KillsOwn) (h : StepCase s c s') (hok : s.ContextsKept c)
    (hlive : (s'.kern.envs e).envStatus ≠ .free) (hnone : ∀ d, s'.kern.curenv d ≠ some e) :
    s'.hist.envStamp e = s'.hist.latest e := by
  have hnone' : s.kern.curenv c ≠ some e → ∀ d, s.kern.curenv d ≠ some e := by
    intro hcur d
    by_cases hd : d = c
    · rwa [hd]
    · rw [← (h.frame hd).2]
      exact hnone d
  by_cases hcur : s.kern.curenv c = some e
  · rcases h.curenv_cases with
      hsame | ⟨f, kind, hpc, hleave, _, _, henvs⟩ | ⟨f, hpc, _, _, _, hhist⟩
    · exact absurd (hsame.trans hcur) (hnone c)
    · cases (hkill.leaving hpc hleave).symm.trans hcur
      rw [henvs] at hlive
      exact absurd (hinv.dead c e kind hpc hcur) hlive
    · rw [hhist, envStamp_noteSave, if_pos hcur, latest_noteSave]
      exact hinv.save_latest (by rw [hpc]; rfl) hcur
  · cases h.stamp_effect e with
    | same henv hlatest _ =>
      rcases h.status_cases hlive with hlive | hcur' | hrev | ⟨_, hstamp⟩
      · rw [henv, hlatest]
        exact hinv.rest e hlive (hnone' hcur)
      · exact absurd hcur' hcur
      · rw [henv, hlatest]
        exact hinv.rest e (hok.2.2.2 e hrev) (hnone' hcur)
      · exact hstamp
    | trap hcur' | save _ hcur' => exact absurd hcur' hcur
    | install _ henv hlatest => rw [henv, hlatest]

/-- A freed environment stays free while the CPU that freed it has not left
it. -/
theorem ContextInv.dead_other (h : StepCase s c s') (hok : s.ContextsKept c) (hne : d ≠ c)
    {kind : FreeKind} (hpc : s.pc d = .freed e kind) (hcur : s.kern.curenv d = some e) :
    (s'.kern.envs e).envStatus = .free := by
  have hfree := hinv.dead d e kind hpc hcur
  by_contra hlive
  rcases h.status_cases hlive with hlive | hcur' | hrev | ⟨halloc, _⟩
  · exact hlive hfree
  · exact hinv.not_curenv hne hcur hcur'
  · exact hok.2.2.2 e hrev hfree
  · exact hok.2.1 e halloc d hne (by rw [hpc]; rfl) hcur

theorem ContextInv.stamped_step (h : StepCase s c s') (e : EnvIdx) :
    s'.hist.envStamp e ≤ s'.hist.latest e ∧ s'.hist.latest e ≤ s'.hist.clock := by
  obtain ⟨_, _⟩ := hinv.stamped e
  cases h.stamp_effect e with
  | save hsave hcur =>
    have hheld := hinv.save_latest hsave hcur
    omega
  | _ => omega

theorem ContextInv.step (hboot : s.BootIdle) (hkill : s.KillsOwn) (h : StepCase s c s')
    (hok : s.ContextsKept c) : ContextInv s' where
  apart := by
    intro a b e hab ha hb
    by_cases hac : a = c
    · subst hac
      exact hinv.apart_step h hok (Ne.symm hab) ha hb
    · by_cases hbc : b = c
      · subst hbc
        exact hinv.apart_step h hok hab hb ha
      · unfold Busy at ha hb
        rw [(h.frame hac).1, (h.frame hac).2] at ha
        rw [(h.frame hbc).1, (h.frame hbc).2] at hb
        exact hinv.apart a b e hab ha hb
  popped := by
    intro d e hpop
    by_cases hd : d = c
    · subst hd
      exact hinv.popped_own h hpop
    · rw [(h.frame hd).1] at hpop
      rw [(h.frame hd).2]
      exact ⟨(hinv.popped d e hpop).1, hinv.popped_other h hd hpop⟩
  held := by
    intro d e hcur hun
    by_cases hd : d = c
    · subst hd
      exact hinv.held_own hboot h hcur hun
    · rw [(h.frame hd).1] at hun
      rw [(h.frame hd).2] at hcur
      exact hinv.held_other h hok hd hcur hun
  rest := fun e => hinv.rest_step hkill h hok
  dead := by
    intro d e kind hpc hcur
    by_cases hd : d = c
    · subst hd
      exact h.freed_cases hpc
    · rw [(h.frame hd).1] at hpc
      rw [(h.frame hd).2] at hcur
      exact hinv.dead_other h hok hd hpc hcur
  stamped := hinv.stamped_step h

end

theorem ContextInv.start {images : List Kern.Image} {k : Kern}
    (hboot : Kern.boot images = some k) : ContextInv (Sys.start k) := by
  have hidle : ∀ c e, (Sys.start k).kern.curenv c ≠ some e := by
    intro c e
    show k.curenv c ≠ some e
    simp [Kern.boot_curenv hboot c]
  have hpc : ∀ c, (Sys.start k).pc c = .sched false ∨ (Sys.start k).pc c = .boot := by
    intro c
    simp only [Sys.start]
    split <;> simp
  refine ⟨?_, ?_, fun c e hcur => absurd hcur (hidle c e), fun e _ _ => rfl,
    fun c e kind _ hcur => absurd hcur (hidle c e), fun e => ⟨le_refl _, le_refl _⟩⟩
  · rintro c _ e _ (hcur | ht)
    · exact absurd hcur (hidle c e)
    · rcases hpc c with h | h <;> rw [h] at ht <;> cases ht
  · intro c e hpop
    rcases hpc c with h | h <;> rw [h] at hpop <;> cases hpop

theorem contextInv_of_contextsKept
    (hrun : smp.ReachableUnder (fun s l => s.ContextsKept l.cpu) s) : ContextInv s := by
  apply hrun.invariant
  · rintro s ⟨_, _, hboot, rfl⟩
    exact ContextInv.start hboot
  · intro s l s' hreach hinv hok hstep
    exact hinv.step (bootIdle_of_reachable hreach) (killsOwn_of_reachable hreach)
      (step_cases hstep).2 hok

end Sys

/-- In every run in which `schedule` picks no environment the other CPU is
busy with, and slots and contexts are not replaced under a CPU that has yet to
save, every environment resumes from its latest context and no save overwrites
a later one. -/
theorem contextIntact_of_contextsKept {s : Sys}
    (hrun : smp.ReachableUnder (fun s l => s.ContextsKept l.cpu) s) : s.ContextIntact :=
  (Sys.contextInv_of_contextsKept hrun).contextIntact

/-- After both CPUs have started, environment 1 yields and CPU 0 takes it up
again, since environment 0 is running on CPU 1. -/
theorem contextIntact_yield : ∃ s, smp.ReachableUnder (fun s l => s.ContextsKept l.cpu) s ∧
      ((s.pc 0).popping = some 1 ∧ s.hist.latest 1 = 3) ∧ s.ContextIntact := by
  obtain ⟨s, hs, hpop⟩ := smp_exists_of_run (fun s l => s.ContextsKept l.cpu)
    (fun s => (s.pc 0).popping = some 1 ∧ s.hist.latest 1 = 3) [.plain, .plain]
    (bothStart ++ [.call 0 (.other 0), .go 0, .call 0 (.other 0), .go 0,
      .call 0 .yield, .go 0, .go 0, .go 0, .go 0])
    (by decide +kernel)
  exact ⟨s, hs, hpop, contextIntact_of_contextsKept hs⟩

/-- Three environments. Environment 2 yields on CPU 0, whose `schedule` picks
environment 0 and stops short of `env_run`; environment 1 yields on CPU 1,
which picks environment 2. -/
def pickedBeforeSave : List Label :=
  bothStart ++ [.call 0 .yield, .go 0, .go 0, .go 0, .call 1 .yield, .go 1, .go 1, .go 1, .go 1]

/-- CPU 1 restores a context of environment 2 that is older than its last
trap, on CPU 0. -/
theorem staleContext_reachable : ∃ s, smp.Reachable s ∧ ¬ s.ContextIntact := by
  obtain ⟨s, hs, hpop, hstale⟩ := smp_exists_of_run (fun _ _ => True)
    (fun s => (s.pc 1).popping = some 2 ∧ s.hist.envStamp 2 ≠ s.hist.latest 2)
    [.plain, .plain, .plain] pickedBeforeSave (by decide +kernel)
  exact ⟨s, hs, fun h => hstale (h.restored 1 2 hpop)⟩

end MosSmp
