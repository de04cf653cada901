import MosSmp.Smp.Machine

/-!
What each critical section does to the control blocks, to the current
environments and to the two queues, one equation per section and component.
The later proofs use these equations and never unfold a section again.
-/

namespace MosSmp

open Lib Function

namespace Kern

variable (k : Kern) (c d : CpuId) (e f : EnvIdx)

theorem curenv_updCpu_of_eq (g : CpuLocalData → CpuLocalData)
    (hg : ∀ x, (g x).curenv = x.curenv) : (k.updCpu c g).curenv = k.curenv := by
  funext d
  rw [curenv_updCpu]
  split
  · next h =>
    subst h
    exact hg _
  · rfl

@[simp] theorem envs_saveAll (tf : Trapframe) : (k.saveAll c tf).envs = k.envs := rfl

@[simp] theorem curenv_saveAll (tf : Trapframe) : (k.saveAll c tf).curenv = k.curenv :=
  curenv_updCpu_of_eq k c _ (fun _ => rfl)

@[simp] theorem curenv_countDown : (k.countDown c).curenv = k.curenv :=
  curenv_updCpu_of_eq k c _ (fun _ => rfl)

@[simp] theorem envs_setV0 (r : Word) : (k.setV0 c r).envs = k.envs := rfl

@[simp] theorem curenv_setV0 (r : Word) : (k.setV0 c r).curenv = k.curenv :=
  curenv_updCpu_of_eq k c _ (fun _ => rfl)

theorem curenv_setCurenv (v : Option EnvIdx) : (k.setCurenv c v).curenv = update k.curenv c v := by
  funext d
  unfold setCurenv
  rw [curenv_updCpu, update_apply]

@[simp] theorem envs_asidFree (asid : Word) : (k.asidFree asid).envs = k.envs := rfl

@[simp] theorem curenv_asidFree (asid : Word) : (k.asidFree asid).curenv = k.curenv := rfl

theorem envs_freeSection : (k.freeSection e).envs = update k.envs e (freeEnv (k.envs e)) := by
  unfold freeSection updEnv
  split <;> rfl

@[simp] theorem cpuData_freeSection : (k.freeSection e).cpuData = k.cpuData := by
  unfold freeSection updEnv
  split <;> rfl

@[simp] theorem curenv_freeSection : (k.freeSection e).curenv = k.curenv := by
  funext d
  simp only [curenv, cpuData_freeSection]

theorem envs_recvSection (dstva : Word) :
    (k.recvSection e dstva).envs = update k.envs e { k.envs e with
      envIpcRecving := true
      envIpcDstva := dstva
      envStatus := .notRunnable
      envRunning := false
      envCpuId := none } := rfl

@[simp] theorem curenv_recvSection (dstva : Word) : (k.recvSection e dstva).curenv = k.curenv := rfl

theorem envs_statusSection (st : EnvStatus) : (k.statusSection e st).envs =
      update k.envs e { k.envs e with envStatus := st } := by
  unfold statusSection updEnv
  split
  · rfl
  · split <;> rfl

@[simp] theorem cpuData_statusSection (st : EnvStatus) :
    (k.statusSection e st).cpuData = k.cpuData := by
  unfold statusSection updEnv
  split
  · rfl
  · split <;> rfl

@[simp] theorem curenv_statusSection (st : EnvStatus) :
    (k.statusSection e st).curenv = k.curenv := by
  funext d
  simp only [curenv, cpuData_statusSection]

theorem envs_setRecving (b : Bool) : (k.setRecving e b).envs =
      update k.envs e { k.envs e with envIpcRecving := b } := rfl

@[simp] theorem curenv_setRecving (b : Bool) : (k.setRecving e b).curenv = k.curenv := rfl

theorem envs_fillIpc (value from_ perm : Word) :
    (k.fillIpc e value from_ perm).envs = update k.envs e { k.envs e with
      envIpcValue := value
      envIpcFrom := from_
      envIpcPerm := perm } := rfl

@[simp] theorem curenv_fillIpc (value from_ perm : Word) :
    (k.fillIpc e value from_ perm).curenv = k.curenv := rfl

@[simp] theorem curenv_wakeSection : (k.wakeSection e).curenv = k.curenv := rfl

theorem envs_release (h : k.curenv c = some e) :
    (k.release c).envs = update k.envs e { k.envs e with
      envRunning := false
      envCpuId := none } := by
  unfold release updEnv
  rw [h]
  dsimp only
  split <;> rfl

theorem envs_release_ne (h : k.curenv c ≠ some e) : (k.release c).envs e = k.envs e := by
  cases hcur : k.curenv c with
  | none =>
    unfold release
    rw [hcur]
  | some f =>
    rw [envs_release k c f hcur, update_of_ne]
    rintro rfl
    exact h hcur

@[simp] theorem cpuData_release : (k.release c).cpuData = k.cpuData := by
  unfold release updEnv
  split
  · rfl
  · dsimp only
    split <;> rfl

@[simp] theorem curenv_release : (k.release c).curenv = k.curenv := by
  funext d
  simp only [curenv, cpuData_release]

theorem envs_assign : (k.assign c e).envs = update k.envs e { k.envs e with
      envRunning := true
      envCpuId := some c } := rfl

@[simp] theorem curenv_assign : (k.assign c e).curenv = k.curenv := by
  unfold assign
  rw [curenv_updCpu_of_eq, curenv_updEnv]
  intro x
  rfl

/-- Switching writes the saved context and the run counter, nothing else of a
control block. -/
theorem envs_switchTo : (k.switchTo c f).envs e = { k.envs e with
      envTf := if k.curenv c = some e then (k.cpuData c).trapframe else (k.envs e).envTf
      envRuns := if e = f then (k.envs e).envRuns + 1 else (k.envs e).envRuns } := by
  unfold switchTo
  cases hcur : k.curenv c with
  | none =>
    simp only [envs_updCpu, envs_updEnv]
    split <;> simp_all
  | some old =>
    have hcomm : old = e ↔ e = old := eq_comm
    simp only [envs_updCpu, envs_updEnv, Option.some.injEq, hcomm]
    by_cases hf : e = f <;> by_cases ho : e = old <;> simp_all

theorem curenv_switchTo : (k.switchTo c f).curenv = update k.curenv c (some f) := by
  funext d
  unfold switchTo
  simp only [curenv_updCpu, update_apply, curenv_updEnv]
  cases k.curenv c with
  | none | some => by_cases hd : d = c <;> simp [hd, cpuData_updCpu]

theorem pick_eligible (h : k.pick c = .found e) : k.eligible c e = true := Links.scan_found h

theorem eligible_not_runsOn (h : k.eligible c e = true) (hne : d ≠ c) : ¬ k.runsOn e d := by
  unfold eligible at h
  rintro ⟨hrun, hcpu⟩
  simp only [Bool.and_eq_true, decide_eq_true_eq] at h
  rcases h.2 with h | h
  · rw [hrun] at h
    cases h
  · rw [hcpu] at h
    exact hne (Option.some.inj h)

theorem eligible_not_pending (h : k.eligible c e = true) : (k.envs e).envKillPending = false := by
  unfold eligible at h
  simp only [Bool.and_eq_true, Bool.not_eq_true'] at h
  exact h.1.2

variable {k c}

variable {vm : Option Word} {k' : Kern}

theorem envAlloc_error {parentId : Word} {err : Err}
    (h : k.envAlloc vm parentId = (.error err, k')) :
    k' = k ∨ ∃ e pgdir, k.envFreeList.first = some e ∧ k' = k.updEnv e (resetEnv pgdir) := by
  unfold envAlloc at h
  cases hfirst : k.envFreeList.first with
  | none =>
    simp only [hfirst, Prod.mk.injEq] at h
    exact .inl h.2.symm
  | some e =>
    cases vm with
    | none =>
      simp only [hfirst, Prod.mk.injEq] at h
      exact .inl h.2.symm
    | some pgdir =>
      simp only [hfirst] at h
      split at h
      · simp only [Prod.mk.injEq] at h
        exact .inr ⟨e, pgdir, rfl, h.2.symm⟩
      · simp at h

theorem envAlloc_ok {parentId : Word} (h : k.envAlloc vm parentId = (.ok e, k')) :
    k.envFreeList.first = some e ∧ ∃ pgdir asid bitmap, k' = { k with
        envs := update k.envs e
          (nameEnv (mkenvid (k.mkenvidI + 1) e) asid parentId (resetEnv pgdir (k.envs e)))
        asidBitmap := bitmap
        mkenvidI := k.mkenvidI + 1
        envFreeList := k.envFreeList.remove e } := by
  unfold envAlloc at h
  cases hfirst : k.envFreeList.first with
  | none => simp [hfirst] at h
  | some =>
    cases vm with
    | none => simp [hfirst] at h
    | some pgdir =>
      simp only [hfirst] at h
      split at h
      · simp at h
      · next asid bitmap _ =>
        obtain ⟨rfl, rfl⟩ := h
        refine ⟨rfl, pgdir, BitVec.ofNat 32 asid.val, bitmap, ?_⟩
        simp only [updEnv, update_self, update_idem]

variable {cur : EnvIdx}

/-- A failing `sys_exofork` changes at most the fields that `env_alloc` resets
in the first free slot. -/
theorem exofork_error {err : Err} (h : k.exofork c cur vm = (.error err, k')) :
    k' = k ∨ ∃ e pgdir, k.envFreeList.first = some e ∧ k' = k.updEnv e (resetEnv pgdir) := by
  unfold exofork at h
  split at h
  · next heq =>
    simp only [Prod.mk.injEq] at h
    exact h.2 ▸ envAlloc_error heq
  · simp at h

/-- The control block of a new child. The message fields and the mark of a
finished kill survive from the slot's previous life. -/
def forkEnv (id asid parentId pgdir pri : Word) (tf : Trapframe) (x : Env) : Env :=
  { nameEnv id asid parentId (resetEnv pgdir x) with
    envTf := tf.setReg 2 0
    envStatus := .notRunnable
    envPri := pri }

theorem exofork_ok (h : k.exofork c cur vm = (.ok e, k')) :
    k.envFreeList.first = some e ∧ ∃ pgdir asid bitmap pri, k' = { k with
        envs := update k.envs e
          (forkEnv (mkenvid (k.mkenvidI + 1) e) asid (k.envs cur).envId pgdir pri
            (k.cpuData c).trapframe (k.envs e))
        asidBitmap := bitmap
        mkenvidI := k.mkenvidI + 1
        envFreeList := k.envFreeList.remove e } := by
  unfold exofork at h
  split at h
  · simp at h
  · next f k1 heq =>
    simp only [Prod.mk.injEq, Except.ok.injEq] at h
    obtain ⟨rfl, rfl⟩ := h
    obtain ⟨hfirst, pgdir, asid, bitmap, rfl⟩ := envAlloc_ok f heq
    refine ⟨hfirst, pgdir, asid, bitmap, (update k.envs f (nameEnv (mkenvid (k.mkenvidI + 1) f) asid
        (k.envs cur).envId (resetEnv pgdir (k.envs f))) cur).envPri, ?_⟩
    simp only [updEnv, update_self, update_idem, forkEnv]

variable {r : Except Err EnvIdx}

section

variable (h : k.exofork c cur vm = (r, k'))
include h

theorem exofork_cpuData : k'.cpuData = k.cpuData := by
  cases r with
  | error =>
    rcases exofork_error h with rfl | ⟨e, pgdir, _, rfl⟩
    · rfl
    · rfl
  | ok e =>
    obtain ⟨_, pgdir, _, _, _, rfl⟩ := exofork_ok e h
    rfl

theorem exofork_curenv : k'.curenv = k.curenv := by
  funext d
  unfold curenv
  rw [exofork_cpuData h]

theorem exofork_envs_ne (hne : k.envFreeList.first ≠ some e) : k'.envs e = k.envs e := by
  cases r with
  | error =>
    rcases exofork_error h with rfl | ⟨f, pgdir, hfirst, rfl⟩
    · rfl
    · apply envs_updEnv_ne
      rintro rfl
      exact hne hfirst
  | ok f =>
    obtain ⟨hfirst, pgdir, _, _, _, rfl⟩ := exofork_ok f h
    apply update_of_ne
    rintro rfl
    exact hne hfirst

end

/-- The control block of an early environment. -/
def bootEnv (id asid pgdir : Word) (image : Image) (x : Env) : Env :=
  let x := nameEnv id asid 0 (resetEnv pgdir x)
  { x with
    envPri := image.priority
    envStatus := .runnable
    envPinnedCpu := if image.isFsServ then some 0 else x.envPinnedCpu
    envTf := { x.envTf with cp0Epc := image.entry } }

theorem envCreate_some {image : Image} (h : k.envCreate image = some k') :
    ∃ e, k.envFreeList.first = some e ∧ ∃ pgdir asid bitmap, k' = { k with
        envs := update k.envs e (bootEnv (mkenvid (k.mkenvidI + 1) e) asid pgdir image (k.envs e))
        asidBitmap := bitmap
        mkenvidI := k.mkenvidI + 1
        envFreeList := k.envFreeList.remove e
        envSchedList := k.envSchedList.insertHead e } := by
  unfold envCreate at h
  split at h
  · cases h
  · next e k1 heq =>
    obtain ⟨hfirst, pgdir, asid, bitmap, rfl⟩ := envAlloc_ok e heq
    refine ⟨e, hfirst, pgdir, asid, bitmap, ?_⟩
    cases h
    simp only [updEnv, update_self, update_idem, bootEnv]

variable {images : List Image}

variable {k : Kern}

/-- What holds after `env_init` and is kept by every creation of an early
environment holds when the CPUs start to schedule. -/
theorem boot_induct {P : Kern → Prop} (hinit : P envInit)
    (hstep : ∀ k image k', P k → k.envCreate image = some k' → P k')
    (hboot : boot images = some k) : P k := by
  have hrun : ∀ (images : List Image) (k0 : Kern), P k0 →
      images.foldlM envCreate k0 = some k → P k := by
    intro images
    induction images with
    | nil =>
      intro k0 hk0 h
      cases h
      exact hk0
    | cons image rest ih =>
      intro k0 hk0 h
      obtain ⟨k1, hcreate, hrest⟩ := Option.bind_eq_some_iff.mp h
      exact ih k1 (hstep k0 image k1 hk0 hcreate) hrest
  exact hrun images envInit hinit hboot

theorem boot_curenv (hboot : boot images = some k) : ∀ c, k.curenv c = none := by
  apply boot_induct (P := fun k => ∀ c, k.curenv c = none) _ _ hboot
  · intro c
    rfl
  · intro k image k' hk hcreate
    obtain ⟨_, _, _, _, _, rfl⟩ := envCreate_some hcreate
    exact hk

/-- Nothing has run, been killed or received when the CPUs start. -/
theorem boot_fresh (hboot : boot images = some k) :
    ∀ e, (k.envs e).envRunning = false ∧ (k.envs e).envKillPending = false ∧
      (k.envs e).envIpcRecving = false := by
  apply boot_induct (P := fun k => ∀ e, (k.envs e).envRunning = false ∧
    (k.envs e).envKillPending = false ∧ (k.envs e).envIpcRecving = false) _ _ hboot
  · intro e
    exact ⟨rfl, rfl, rfl⟩
  · intro k image k' hk hcreate e
    obtain ⟨f, _, _, _, _, rfl⟩ := envCreate_some hcreate
    by_cases hf : e = f
    · subst hf
      simp [bootEnv, nameEnv, resetEnv, hk e]
    · simpa [update_of_ne hf] using hk e

end Kern

end MosSmp
