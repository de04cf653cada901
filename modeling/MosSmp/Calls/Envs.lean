import MosSmp.Calls.Machine
import MosSmp.Smp.QueueEffect

/-!
What the pieces of the system calls do to the environments. `Steady` is a
change that neither creates nor releases an environment; it says whose own state
may be different afterwards. `env_free` and `sys_exofork` are the two others.
-/

namespace MosSmp

open Lib Function

/-- What belongs to an environment itself, as opposed to the scheduler and the
kernel's bookkeeping. -/
structure OwnState where
  envTf : Trapframe
  envStatus : EnvStatus
  envUserTlbModEntry : Word
  envIpcValue : Word
  envIpcFrom : Word
  envIpcRecving : Bool
  envIpcDstva : Word
  envIpcPerm : Word

def Env.ownState (x : Env) : OwnState where
  envTf := x.envTf
  envStatus := x.envStatus
  envUserTlbModEntry := x.envUserTlbModEntry
  envIpcValue := x.envIpcValue
  envIpcFrom := x.envIpcFrom
  envIpcRecving := x.envIpcRecving
  envIpcDstva := x.envIpcDstva
  envIpcPerm := x.envIpcPerm

/-- An address that `sys_ipc_recv` accepts. -/
def LegalDst (va : Word) : Prop :=
  va = 0 ∨ isIllegalVa va = false

theorem LegalDst.pdx_lt {va : Word} (h : LegalDst va) : pdx va < pdx UTOP := by
  rcases h with rfl | h
  · decide
  · exact pdx_lt_utop h

namespace Kern

/-- What holds of the environments between two calls. -/
structure Settled (k : Kern) : Prop where
  freeList : k.envFreeList.Holds (fun e => (k.envs e).envStatus = .free)
  running : ∀ e, (k.envs e).envRunning = true → (k.envs e).envStatus ≠ .free
  calm : ∀ e, (k.envs e).envKillPending = false
  dstva : ∀ e, pdx (k.envs e).envIpcDstva < pdx UTOP

/-- The same environments exist, and only those of `T` have another state of
their own. -/
structure Steady (T : EnvIdx → Prop) (k k' : Kern) : Prop where
  freeList : k'.envFreeList = k.envFreeList
  free : ∀ e, (k'.envs e).envStatus = .free ↔ (k.envs e).envStatus = .free
  running : ∀ e, (k'.envs e).envRunning = true →
    (k.envs e).envRunning = true ∨ (k'.envs e).envStatus ≠ .free
  pending : ∀ e, (k'.envs e).envKillPending = (k.envs e).envKillPending
  dstva : ∀ e, (k'.envs e).envIpcDstva = (k.envs e).envIpcDstva ∨
    LegalDst (k'.envs e).envIpcDstva
  own : ∀ e, ¬ T e → (k'.envs e).ownState = (k.envs e).ownState

variable {T : EnvIdx → Prop} {k k' k'' : Kern} {c : CpuId} {e f cur : EnvIdx}

namespace Steady

theorem of_same (hlist : k'.envFreeList = k.envFreeList) (henvs : k'.envs = k.envs) :
    Steady T k k' := by
  refine ⟨hlist, ?_, ?_, ?_, ?_, ?_⟩ <;> rw [henvs]
  · exact fun _ => Iff.rfl
  · exact fun _ => .inl
  · exact fun _ => rfl
  · exact fun _ => .inl rfl
  · exact fun _ _ => rfl

theorem refl (T : EnvIdx → Prop) (k : Kern) : Steady T k k := .of_same rfl rfl

theorem trans (h₁ : Steady T k k') (h₂ : Steady T k' k'') : Steady T k k'' where
  freeList := h₂.freeList.trans h₁.freeList
  free := fun e => (h₂.free e).trans (h₁.free e)
  running := by
    intro e hrun
    rcases h₂.running e hrun with hrun | hlive
    · rcases h₁.running e hrun with hrun | hlive
      · exact .inl hrun
      · exact .inr (fun hfree => hlive ((h₂.free e).mp hfree))
    · exact .inr hlive
  pending := fun e => (h₂.pending e).trans (h₁.pending e)
  dstva := by
    intro e
    rcases h₂.dstva e with hsame | hlegal
    · rw [hsame]
      exact h₁.dstva e
    · exact .inr hlegal
  own := fun e he => (h₂.own e he).trans (h₁.own e he)

theorem settled (h : Steady T k k') (hk : k.Settled) : k'.Settled where
  freeList := by
    rw [h.freeList]
    exact hk.freeList.congr (fun e => (h.free e).symm)
  running := by
    intro e hrun
    rcases h.running e hrun with hrun | hlive
    · exact fun hfree => hk.running e hrun ((h.free e).mp hfree)
    · exact hlive
  calm := fun e => (h.pending e).trans (hk.calm e)
  dstva := by
    intro e
    rcases h.dstva e with hsame | hlegal
    · rw [hsame]
      exact hk.dstva e
    · exact hlegal.pdx_lt

/-- A change of one environment. -/
theorem of_update {x : Env} (hlist : k'.envFreeList = k.envFreeList)
    (henvs : k'.envs = update k.envs e x)
    (hfree : x.envStatus = .free ↔ (k.envs e).envStatus = .free)
    (hrun : x.envRunning = true → (k.envs e).envRunning = true ∨ x.envStatus ≠ .free)
    (hpending : x.envKillPending = (k.envs e).envKillPending)
    (hdstva : x.envIpcDstva = (k.envs e).envIpcDstva ∨ LegalDst x.envIpcDstva)
    (hown : T e ∨ x.ownState = (k.envs e).ownState) : Steady T k k' := by
  have hcases : ∀ f, (f = e ∧ k'.envs f = x) ∨ k'.envs f = k.envs f := by
    intro f
    by_cases hf : f = e
    · exact .inl ⟨hf, by rw [henvs, hf, update_self]⟩
    · exact .inr (by rw [henvs, update_of_ne hf])
  refine ⟨hlist, fun f => ?_, fun f => ?_, fun f => ?_, fun f => ?_, fun f hT => ?_⟩ <;>
    rcases hcases f with ⟨rfl, hx⟩ | hsame
  · rw [hx]
    exact hfree
  · rw [hsame]
  · rw [hx]
    exact hrun
  · rw [hsame]
    exact .inl
  · rw [hx]
    exact hpending
  · rw [hsame]
  · rw [hx]
    exact hdstva
  · rw [hsame]
    exact .inl rfl
  · rw [hx]
    exact hown.resolve_left hT
  · rw [hsame]

theorem setV0 (r : Word) : Steady T k (k.setV0 c r) := .of_same rfl rfl

theorem saveAll (tf : Trapframe) : Steady T k (k.saveAll c tf) := .of_same rfl rfl

theorem setCurenv (v : Option EnvIdx) : Steady T k (k.setCurenv c v) := .of_same rfl rfl

section

variable (hT : T e)
include hT

theorem setTlbModEntry (func : Word) :
    Steady T k (k.updEnv e (fun x => { x with envUserTlbModEntry := func })) :=
  .of_update rfl rfl Iff.rfl .inl rfl (.inl rfl) (.inl hT)

theorem setTrapframe (tf : Trapframe) : Steady T k (k.updEnv e (fun x => { x with envTf := tf })) :=
  .of_update rfl rfl Iff.rfl .inl rfl (.inl rfl) (.inl hT)

theorem setRecving (b : Bool) : Steady T k (k.setRecving e b) :=
  .of_update rfl rfl Iff.rfl .inl rfl (.inl rfl) (.inl hT)

section

variable (hlive : (k.envs e).envStatus ≠ .free)
include hlive

theorem statusSection {st : EnvStatus} (hst : st ≠ .free) : Steady T k (k.statusSection e st) :=
  .of_update (envFreeList_statusSection ..) (envs_statusSection ..)
    ⟨fun h => absurd h hst, fun h => absurd h hlive⟩ .inl rfl (.inl rfl) (.inl hT)

theorem recvSection {dstva : Word} (hva : LegalDst dstva) : Steady T k (k.recvSection e dstva) :=
  .of_update rfl (envs_recvSection ..) ⟨fun h => (by cases h), fun h => absurd h hlive⟩
    (fun h => by cases h) rfl (.inr hva) (.inl hT)

theorem deliver (value sender perm : Word) :
    Steady T k ((k.fillIpc e value sender perm).wakeSection e) := by
  have hfill : Steady T k (k.fillIpc e value sender perm) :=
    .of_update rfl (envs_fillIpc ..) Iff.rfl .inl rfl (.inl rfl) (.inl hT)
  refine hfill.trans (.of_update (e := e) rfl rfl ?_ .inl rfl (.inl rfl) (.inl hT))
  exact ⟨fun h => (by cases h), fun h => absurd ((hfill.free e).mp h) hlive⟩

end

end

theorem release : Steady T k (k.release c) := by
  cases hcur : k.curenv c with
  | none =>
    have hsame : k.release c = k := by
      unfold Kern.release
      rw [hcur]
    rw [hsame]
    exact .refl T k
  | some e =>
    exact .of_update (envFreeList_release ..) (envs_release k c e hcur) Iff.rfl
      (fun h => by cases h) rfl (.inl rfl) (.inr rfl)

theorem assign (hlive : (k.envs e).envStatus ≠ .free) : Steady T k (k.assign c e) :=
  .of_update rfl (envs_assign ..) Iff.rfl (fun _ => .inr hlive) rfl (.inl rfl) (.inr rfl)

/-- Only the environment that is switched away from gets another context. -/
theorem switchTo (hT : ∀ old, k.curenv c = some old → T old) : Steady T k (k.switchTo c e) := by
  have hlist : (k.switchTo c e).envFreeList = k.envFreeList := by
    unfold Kern.switchTo
    cases k.curenv c <;> rfl
  refine ⟨hlist, fun f => ?_, fun f => ?_, fun f => ?_, fun f => ?_, fun f hf => ?_⟩ <;>
    rw [envs_switchTo]
  · exact .inl
  · exact .inl rfl
  · have hne : k.curenv c ≠ some f := fun hcur => hf (hT f hcur)
    rw [if_neg hne]
    rfl

/-- Whatever the section of `schedule` decides. -/
theorem pickNext_run (hpick : k.pickNext c = .run e k')
    (hst : (k'.envs e).envStatus = .runnable) : Steady T k k' := by
  unfold Kern.pickNext at hpick
  split at hpick <;> cases hpick
  refine .assign ?_
  rw [envs_assign, update_self] at hst
  intro hfree
  cases hst.symm.trans hfree

end Steady

theorem pickNext_spin (hpick : k.pickNext c = .spin k') : k' = k := by
  unfold pickNext at hpick
  split at hpick <;> cases hpick
  rfl

theorem curenv_pickNext (hpick : k.pickNext c = .run e k') : k'.curenv = k.curenv := by
  unfold pickNext at hpick
  split at hpick <;> cases hpick
  exact curenv_assign ..

/-- `envid2env` with the permission check names the caller or a child. -/
theorem envid2env_owned {envid : Word} (h : k.envid2env cur envid true = .ok e) :
    e = cur ∨ (k.envs e).envStatus ≠ .free ∧ (k.envs e).envParentId = (k.envs cur).envId := by
  unfold envid2env at h
  split at h
  · cases h
    exact .inl rfl
  · dsimp only at h
    split at h
    · cases h
    · next hknown =>
      split at h <;> cases h
      next howned =>
      by_cases hcur : envx envid = cur
      · exact .inl hcur
      · rw [not_or] at hknown
        refine .inr ⟨hknown.1, ?_⟩
        by_contra hparent
        exact howned ⟨rfl, hcur, hparent⟩

/-- The section of `env_free`, on an environment that is being killed. -/
theorem Settled.freeSection (hk : k.Settled) (hlive : (k.envs e).envStatus ≠ .free) {x : Env}
    (henvs : k'.envs = update k.envs e x) (hlist : k'.envFreeList = k.envFreeList)
    (hdstva : x.envIpcDstva = (k.envs e).envIpcDstva) : (k'.freeSection e).Settled := by
  have hself : (k'.freeSection e).envs e = freeEnv x := by
    rw [envs_freeSection, update_self, henvs, update_self]
  have hother : ∀ f, f ≠ e → (k'.freeSection e).envs f = k.envs f := by
    intro f hf
    rw [envs_freeSection, update_of_ne hf, henvs, update_of_ne hf]
  refine ⟨?_, fun f => ?_, fun f => ?_, fun f => ?_⟩
  · rw [envFreeList_freeSection, hlist]
    refine (hk.freeList.insertHead hlive).congr (fun f => ?_)
    by_cases hf : f = e
    · rw [hf, hself]
      exact ⟨fun _ => rfl, fun _ => .inl rfl⟩
    · rw [hother f hf]
      exact ⟨fun h => h.resolve_left hf, .inr⟩
  · by_cases hf : f = e
    · rw [hf, hself]
      intro hrun
      cases hrun
    · rw [hother f hf]
      exact hk.running f
  · by_cases hf : f = e
    · rw [hf, hself]
      rfl
    · rw [hother f hf]
      exact hk.calm f
  · by_cases hf : f = e
    · rw [hf, hself]
      show pdx x.envIpcDstva < pdx UTOP
      rw [hdstva]
      exact hk.dstva e
    · rw [hother f hf]
      exact hk.dstva f

variable {r : Except Err EnvIdx}

/-- The first free slot may be reset, or taken from the free list. -/
theorem Settled.exofork (hk : k.Settled) {vm : Option Word} (h : k.exofork c cur vm = (r, k')) :
    k'.Settled := by
  cases r with
  | error =>
    rcases exofork_error h with rfl | ⟨e, pgdir, hfirst, rfl⟩
    · exact hk
    · have hsteady : Steady (fun f => f = e) k (k.updEnv e (resetEnv pgdir)) :=
        .of_update rfl rfl Iff.rfl (fun hrun => by cases hrun) (hk.calm e).symm (.inl rfl)
          (.inl rfl)
      exact hsteady.settled hk
  | ok e =>
    obtain ⟨hfirst, pgdir, _, _, _, rfl⟩ := exofork_ok e h
    have hfree := hk.freeList.first hfirst
    refine ⟨?_, fun f => ?_, fun f => ?_, fun f => ?_⟩
    · refine (hk.freeList.remove hfree).congr (fun f => ?_)
      dsimp only
      by_cases hf : f = e
      · rw [hf, update_self]
        exact ⟨fun h => absurd rfl h.1, fun h => by cases h⟩
      · rw [update_of_ne hf]
        exact ⟨fun h => h.2, fun h => ⟨hf, h⟩⟩
    all_goals
      dsimp only
      by_cases hf : f = e
    · rw [hf, update_self]
      intro hrun
      cases hrun
    · rw [update_of_ne hf]
      exact hk.running f
    · rw [hf, update_self]
      rfl
    · rw [update_of_ne hf]
      exact hk.calm f
    · rw [hf, update_self]
      exact hk.dstva e
    · rw [update_of_ne hf]
      exact hk.dstva f

/-- A new child keeps the address at which its slot once awaited a page. -/
theorem envIpcDstva_exofork {vm : Option Word} (h : k.exofork c cur vm = (r, k')) (e : EnvIdx) :
    (k'.envs e).envIpcDstva = (k.envs e).envIpcDstva := by
  cases r with
  | error =>
    rcases exofork_error h with rfl | ⟨f, pgdir, _, rfl⟩
    · rfl
    · rw [envs_updEnv]
      split
      · next he => rw [he]; rfl
      · rfl
  | ok f =>
    obtain ⟨_, pgdir, _, _, _, rfl⟩ := exofork_ok f h
    dsimp only
    rw [update_apply]
    split
    · next he => rw [he]; rfl
    · rfl

end Kern

end MosSmp
