import MosSmp.Calls.Release

/-!
One lemma for each system call. `Effect` says what a call of `A` leaves behind:
the environments outside of `T` have kept their state and their memory, and
under the condition `P` the invariant still holds and every mapping is still
legal. The environments that `A` may work on are itself and its children.
-/

namespace MosSmp

open Lib Function Kern MemSys Option

namespace MemSys

variable {n : Nat} {s s' s₁ : MemSys n} {e A B : EnvIdx} {c : CpuId} {d p q : Page n}
variable {T : EnvIdx → Prop} {P : Prop} {k : Kern} {va : Word}

/-- Every mapping is legal, and so is every address at which one is awaited. -/
structure Legal (s : MemSys n) : Prop where
  pages : s.LegalPages
  dstva : ∀ e, LegalDst (s.kern.envs e).envIpcDstva

/-- `B` is `A` itself or a child of it. -/
def Owned (s : MemSys n) (A B : EnvIdx) : Prop :=
  B = A ∨ (s.kern.envs B).envParentId = (s.kern.envs A).envId

/-- `B` waits for a message, and `envid` names it. -/
def Receives (s : MemSys n) (A : EnvIdx) (envid : Word) (B : EnvIdx) : Prop :=
  s.kern.envid2env A envid false = .ok B ∧ (s.kern.envs B).envIpcRecving = true

/-- The counter of the page at `srcva` of `e` has room for another mapping. -/
def Room (s : MemSys n) (e : EnvIdx) (srcva : Word) : Prop :=
  ∀ pp, s.lookupIn e srcva = some (some pp) → (s.pm.ppRef pp).toNat < 65535

/-- A page is sent only to an environment that has named an address for it. -/
def SendOk (s : MemSys n) (A : EnvIdx) (envid srcva : Word) : Prop :=
  srcva ≠ 0 → s.Room A srcva ∧ ∀ B, s.Receives A envid B → (s.kern.envs B).envIpcDstva ≠ 0

structure Effect (s s' : MemSys n) (A : EnvIdx) (T : EnvIdx → Prop) (P : Prop) : Prop where
  own : ∀ B, ¬ T B → (s'.kern.envs B).ownState = (s.kern.envs B).ownState
  kept : ∀ B, ¬ T B → Kept s s' A B
  inv : P → s'.CallInv
  legal : P → s.Legal → s'.Legal

theorem CallInv.ofSettled (h : s.CallInv) (hk : k.Settled)
    (hfree : ∀ e, (k.envs e).envStatus = .free → (s.kern.envs e).envStatus = .free)
    (hlive : ∀ e, (k.envs e).envStatus ≠ .free → s.pgdir e ≠ none) : (s.setKern k).CallInv :=
  ⟨h.mem.ofKern hk.dstva, h.sys, h.base, h.window, h.shared, h.self, hk.freeList, hk.running,
    hk.calm, h.above, fun e d hst => h.vacant e d (hfree e hst), h.high, hlive⟩

theorem CallInv.steady (h : s.CallInv) (hk : s.kern.Steady T k) : (s.setKern k).CallInv :=
  h.ofSettled (hk.settled h.settled) (fun e => (hk.free e).mp)
    (fun e hlive => h.live e (fun hfree => hlive ((hk.free e).mpr hfree)))

theorem Legal.steady (h : s.Legal) (hk : s.kern.Steady T k) : (s.setKern k).Legal := by
  refine ⟨h.pages, fun e => ?_⟩
  rcases hk.dstva e with hsame | hlegal
  · show LegalDst (k.envs e).envIpcDstva
    rw [hsame]
    exact h.dstva e
  · exact hlegal

namespace Effect

theorem refl (h : s.CallInv) : Effect s s A T P :=
  ⟨fun _ _ => rfl, fun B _ => .refl s A B, fun _ => h, fun _ => id⟩

/-- A change of the environments at the end of a call. -/
theorem kern (h : Effect s s' A T P) (hk : s'.kern.Steady T k) : Effect s (s'.setKern k) A T P where
  own := fun B hB => (hk.own B hB).trans (h.own B hB)
  kept := fun B hB => (h.kept B hB).of_kern
  inv := fun hok => (h.inv hok).steady hk
  legal := fun hok hl => (h.legal hok hl).steady hk

theorem ret (h : Effect s s' A T P) (r : Word) : Effect s (s'.ret c r) A T P := h.kern (.setV0 r)

theorem steady (h : s.CallInv) (hk : s.kern.Steady T k) : Effect s (s.setKern k) A T P :=
  (refl h).kern hk

/-- One part of a call after the other. -/
theorem trans (hinv : s.CallInv) (h₁ : Effect s s₁ A T P) (h₂ : Effect s₁ s' A T P)
    (hmaps : ∀ p, s₁.Maps A p → s.Maps A p ∨ s.pm.Free p) : Effect s s' A T P where
  own := fun B hB => (h₂.own B hB).trans (h₁.own B hB)
  kept := fun B hB => .trans hinv (h₁.kept B hB) (h₂.kept B hB) hmaps
  inv := h₂.inv
  legal := fun hok hl => h₂.legal hok (h₁.legal hok hl)

theorem mono {T' : EnvIdx → Prop} {P' : Prop} (h : Effect s s' A T P) (hT : ∀ B, T B → T' B)
    (hok : P' → P) : Effect s s' A T' P' where
  own := fun B hB => h.own B (fun hTB => hB (hT B hTB))
  kept := fun B hB => h.kept B (fun hTB => hB (hT B hTB))
  inv := fun hok' => h.inv (hok hok')
  legal := fun hok' => h.legal (hok hok')

end Effect

theorem Touched.effect (h : Touched s s' A) (hT : T A) : Effect s s' A T P where
  own := fun B _ => by rw [h.kern]
  kept := fun B hB => h.kept B (by rintro rfl; exact hB hT)
  inv := fun _ => h.inv
  legal := by
    intro _ hl
    refine ⟨h.legal hl.pages, fun e => ?_⟩
    rw [h.kern]
    exact hl.dstva e

/-- A call after some accesses of the caller. -/
theorem Touched.then_effect (hinv : s.CallInv) (h : Touched s s₁ A) (hT : T A)
    (he : Effect s₁ s' A T P) : Effect s s' A T P :=
  (h.effect hT).trans hinv he h.maps

/-- `schedule`, when there is no kill to carry out first. -/
theorem resume_steady {outcome : Kern.SchedOutcome} (hrun : s.resume outcome c = some s')
    (hout : ∀ e k, outcome = .run e k → (k.envs e).envStatus = .runnable →
      s.kern.Steady T k ∧ ∀ old, k.curenv c = some old → T old)
    (hspin : ∀ k, outcome = .spin k → s.kern.Steady T k) :
    ∃ k, s' = s.setKern k ∧ s.kern.Steady T k := by
  unfold resume at hrun
  split at hrun
  · next e k =>
    split at hrun <;> cases hrun
    next hst =>
    obtain ⟨hk, hcur⟩ := hout e k rfl hst
    exact ⟨_, rfl, hk.trans (.switchTo hcur)⟩
  · next k =>
    cases hrun
    exact ⟨k, rfl, hspin k rfl⟩
  · cases hrun

theorem schedSection_steady {k : Kern} (yield : Bool) (hT : ∀ old, k.curenv c = some old → T old) :
    (∀ e k', k.schedSection c yield = .run e k' → (k'.envs e).envStatus = .runnable →
      k.Steady T k' ∧ ∀ old, k'.curenv c = some old → T old) ∧
      ∀ k', k.schedSection c yield = .spin k' → k.Steady T k' := by
  unfold schedSection
  split
  · refine ⟨fun e k' hpick hst => ⟨?_, fun old hold => hT old ?_⟩, fun k' hpick => ?_⟩
    · exact .trans .release (.pickNext_run hpick hst)
    · rwa [curenv_pickNext hpick, curenv_release] at hold
    · rw [pickNext_spin hpick]
      exact .release
  · split
    · next e hcur =>
      refine ⟨fun f k' hf _ => ?_, fun k' hf => by cases hf⟩
      cases hf
      refine ⟨.of_same rfl rfl, fun old hold => hT old ?_⟩
      rwa [curenv_countDown] at hold
    · exact ⟨fun f k' hf => (by cases hf), fun k' hf => (by cases hf)⟩

theorem schedule_steady {yield : Bool}
    (hcalm : ∀ e, s.kern.curenv c = some e → (s.kern.envs e).envKillPending = false)
    (hT : ∀ old, s.kern.curenv c = some old → T old) (hrun : s.schedule c yield = some s') :
    ∃ k, s' = s.setKern k ∧ s.kern.Steady T k := by
  have hcheck : s.checkKillPending c = some s := by
    unfold checkKillPending
    split
    · next e hcur => rw [hcalm e hcur]; rfl
    · rfl
  unfold schedule at hrun
  rw [hcheck] at hrun
  obtain ⟨hout, hspin⟩ := schedSection_steady (T := T) (c := c)
    (k := { s.kern with timerScheduleReady := s.kern.timerScheduleReady || c = 0 }) yield hT
  have htimer : s.kern.Steady T
      { s.kern with timerScheduleReady := s.kern.timerScheduleReady || c = 0 } :=
    .of_same rfl rfl
  refine resume_steady hrun (fun e k hk hst => ?_) (fun k hk => ?_)
  · obtain ⟨hsteady, hcur⟩ := hout e k hk hst
    exact ⟨htimer.trans hsteady, hcur⟩
  · exact htimer.trans (hspin k hk)

theorem CallInv.schedule {yield : Bool} (h : s.CallInv)
    (hT : ∀ old, s.kern.curenv c = some old → T old) (hrun : s.schedule c yield = some s') :
    Effect s s' A T P := by
  obtain ⟨_, rfl, hk⟩ := schedule_steady (fun e _ => h.calm e) hT hrun
  exact .steady h hk

theorem Legal.ofKern {k : Kern} (h : s.Legal)
    (hdst : ∀ e, (k.envs e).envIpcDstva = (s.kern.envs e).envIpcDstva) : (s.setKern k).Legal :=
  ⟨h.pages, fun e => (hdst e) ▸ h.dstva e⟩

theorem vaOf_legal (hva : isIllegalVa va = false) : UTEMP ≤ vaOf (pdx va) (ptx va) := by
  have htemp : UTEMP.toNat = 0x3fe * 2 ^ 12 := by decide
  simp only [isIllegalVa, Bool.or_eq_false_iff, decide_eq_false_iff_not, BitVec.lt_def,
    not_lt] at hva
  rw [BitVec.le_def, vaOf_toNat, pdx_val, ptx_val]
  omega

variable {r : Except Err Unit}

section

variable (hn : n ≤ 2 ^ 20) (h : s.CallInv) (hlive : (s.kern.envs e).envStatus ≠ .free)
include hn h hlive

/-- `page_insert` of a page that is in use. -/
theorem CallInv.insertInto_inv {perm : Word} {pp : Page n} (hva : pdx va < pdx UTOP)
    (hperm : perm < 0x1000#32)
    (hpp : s.own pp = 0 ∧ (∀ d i, s.tableAt d i ≠ some pp) ∧ ¬ s.pm.Free pp)
    (href : (s.pm.ppRef pp).toNat < 65535) (hrun : s.insertInto e pp va perm = some (r, s')) :
    s'.CallInv := by
  obtain ⟨hown, htab, hfree⟩ := hpp
  obtain ⟨d, ho, _⟩ := h.insertInto_stored hn hva hrun
  exact ho.callInv h hlive (h.mem.insertInto hn hva hperm hown htab hfree href hrun).1
    (h.insertInto_high hn hva hrun)

theorem CallInv.insertInto_effect {perm : Word} {pp : Page n} (hT : T e) (hva : pdx va < pdx UTOP)
    (hperm : perm < 0x1000#32)
    (hpp : s.own pp = 0 ∧ (∀ d i, s.tableAt d i ≠ some pp) ∧ ¬ s.pm.Free pp)
    (href : P → (s.pm.ppRef pp).toNat < 65535)
    (hlegal : P → s.Legal → UTEMP ≤ vaOf (pdx va) (ptx va))
    (hrun : s.insertInto e pp va perm = some (r, s')) : Effect s s' A T P ∧ s'.kern = s.kern := by
  obtain ⟨d, ho, _⟩ := h.insertInto_stored hn hva hrun
  refine ⟨⟨fun B _ => by rw [ho.kern], fun B hB => ?_, fun hok => ?_, fun hok hl => ?_⟩, ho.kern⟩
  · refine ho.kept h ?_ A
    rintro rfl
    exact hB hT
  · exact h.insertInto_inv hn hlive hva hperm hpp (href hok) hrun
  · refine ⟨fun e' d' i j q hd' hi hq => ?_, fun e' => by rw [ho.kern]; exact hl.dstva e'⟩
    rw [ho.pgdir] at hd'
    rcases h.insertInto_pages hn hva hperm hpp.2.2 (href hok) hrun d' i j with
      hsame | ⟨_, rfl, rfl, _⟩
    · exact hl.pages e' d' i j q hd' hi (hsame.symm.trans hq)
    · exact hlegal hok hl

end

theorem owned_envid2env {envid : Word} (hlive : (s.kern.envs A).envStatus ≠ .free)
    (hid : s.kern.envid2env A envid true = .ok e) :
    s.Owned A e ∧ (s.kern.envs e).envStatus ≠ .free := by
  refine ⟨?_, envid2env_live hid hlive⟩
  rcases envid2env_owned hid with he | ⟨_, hparent⟩
  · exact .inl he
  · exact .inr hparent

/-- The data of a device call lies below `UTOP`. -/
theorem pdx_of_devCall {pa len : Word} (h : isIllegalDevCall va pa len = false) :
    pdx va < pdx UTOP := by
  have htop : UTOP.toNat = 509 * 2 ^ 22 := by decide
  unfold isIllegalDevCall isIllegalVaRange at h
  simp only [Bool.or_eq_false_iff] at h
  obtain ⟨⟨⟨hlen, hrange⟩, _⟩, _⟩ := h
  have hcases : len = 1 ∨ len = 2 ∨ len = 4 := by
    by_contra hno
    rw [not_or, not_or] at hno
    simp at hlen
    exact hno.2.2 (hlen hno.1 hno.2.1)
  have hpos : len ≠ 0 ∧ 0 < len.toNat := by
    rcases hcases with rfl | rfl | rfl <;> decide
  rw [if_neg hpos.1] at hrange
  simp only [Bool.or_eq_false_iff, decide_eq_false_iff_not, BitVec.lt_def, not_lt] at hrange
  obtain ⟨⟨_, _⟩, _⟩ := hrange
  have hsum := BitVec.toNat_add va len
  have hltlen := len.isLt
  rw [Fin.lt_def, pdx_val, pdx_utop.1]
  omega

/-- A CPU without an environment picks its next one. -/
theorem leave_steady (hrun : s.leave c = some s') : ∃ k, s' = s.setKern k ∧ s.kern.Steady T k := by
  have hnone : (s.kern.setCurenv c none).curenv c = none := by
    rw [curenv_setCurenv, update_self]
  obtain ⟨k, rfl, hk⟩ := schedule_steady (T := T)
    (fun e he => by cases hnone.symm.trans he) (fun e he => by cases hnone.symm.trans he) hrun
  exact ⟨k, rfl, .trans (.setCurenv none) hk⟩

section

variable (h : s.CallInv) (hT : T e) (hlive : (s.kern.envs e).envStatus ≠ .free)
include h hT hlive

/-- `env_free` on `e`, whose kill flags have been set. -/
theorem CallInv.kill {f : Env → Env} (hf : ∀ x, (f x).envIpcDstva = x.envIpcDstva)
    (hrun : (s.setKern (s.kern.updEnv e f)).envFree e = some s') : Effect s s' A T P := by
  have henv : (s.kern.updEnv e f).envs = update s.kern.envs e (f (s.kern.envs e)) := rfl
  obtain ⟨hinv, hkept, hlegal, hkern⟩ := h.envFree hlive henv rfl (hf _) hrun
  have hne : ∀ B, ¬ T B → B ≠ e := by
    rintro B hB rfl
    exact hB hT
  have henvs : ∀ B, B ≠ e → s'.kern.envs B = s.kern.envs B := by
    intro B hB
    rw [hkern, envs_freeSection, update_of_ne hB, envs_asidFree, envs_updEnv_ne _ _ hB]
  refine ⟨fun B hB => by rw [henvs B (hne B hB)], fun B hB => hkept A B (hne B hB).symm,
    fun _ => hinv, fun _ hl => ⟨hlegal hl.pages, fun B => ?_⟩⟩
  by_cases hB : B = e
  · rw [hB, hkern, envs_freeSection, update_self, envs_asidFree,
      envs_updEnv_self]
    show LegalDst (f (s.kern.envs e)).envIpcDstva
    rw [hf]
    exact hl.dstva e
  · rw [henvs B hB]
    exact hl.dstva B

/-- The end of an environment, on the CPU that runs it or on that of the
caller. -/
theorem CallInv.envDestroy (hrun : s.envDestroy c e = some s') : Effect s s' A T P := by
  unfold MemSys.envDestroy Kern.destroySection at hrun
  rw [if_neg hlive] at hrun
  by_cases hremote : (s.kern.envs e).envRunning = true ∧ (s.kern.envs e).envCpuId ≠ some c
  · rw [if_pos hremote] at hrun
    dsimp only at hrun
    split at hrun
    · cases hrun
    · next d hd =>
      obtain ⟨s₁, hfree, hrest⟩ := bind_eq_some_iff.mp hrun
      obtain ⟨_, hl, rfl⟩ := map_eq_some_iff.mp hrest
      obtain ⟨k, rfl, hk⟩ := leave_steady (T := T) hl
      refine Effect.ret (Effect.kern (h.kill hT hlive ?_ hfree) hk) _
      exact fun _ => rfl
  · rw [if_neg hremote] at hrun
    obtain ⟨s₁, hfree, hrest⟩ := bind_eq_some_iff.mp hrun
    have heffect : Effect s s₁ A T P := by
      refine h.kill hT hlive ?_ hfree
      exact fun _ => rfl
    split at hrest
    · obtain ⟨k, rfl, hk⟩ := leave_steady (T := T) hrest
      exact heffect.kern hk
    · cases hrest
      exact heffect.ret _

end

/-- A new environment takes the first free slot. -/
theorem CallInv.sysExofork (h : s.CallInv) : Effect s (s.sysExofork c A) A
      (fun B => (s.kern.envs B).envStatus = .free ∧ s.kern.envFreeList.first = some B) True := by
  unfold MemSys.sysExofork
  split
  · exact (Effect.refl h).ret _
  · next e hfirst =>
    have hfree := h.freeList.first hfirst
    cases hvm : s.envSetupVm e with
    | mk r s₁ =>
      obtain ⟨h₁, hkept, hlegal, hkern, hpgdir⟩ := h.envSetupVm hfree hvm
      have hne : ∀ B, ¬ ((s.kern.envs B).envStatus = .free ∧
          s.kern.envFreeList.first = some B) → e ≠ B := by
        rintro B hB rfl
        exact hB ⟨hfree, hfirst⟩
      have hvmEffect : Effect s s₁ A (fun B => (s.kern.envs B).envStatus = .free ∧
          s.kern.envFreeList.first = some B) True := by
        refine ⟨fun B _ => by rw [hkern], fun B hB => hkept A B (hne B hB), fun _ => h₁,
          fun _ hl => ⟨hlegal hl.pages, fun B => ?_⟩⟩
        rw [hkern]
        exact hl.dstva B
      cases r with
      | error => exact hvmEffect.ret _
      | ok =>
        dsimp only
        cases hfork : s₁.kern.exofork c A ((s₁.pgdir e).map (fun p => ULIM + page2pa p)) with
        | mk r k =>
          have hforkEffect : Effect s (s₁.setKern k) A (fun B => (s.kern.envs B).envStatus = .free ∧
                s.kern.envFreeList.first = some B) True := by
            have hother : ∀ B, s.kern.envFreeList.first ≠ some B → k.envs B = s₁.kern.envs B :=
              fun B hB => exofork_envs_ne B hfork (by rwa [hkern])
            refine ⟨fun B hB => ?_, fun B hB => (hvmEffect.kept B hB).of_kern,
              fun _ => h₁.ofSettled (h₁.settled.exofork hfork) (fun B hst => ?_) (fun B hst => ?_),
              fun _ hl => (hvmEffect.legal trivial hl).ofKern (envIpcDstva_exofork hfork)⟩
            · show (k.envs B).ownState = _
              rw [hother B (fun hB' => hB ⟨h.freeList.first hB', hB'⟩), hkern]
            · by_cases hB : s.kern.envFreeList.first = some B
              · rw [hkern]
                exact h.freeList.first hB
              · rwa [hother B hB] at hst
            · by_cases hB : s.kern.envFreeList.first = some B
              · cases hfirst.symm.trans hB
                exact hpgdir rfl
              · rw [hother B hB] at hst
                exact h₁.live B hst
          cases r with
          | error | ok => exact hforkEffect.ret _

/-- Only the environments change, or a page of the sender is mapped where the
receiver has asked for it and then the environments change. -/
theorem sysIpcTrySend_cases {envid value srcva perm : Word}
    (hlive : (s.kern.envs A).envStatus ≠ .free)
    (hrun : s.sysIpcTrySend A envid value srcva perm = some (r, s')) :
    (∃ k, s.kern.Steady (s.Receives A envid) k ∧ s' = s.setKern k) ∨
      ∃ e p r₂ s₂ k, s.Receives A envid e ∧ srcva ≠ 0 ∧ isIllegalVa srcva = false ∧
        s.lookupIn A srcva = some (some p) ∧
        (s.setRecving e false).insertInto e p (s.kern.envs e).envIpcDstva perm = some (r₂, s₂) ∧
        s.kern.Steady (s.Receives A envid) (s.kern.setRecving e false) ∧
        ((s.kern.setRecving e false).envs e).envStatus ≠ .free ∧
        (s₂.kern = s.kern.setRecving e false → s₂.kern.Steady (s.Receives A envid) k) ∧
        s' = s₂.setKern k := by
  unfold sysIpcTrySend at hrun
  split at hrun
  · cases hrun
    exact .inl ⟨s.kern, .refl _ _, rfl⟩
  · next hsrc =>
    split at hrun
    · cases hrun
      exact .inl ⟨s.kern, .refl _ _, rfl⟩
    · next e hid =>
      have hlive' := envid2env_live hid hlive
      split at hrun
      · cases hrun
        exact .inl ⟨s.kern, .refl _ _, rfl⟩
      · next hrecv =>
        rw [Bool.not_eq_false] at hrecv
        dsimp only at hrun
        have hT : s.Receives A envid e := ⟨hid, hrecv⟩
        have hk : s.kern.Steady (s.Receives A envid) (s.kern.setRecving e false) :=
          .setRecving hT false
        have hlive₁ : ((s.kern.setRecving e false).envs e).envStatus ≠ .free :=
          fun hfree => hlive' ((hk.free e).mp hfree)
        have hdstva : ((s.kern.setRecving e false).envs e).envIpcDstva =
            (s.kern.envs e).envIpcDstva := by
          rw [envs_setRecving, update_self]
        split at hrun
        · cases hrun
          exact .inl ⟨_, hk.trans (.deliver hT hlive₁ ..), rfl⟩
        · next hzero =>
          have hva : isIllegalVa srcva = false := by
            by_contra hill
            exact hsrc ⟨hzero, Bool.eq_true_of_not_eq_false hill⟩
          split at hrun
          · cases hrun
          · cases hrun
            exact .inl ⟨_, hk.trans (.setRecving hT true), rfl⟩
          · next p hp =>
            refine .inr ⟨e, p, ?_⟩
            rw [show ((s.setRecving e false).kern.envs e).envIpcDstva =
              (s.kern.envs e).envIpcDstva from hdstva] at hrun
            split at hrun <;> cases hrun
            · next s₂ hins =>
              exact ⟨_, s₂, _, hT, hzero, hva, hp, hins, hk, hlive₁,
                fun _ => .setRecving hT true, rfl⟩
            · next s₂ hins =>
              refine ⟨_, s₂, _, hT, hzero, hva, hp, hins, hk, hlive₁,
                fun hkern => .deliver hT ?_ .., rfl⟩
              rw [hkern]
              exact hlive₁

section Calls

variable (hn : n ≤ 2 ^ 20) (h : s.CallInv) (hlive : (s.kern.envs A).envStatus ≠ .free)

include h hlive

theorem CallInv.sysSetTlbModEntry (envid func : Word) :
    Effect s (s.sysSetTlbModEntry c A envid func) A (s.Owned A) True := by
  unfold MemSys.sysSetTlbModEntry
  split
  · exact (Effect.refl h).ret _
  · next e hid =>
    have hT := (owned_envid2env hlive hid).1
    exact (Effect.steady h (.setTlbModEntry hT func)).ret _

variable {envid : Word} {r : Except Err Unit}

theorem CallInv.sysMemUnmap (hrun : s.sysMemUnmap A envid va = some (r, s')) :
    Effect s s' A (s.Owned A) True := by
  unfold MemSys.sysMemUnmap at hrun
  split at hrun
  · cases hrun
    exact .refl h
  · next hva =>
    split at hrun
    · cases hrun
      exact .refl h
    · next e hid =>
      obtain ⟨hT, hlive'⟩ := owned_envid2env hlive hid
      split at hrun
      · cases hrun
      · next d hd =>
        obtain ⟨_, hm, hs'⟩ := map_eq_some_iff.mp hrun
        obtain ⟨_, rfl⟩ := Prod.mk.inj hs'
        have hshrunk := (h.pageRemove hlive' hd (pdx_lt_utop (Bool.not_eq_true _ ▸ hva)) hm).1
        refine ⟨fun B _ => rfl, fun B hB => hshrunk.kept A B ?_, fun _ => hshrunk.inv,
          fun _ hl => ⟨hshrunk.legal hl.pages, hl.dstva⟩⟩
        rintro rfl
        exact hB hT

theorem CallInv.sysSetEnvStatus {envid status : Word}
    (hcur : ∀ old, s.kern.curenv c = some old → old = A)
    (hrun : s.sysSetEnvStatus c A envid status = some s') : Effect s s' A (s.Owned A) True := by
  unfold MemSys.sysSetEnvStatus at hrun
  split at hrun
  · cases hrun
    exact (Effect.refl h).ret _
  · next st hst =>
    have hst' : st ≠ .free := by
      unfold statusOfWord at hst
      split at hst
      · rintro rfl
        cases hst
      · split at hst
        · rintro rfl
          cases hst
        · cases hst
    split at hrun
    · cases hrun
      exact (Effect.refl h).ret _
    · next e hid =>
      obtain ⟨hT, hlive'⟩ := owned_envid2env hlive hid
      have hk : s.kern.Steady (s.Owned A) (s.kern.statusSection e st) :=
        .statusSection hT hlive' hst'
      split at hrun
      · refine (Effect.steady h hk).trans h ((h.steady hk).schedule (fun old hold => ?_) hrun)
          (fun _ hp => .inl hp)
        have hold' : (s.kern.statusSection e st).curenv c = some old := hold
        rw [curenv_statusSection] at hold'
        exact .inl (hcur old hold')
      · cases hrun
        exact (Effect.steady h hk).ret _

theorem CallInv.sysIpcRecvCall {dstva : Word} (hcur : ∀ old, s.kern.curenv c = some old → old = A)
    (hrun : s.sysIpcRecvCall c A dstva = some s') : Effect s s' A (s.Owned A) True := by
  unfold MemSys.sysIpcRecvCall MemSys.sysIpcRecv at hrun
  by_cases hva : dstva ≠ 0 ∧ isIllegalVa dstva = true
  · rw [if_pos hva] at hrun
    cases hrun
    exact (Effect.refl h).ret _
  · rw [if_neg hva] at hrun
    have hlegal : LegalDst dstva := by
      by_cases hz : dstva = 0
      · exact .inl hz
      · exact .inr (Bool.not_eq_true _ ▸ fun hill => hva ⟨hz, hill⟩)
    have hk : s.kern.Steady (s.Owned A) ((s.kern.recvSection A dstva).setV0 c 0) :=
      .trans (.recvSection (.inl rfl) hlive hlegal) (.setV0 0)
    refine (Effect.steady h hk).trans h ((h.steady hk).schedule (fun old hold => ?_) hrun)
      (fun _ hp => .inl hp)
    have hold' : ((s.kern.recvSection A dstva).setV0 c 0).curenv c = some old := hold
    rw [curenv_setV0, curenv_recvSection] at hold'
    exact .inl (hcur old hold')

theorem CallInv.sysEnvDestroy (hrun : s.sysEnvDestroy c A envid = some s') :
    Effect s s' A (s.Owned A) True := by
  unfold MemSys.sysEnvDestroy at hrun
  split at hrun
  · cases hrun
    exact (Effect.refl h).ret _
  · next e hid =>
    obtain ⟨hT, hlive'⟩ := owned_envid2env hlive hid
    exact h.envDestroy hT hlive' hrun

include hn

theorem CallInv.sysMemAlloc {envid perm : Word} (hperm : perm < 0x1000#32)
    (hrun : s.sysMemAlloc A envid va perm = some (r, s')) : Effect s s' A (s.Owned A) True := by
  unfold MemSys.sysMemAlloc at hrun
  split at hrun
  · cases hrun
    exact .refl h
  · next hva =>
    have hva : isIllegalVa va = false := Bool.not_eq_true _ ▸ hva
    split at hrun
    · cases hrun
      exact .refl h
    · next e hid =>
      obtain ⟨hT, hlive'⟩ := owned_envid2env hlive hid
      split at hrun
      · cases hrun
        exact .refl h
      · next p m ha =>
        obtain ⟨_, hd⟩ := ne_none_iff_exists'.mp (h.live e hlive')
        obtain ⟨hinv₁, hown, htab, hfree, href⟩ := h.mem.allocated ha
        obtain ⟨_, _, _, hslots, _⟩ := h.mem.acc.pageAlloc ha
        have ho := h.pageAlloc_onDir (g := fun e' q => s.grants e' q && decide (q ≠ p)) hd ha
        have h₁ := ho.callInv h hlive' hinv₁ (h.pageAlloc_high hd ha)
        have hpage : ∀ q i j, m.pageAt s.user q i j = s.pageAt q i j :=
          fun q i j => congrFun hslots (.inr (q, i, j))
        have hfirst : Effect s { s with
            pm := m, grants := fun e' q => s.grants e' q && decide (q ≠ p) } A
            (s.Owned A) True := by
          refine ⟨fun _ _ => rfl, fun B hB => ho.kept h ?_ A, fun _ => h₁, fun _ hl => ?_⟩
          · rintro rfl
            exact hB hT
          · refine ⟨fun e' d' i j q hd' hi hq => ?_, hl.dstva⟩
            exact hl.pages e' d' i j q hd' hi ((hpage d' i j).symm.trans hq)
        refine hfirst.trans h (h₁.insertInto_effect hn hlive' hT (pdx_lt_utop hva) hperm
          ⟨hown, htab, hfree⟩ (fun _ => ?_) (fun _ _ => vaOf_legal hva) hrun).1 ?_
        · show (m.ppRef p).toNat < 65535
          rw [href]
          decide
        · rintro q ⟨d', i, j, hd', hi, hq⟩
          exact .inl ⟨d', i, j, hd', hi, (hpage d' i j).symm.trans hq⟩

theorem CallInv.sysMemMap {srcid srcva dstid dstva perm : Word} (hperm : perm < 0x1000#32)
    (hrun : s.sysMemMap A srcid srcva dstid dstva perm = some (r, s')) :
    Effect s s' A (s.Owned A)
      (∀ src, s.kern.envid2env A srcid true = .ok src → s.Room src srcva) := by
  unfold MemSys.sysMemMap at hrun
  split at hrun
  · cases hrun
    exact .refl h
  · next hva =>
    rw [Bool.or_eq_true, not_or, Bool.not_eq_true, Bool.not_eq_true] at hva
    split at hrun
    · cases hrun
      exact .refl h
    · next src hsrc =>
      split at hrun
      · cases hrun
        exact .refl h
      · next dst hdst =>
        obtain ⟨hT, hlive'⟩ := owned_envid2env hlive hdst
        split at hrun
        · cases hrun
        · cases hrun
          exact .refl h
        · next pp hpp =>
          exact (h.insertInto_effect hn hlive' hT (pdx_lt_utop hva.2) hperm
            (h.mem.lookupIn (pdx_lt_utop hva.1) hpp) (fun hok => hok src hsrc pp hpp)
            (fun _ _ => vaOf_legal hva.2) hrun).1

theorem CallInv.sysSetTrapframe {tf : Trapframe}
    (hrun : s.sysSetTrapframe c A envid va tf = some s') : Effect s s' A (s.Owned A) True := by
  unfold MemSys.sysSetTrapframe at hrun
  split at hrun
  · cases hrun
    exact (Effect.refl h).ret _
  · split at hrun
    · cases hrun
      exact (Effect.refl h).ret _
    · next e hid =>
      have hT := (owned_envid2env hlive hid).1
      obtain ⟨s₁, htouch, rfl⟩ := map_eq_some_iff.mp hrun
      have hfirst : Effect s s₁ A (s.Owned A) True :=
        (h.touchRange hn hlive htouch).effect (.inl rfl)
      split
      · exact (hfirst.kern (.saveAll tf)).ret _
      · exact (hfirst.kern (.setTrapframe hT tf)).ret _

theorem CallInv.sysPrintCons {str num : Word} (hrun : s.sysPrintCons c A str num = some s') :
    Effect s s' A (s.Owned A) True := by
  unfold MemSys.sysPrintCons at hrun
  split at hrun
  · cases hrun
    exact (Effect.refl h).ret _
  · obtain ⟨_, htouch, rfl⟩ := map_eq_some_iff.mp hrun
    exact ((h.touchRange hn hlive htouch).effect (.inl rfl)).ret _

theorem CallInv.sysWriteDev {pa len : Word} (hrun : s.sysWriteDev c A va pa len = some s') :
    Effect s s' A (s.Owned A) True := by
  unfold MemSys.sysWriteDev at hrun
  split at hrun
  · cases hrun
    exact (Effect.refl h).ret _
  · obtain ⟨_, htouch, rfl⟩ := map_eq_some_iff.mp hrun
    exact ((h.touch hn hlive htouch).effect (.inl rfl)).ret _

theorem CallInv.sysReadDev {pa len value : Word} {frame : Fin 38 → Word}
    (hrun : s.sysReadDev c A va pa len value frame = some s') :
    Effect s s' A (s.Owned A) True := by
  unfold MemSys.sysReadDev at hrun
  split at hrun
  · cases hrun
    exact (Effect.refl h).ret _
  · next hlegal =>
    have hva := pdx_of_devCall (Bool.not_eq_true _ ▸ hlegal)
    obtain ⟨s₁, htouch, hrest⟩ := bind_eq_some_iff.mp hrun
    have h₁ := h.touch hn hlive htouch
    have hlive₁ : (s₁.kern.envs A).envStatus ≠ .free := by
      rw [h₁.kern]
      exact hlive
    have hself : s.Owned A A := .inl rfl
    split at hrest
    · cases hrest
    · split at hrest
      · obtain ⟨_, hstore, rfl⟩ := map_eq_some_iff.mp hrest
        exact (h₁.then_effect h hself ((h₁.inv.storeWord hva hstore).effect hself)).ret _
      · split at hrest
        · cases hrest
        · exact h₁.then_effect h hself
            ((h₁.inv.pushFrame hn hlive₁ hrest).effect hself)

variable {envid value srcva perm : Word}

/-- A message may reach any environment that waits for one. The page goes to
the address that the receiver has named. -/
theorem CallInv.sysIpcTrySend (hperm : perm < 0x1000#32)
    (hrun : s.sysIpcTrySend A envid value srcva perm = some (r, s')) :
    Effect s s' A (s.Receives A envid) (s.SendOk A envid srcva) := by
  rcases sysIpcTrySend_cases hlive hrun with ⟨k, hk, rfl⟩ |
    ⟨e, p, r₂, s₂, k, hT, hzero, hva, hp, hins, hk, hlive₁, hk₂, rfl⟩
  · exact .steady h hk
  · have h₁ : (s.setRecving e false).CallInv := h.steady hk
    have hpp := h₁.mem.lookupIn (pdx_lt_utop hva) hp
    obtain ⟨heffect, hkern⟩ := h₁.insertInto_effect (A := A)
      (P := s.SendOk A envid srcva) hn hlive₁ hT (h.mem.dstva e) hperm hpp
      (fun hok => (hok hzero).1 p hp) (fun hok hl => by
        have hlegal := hl.dstva e
        rw [show ((s.setRecving e false).kern.envs e).envIpcDstva = (s.kern.envs e).envIpcDstva by
            rw [show (s.setRecving e false).kern = s.kern.setRecving e false from rfl,
              envs_setRecving, update_self]] at hlegal
        exact vaOf_legal (hlegal.resolve_left ((hok hzero).2 e hT))) hins
    exact ((Effect.steady h hk).trans h heffect (fun _ hq => .inl hq)).kern (hk₂ hkern)

/-- The page may arrive at any address that the receiver has named. -/
theorem CallInv.sysIpcTrySend_inv (hperm : perm < 0x1000#32) (hroom : srcva ≠ 0 → s.Room A srcva)
    (hrun : s.sysIpcTrySend A envid value srcva perm = some (r, s')) : s'.CallInv := by
  rcases sysIpcTrySend_cases hlive hrun with ⟨k, hk, rfl⟩ |
    ⟨e, p, r₂, s₂, k, hT, hzero, hva, hp, hins, hk, hlive₁, hk₂, rfl⟩
  · exact h.steady hk
  · have h₁ : (s.setRecving e false).CallInv := h.steady hk
    obtain ⟨_, ho, _⟩ := h₁.insertInto_stored hn (h.mem.dstva e) hins
    exact (h₁.insertInto_inv hn hlive₁ (h.mem.dstva e) hperm
      (h₁.mem.lookupIn (pdx_lt_utop hva) hp) (hroom hzero p hp) hins).steady (hk₂ ho.kern)

end Calls

/-- The environments that a call may change. -/
def Targets (s : MemSys n) (A : EnvIdx) (call : UserCall) (B : EnvIdx) : Prop :=
  s.Owned A B ∨ match call with
    | .ipcTrySend envid _ _ _ => s.Receives A envid B
    | .exofork => (s.kern.envs B).envStatus = .free ∧ s.kern.envFreeList.first = some B
    | _ => False

/-- No counter overflows, and a page is sent only where one is awaited. -/
def CallOk (s : MemSys n) (A : EnvIdx) : UserCall → Prop
  | .memMap srcid srcva _ _ _ =>
    ∀ src, s.kern.envid2env A srcid true = .ok src → s.Room src srcva
  | .ipcTrySend envid _ srcva _ => s.SendOk A envid srcva
  | _ => True

theorem finish_effect {x : Except Err Unit × MemSys n} (h : Effect s x.2 A T P) :
    Effect s (finish c x) A T P := by
  obtain ⟨r, _⟩ := x
  cases r with
  | error | ok => exact h.ret _

section

variable (hn : n ≤ 2 ^ 20) (h : s.CallInv) (hlive : (s.kern.envs A).envStatus ≠ .free)
include hn h hlive

/-- What any of the calls leaves behind. -/
theorem CallInv.callStep {call : UserCall} (hcur : ∀ old, s.kern.curenv c = some old → old = A)
    (hperm : call.LowPerm) (hrun : s.callStep c A call = some s') :
    Effect s s' A (s.Targets A call) (s.CallOk A call) := by
  have hsched : ∀ {k : Kern} {s₂ : MemSys n} {yield : Bool}, s.kern.Steady (s.Owned A) k →
      k.curenv = s.kern.curenv → (s.setKern k).schedule c yield = some s₂ →
      Effect s s₂ A (s.Owned A) True := by
    intro k s₂ yield hk hkcur hs
    refine (Effect.steady h hk).trans h ((h.steady hk).schedule (fun old hold => ?_) hs)
      (fun _ hp => .inl hp)
    have hold' : k.curenv c = some old := hold
    rw [hkcur] at hold'
    exact .inl (hcur old hold')
  have hown : ∀ {s₂ : MemSys n} {Q : Prop}, Effect s s₂ A (s.Owned A) Q →
      (s.CallOk A call → Q) → Effect s s₂ A (s.Targets A call) (s.CallOk A call) :=
    fun heffect hQ => heffect.mono (fun B hB => .inl hB) hQ
  have hret : ∀ r, Effect s (s.ret c r) A (s.Owned A) True := fun r => (Effect.refl h).ret r
  cases call with
  | putchar | getenvid =>
    cases hrun
    exact hown (hret _) (fun _ => trivial)
  | printCons => exact hown (h.sysPrintCons hn hlive hrun) (fun _ => trivial)
  | yield => exact hown (hsched (.refl _ _) rfl hrun) (fun _ => trivial)
  | envDestroy => exact hown (h.sysEnvDestroy hlive hrun) (fun _ => trivial)
  | setTlbModEntry envid func =>
    cases hrun
    exact hown (h.sysSetTlbModEntry hlive envid func) (fun _ => trivial)
  | memAlloc =>
    obtain ⟨⟨r, s₁⟩, hcall, rfl⟩ := map_eq_some_iff.mp hrun
    exact hown (finish_effect (h.sysMemAlloc hn hlive hperm hcall)) (fun _ => trivial)
  | memMap =>
    obtain ⟨⟨r, s₁⟩, hcall, rfl⟩ := map_eq_some_iff.mp hrun
    exact hown (finish_effect (h.sysMemMap hn hlive hperm hcall)) id
  | memUnmap =>
    obtain ⟨⟨r, s₁⟩, hcall, rfl⟩ := map_eq_some_iff.mp hrun
    exact hown (finish_effect (h.sysMemUnmap hlive hcall)) (fun _ => trivial)
  | exofork =>
    cases hrun
    exact h.sysExofork.mono (fun B hB => .inr hB) id
  | setEnvStatus =>
    exact hown (h.sysSetEnvStatus hlive hcur hrun) (fun _ => trivial)
  | setTrapframe => exact hown (h.sysSetTrapframe hn hlive hrun) (fun _ => trivial)
  | panic => cases hrun
  | ipcTrySend =>
    obtain ⟨⟨r, s₁⟩, hcall, rfl⟩ := map_eq_some_iff.mp hrun
    exact (finish_effect (h.sysIpcTrySend hn hlive hperm hcall)).mono (fun B hB => .inr hB) id
  | ipcRecv => exact hown (h.sysIpcRecvCall hlive hcur hrun) (fun _ => trivial)
  | cgetc ch =>
    have hrun' : s.sysCgetc c ch = some s' := hrun
    unfold sysCgetc at hrun'
    split at hrun'
    · exact hown (hsched (.setV0 0) (curenv_setV0 ..) hrun') (fun _ => trivial)
    · cases hrun'
      exact hown (hret _) (fun _ => trivial)
  | writeDev => exact hown (h.sysWriteDev hn hlive hrun) (fun _ => trivial)
  | readDev => exact hown (h.sysReadDev hn hlive hrun) (fun _ => trivial)

/-- The start of a call changes nothing of the environments but the frame that
the caller is resumed with. -/
theorem CallInv.enter {tf : Trapframe} (hrun : s.enter c A tf = some s') :
    ∃ k, s.kern.Steady T k ∧ k.envs = s.kern.envs ∧ k.curenv = s.kern.curenv ∧
      Touched (s.setKern k) s' A := by
  unfold MemSys.enter at hrun
  split at hrun
  · cases hrun
  · obtain ⟨_, hfirst, hsecond⟩ := bind_eq_some_iff.mp hrun
    have hk : s.kern.Steady T (s.kern.saveAll c { tf with cp0Epc := tf.cp0Epc + 4 }) := .saveAll _
    have h₀ := h.steady hk
    have h₁ := h₀.touch hn hlive hfirst
    refine ⟨_, hk, rfl, curenv_saveAll .., h₁.trans h₀ (h₁.inv.touch hn ?_ hsecond)⟩
    rw [h₁.kern]
    exact hlive

end

end MemSys

end MosSmp
