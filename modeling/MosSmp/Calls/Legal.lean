import MosSmp.Calls.Frame

/-!
Runs of system calls, page faults and timer interrupts. The check that each
call makes on the addresses it is given keeps the mappings at `UTEMP` and above,
but `sys_ipc_try_send` maps at the address that the receiver has stored, and a
receiver that wants no page has stored 0 there.
-/

namespace MosSmp

open Lib

namespace MemSys

variable {n : Nat} {s s' : MemSys n} {A B e : EnvIdx} {c : CpuId}

/-- Every valid entry of the tables below `UTOP` is for an address at `UTEMP` or
above. -/
def LegalEntries (s : MemSys n) : Prop :=
  ∀ e d i t j, s.pgdir e = some d → i < pdx UTOP → entryPage (s.pm.mem d i) = some t →
    pteValid (s.pm.mem t j) = true → UTEMP ≤ vaOf i j

/-- The calls pass permission bits only, no counter overflows, and a page is
sent only to an environment that has named an address for it. -/
def PagesAwaited (s : MemSys n) (l : CpuId × Event) : Prop :=
  ∀ A tf call, s.executing l.1 = some A → l.2 = .syscall tf call →
    call.LowPerm ∧ ∀ s₁, s.enter l.1 A tf = some s₁ → s₁.CallOk A call

theorem CallInv.legalEntries (h : s.CallInv) (hl : s.Legal) : s.LegalEntries := by
  intro e d i t j hd hi ht hv
  have htab : s.tableAt d i = some t := (tableAt_of_pgdir hd hi).trans ht
  obtain ⟨p, hp⟩ := h.mem.acc.tables.pageIn d i t j htab hv
  refine hl.pages e d i j p hd hi ?_
  unfold MemSys.pageAt
  rw [Pmap.pageAt_of_table htab]
  unfold entryPage
  rw [if_pos hv, hp]

theorem CallInv.resume_idle (h : s.CallInv) (hrun : s.resume (s.kern.pickNext c) c = some s') :
    Effect s s' A (fun _ => True) True := by
  obtain ⟨k, rfl, hk⟩ := resume_steady (T := fun _ => True) hrun
    (fun e k hpick hst => ⟨.pickNext_run hpick hst, fun _ _ => trivial⟩)
    (fun k hpick => by
      rw [Kern.pickNext_spin hpick]
      exact .refl _ _)
  exact .steady h hk

section

variable (hn : n ≤ 2 ^ 20) (h : s.CallInv)
include hn h

/-- `do_tlb_mod` puts a frame on a stack of the program. -/
theorem CallInv.tlbMod {tf : Trapframe} {frame kernelFrame : Fin 38 → Word}
    (hlive : (s.kern.envs A).envStatus ≠ .free)
    (hrun : s.tlbMod c A tf frame kernelFrame = some s') :
    Effect s s' A (fun _ => True) True := by
  have htop : ∀ sp : Word,
      USTACKTOP ≤ (if sp < USTACKTOP ∨ UXSTACKTOP ≤ sp then UXSTACKTOP else sp) ∧
        (if sp < USTACKTOP ∨ UXSTACKTOP ≤ sp then UXSTACKTOP else sp) ≤ UXSTACKTOP := by
    intro sp
    split
    · decide
    · next hin =>
      rw [not_or, BitVec.not_lt, BitVec.not_le] at hin
      exact ⟨hin.1, BitVec.le_of_lt hin.2⟩
  unfold MemSys.tlbMod at hrun
  dsimp only at hrun
  split at hrun
  · cases hrun
  split at hrun
  · cases hrun
  · next hcopy =>
    have h₁ := h.copyFrame hn hlive (pdx_frame (htop _).1 (htop _).2) _ hcopy
    cases hrun
    exact (h₁.effect trivial).kern (.saveAll _)
  · next hcopy =>
    have h₁ := h.copyFrame hn hlive (pdx_frame (htop _).1 (htop _).2) _ hcopy
    obtain ⟨_, hpush, rfl⟩ := Option.map_eq_some_iff.mp hrun
    have h₂ := h₁.inv.pushFrame hn (by rw [h₁.kern]; exact hlive) hpush
    exact ((h₁.trans h h₂).effect trivial).kern (.saveAll _)

variable {l : CpuId × Event}

/-- What happens on a CPU is a system call, or keeps everything well formed in
any case. -/
theorem CallInv.step_cases (hrun : s.step l = some s') :
    (∃ A, Effect s s' A (fun _ => True) True) ∨
      ∃ A tf call, s.executing l.1 = some A ∧ l.2 = .syscall tf call ∧
        s.doSyscall l.1 A tf call = some s' := by
  obtain ⟨c, event⟩ := l
  cases hcur : s.executing c with
  | none =>
    unfold MemSys.step at hrun
    rw [hcur] at hrun
    cases event with
    | idle => exact .inl ⟨0, h.resume_idle hrun⟩
    | _ => cases hrun
  | some A =>
    have hrun' : s.eventStep c A event = some s' := by
      unfold MemSys.step at hrun
      rwa [hcur] at hrun
    obtain ⟨hlive, _⟩ := h.executing hcur
    cases event with
    | syscall tf call => exact .inr ⟨A, tf, call, rfl, rfl, hrun'⟩
    | fault va =>
      have htouch : (if va < ULIM then s.touch A va else none) = some s' := hrun'
      split at htouch
      · exact .inl ⟨A, (h.touch hn hlive htouch).effect trivial⟩
      · cases htouch
    | tlbMod => exact .inl ⟨A, h.tlbMod hn hlive hrun'⟩
    | tick tf =>
      have hk : s.kern.Steady (fun _ => True) (s.kern.saveAll c tf) := .saveAll tf
      exact .inl ⟨A, (Effect.steady h hk).trans h
        ((h.steady hk).schedule (fun _ _ => trivial) hrun') (fun _ hp => .inl hp)⟩
    | idle => cases hrun'

/-- Whatever happens on a CPU keeps the invariant. -/
theorem CallInv.step (hl : s.Legal) (hok : s.PagesAwaited l) (hrun : s.step l = some s') :
    s'.CallInv ∧ s'.Legal := by
  rcases h.step_cases hn hrun with ⟨A, heffect⟩ | ⟨A, tf, call, hcur, hcall, hrun'⟩
  · exact ⟨heffect.inv trivial, heffect.legal trivial hl⟩
  · obtain ⟨hperm, hok'⟩ := hok A tf call hcur hcall
    obtain ⟨s₁, henter, _, _, _, _, _, heffect⟩ := h.doSyscall hn hcur hperm hrun'
    exact ⟨heffect.inv (hok' s₁ henter), heffect.legal (hok' s₁ henter) hl⟩

end

/-- A message without a page changes no memory. -/
theorem sysIpcTrySend_value {envid value perm : Word} {r : Except Err Unit}
    (hrun : s.sysIpcTrySend A envid value 0 perm = some (r, s')) : ∃ k, s' = s.setKern k := by
  unfold MemSys.sysIpcTrySend at hrun
  rw [if_neg (fun hand => hand.1 rfl)] at hrun
  split at hrun
  · cases hrun
    exact ⟨s.kern, rfl⟩
  · split at hrun
    · cases hrun
      exact ⟨s.kern, rfl⟩
    · dsimp only at hrun
      rw [if_pos rfl] at hrun
      cases hrun
      exact ⟨_, rfl⟩

/-- A message leaves the memory of an environment alone that wants no page. -/
theorem CallInv.send_kept {tf : Trapframe} {envid value srcva perm : Word} (hn : n ≤ 2 ^ 20)
    (h : s.CallInv) (hcur : s.executing c = some A)
    (hok : s.PagesAwaited (c, .syscall tf (.ipcTrySend envid value srcva perm)))
    (hne : B ≠ A) (hdstva : (s.kern.envs B).envIpcDstva = 0)
    (hrun : s.doSyscall c A tf (.ipcTrySend envid value srcva perm) = some s') :
    Kept s s' A B := by
  obtain ⟨hperm, hcall⟩ := hok A tf _ hcur rfl
  obtain ⟨s₁, henter, hstep, h₁, henvs, hkept, hmaps, _⟩ := h.doSyscall hn hcur hperm hrun
  have hlive : (s₁.kern.envs A).envStatus ≠ .free := by
    rw [henvs]
    exact (h.executing hcur).1
  have hsend : s₁.SendOk A envid srcva := hcall s₁ henter
  obtain ⟨⟨r, s₂⟩, hrun₂, hs'⟩ := Option.map_eq_some_iff.mp hstep
  have hpm : Kept s₁ s₂ A B := by
    by_cases hrecv : s₁.Receives A envid B
    · -- the receiver wants no page, so none was sent
      have hzero : srcva = 0 := by
        by_contra hsrc
        refine (hsend hsrc).2 B hrecv ?_
        rw [henvs]
        exact hdstva
      rw [hzero] at hrun₂
      obtain ⟨_, rfl⟩ := sysIpcTrySend_value hrun₂
      exact (Kept.refl s₁ A B).of_kern
    · exact (h₁.sysIpcTrySend hn hlive hperm hrun₂).kept B hrecv
  refine .trans h (hkept B hne.symm) ?_ hmaps
  rw [← hs']
  cases r <;> exact hpm.of_kern

end MemSys

/-- System calls and faults, from any state with consistent memory in which all
mappings are legal. -/
def calls (memsize : Word) : Machine (MemSys (npage memsize)) (CpuId × Event) where
  init s := s.CallInv ∧ s.Legal
  step := MemSys.step

theorem calls_step (memsize : Word) : (calls memsize).step = MemSys.step := rfl

theorem callInv_of_pagesAwaited {memsize : Word} {s : MemSys (npage memsize)}
    (hrun : (calls memsize).ReachableUnder MemSys.PagesAwaited s) : s.CallInv ∧ s.Legal := by
  apply hrun.invariant
  · intro s hs
    exact hs
  · intro s l s' _ hinv hok hstep
    exact hinv.1.step (npage_le memsize) hinv.2 hok hstep

open MemSys in
/-- As long as pages are sent only where one is awaited, every valid entry is
for a legal address, and a message leaves the address space of an environment
alone that wants no page. -/
theorem legalEntries_of_pagesAwaited {memsize : Word} {s : MemSys (npage memsize)}
    (hrun : (calls memsize).ReachableUnder MemSys.PagesAwaited s) :
    s.LegalEntries ∧ ∀ c A B tf envid value srcva perm s', s.executing c = some A → B ≠ A →
        (s.kern.envs B).envIpcDstva = 0 →
        s.PagesAwaited (c, .syscall tf (.ipcTrySend envid value srcva perm)) →
        s.step (c, .syscall tf (.ipcTrySend envid value srcva perm)) = some s' →
        SpaceKept s s' A B := by
  have hn := npage_le memsize
  obtain ⟨h, hl⟩ := callInv_of_pagesAwaited hrun
  refine ⟨h.legalEntries hl, fun c A B tf envid value srcva perm s' hcur hne hdstva hok hstep => ?_⟩
  have hcall : s.doSyscall c A tf (.ipcTrySend envid value srcva perm) = some s' := by
    have hstep' := hstep
    unfold MemSys.step at hstep'
    rwa [hcur] at hstep'
  exact h.spaceKept hn (h.live A (h.executing hcur).1) (h.send_kept hn hcur hok hne hdstva hcall)

/-- Both environments run. -/
def bothRun : MemSys (npage 0x10000) :=
  twoEnvs.setKern (((twoEnvs.kern.statusSection 1 .runnable).assign 1 1).switchTo 1 1)

theorem bothRun_init : (calls 0x10000).init bothRun := by
  have hlive : (twoEnvs.kern.envs 1).envStatus ≠ .free := by decide +kernel
  have hlive' : ((twoEnvs.kern.statusSection 1 .runnable).envs 1).envStatus ≠ .free := by
    decide +kernel
  have hk : twoEnvs.kern.Steady (fun _ => True)
      (((twoEnvs.kern.statusSection 1 .runnable).assign 1 1).switchTo 1 1) :=
    .trans (.statusSection trivial hlive (by decide))
      (.trans (.assign hlive') (.switchTo (fun _ _ => trivial)))
  exact ⟨twoEnvs_legal.1.steady hk, twoEnvs_legal.2.steady hk⟩

/-- One environment waits for a message and the other allocates a page. -/
theorem recvThenAlloc_reachable (dstva : Word) {P : MemSys (npage 0x10000) → Bool}
    (h : ((bothRun.step (1, .syscall stackFrame (.ipcRecv dstva))).bind (fun s =>
      s.step (0, .syscall stackFrame (.memAlloc 0 0x400000 PTE_D)))).any P = true) :
    ∃ s, (calls 0x10000).ReachableUnder MemSys.PagesAwaited s ∧ P s = true := by
  obtain ⟨s, hs, hP⟩ := (Option.any_eq_true ..).mp h
  obtain ⟨s₁, h₁, h₂⟩ := Option.bind_eq_some_iff.mp hs
  have hreach₁ : (calls 0x10000).ReachableUnder MemSys.PagesAwaited s₁ := by
    refine .step (1, .syscall stackFrame (.ipcRecv dstva)) (.init bothRun_init) ?_
      (by rw [calls_step]; exact h₁)
    intro A tf call _ hl
    cases hl
    exact ⟨trivial, fun _ _ => trivial⟩
  refine ⟨s, .step (0, .syscall stackFrame (.memAlloc 0 0x400000 PTE_D)) hreach₁ ?_
    (by rw [calls_step]; exact h₂), hP⟩
  intro A tf call _ hl
  cases hl
  exact ⟨by show PTE_D < 0x1000#32; decide, fun _ _ => trivial⟩

/-- One environment allocates a page while the other waits for a value. -/
theorem legalEntries_memAlloc :
    ∃ s : MemSys (npage 0x10000), (calls 0x10000).ReachableUnder MemSys.PagesAwaited s ∧
      (s.kern.envs 1).envIpcRecving = true ∧ (s.lookupIn 0 0x400000).join.isSome = true ∧
      s.LegalEntries := by
  obtain ⟨s, hreach, hP⟩ := recvThenAlloc_reachable 0
    (P := fun s => (s.kern.envs 1).envIpcRecving && (s.lookupIn 0 0x400000).join.isSome)
    (by decide +kernel)
  rw [Bool.and_eq_true] at hP
  exact ⟨s, hreach, hP.1, hP.2, (legalEntries_of_pagesAwaited hreach).1⟩

/-- The page that is sent to it lands at address 0. -/
theorem pageAtZero_reachable : ∃ s : MemSys (npage 0x10000), (calls 0x10000).Reachable s ∧
      (s.kern.envs 1).envIpcDstva = 0 ∧ ¬ s.LegalEntries := by
  have hstart : (calls 0x10000).Reachable bothRun := .init bothRun_init
  obtain ⟨s, hs, hdstva, hdir, htable, hvalid⟩ := Machine.exists_reachableUnder_of_exec
    (P := fun s : MemSys (npage 0x10000) => (s.kern.envs 1).envIpcDstva = 0 ∧
      s.pgdir 1 = some (bootPage 11) ∧
      entryPage (s.pm.mem (bootPage 11) 0) = some (bootPage 4) ∧
      pteValid (s.pm.mem (bootPage 4) 0) = true)
    [(1, .syscall stackFrame (.ipcRecv 0)), (0, .syscall stackFrame (.memAlloc 0 0x400000 PTE_D)),
      (0, .syscall stackFrame (.ipcTrySend (bothRun.kern.envs 1).envId 7 0x400000 PTE_D))]
    hstart (by decide +kernel)
  refine ⟨s, hs, hdstva, fun hlegal => ?_⟩
  have hlow := hlegal 1 (bootPage 11) 0 (bootPage 4) 0 hdir (by decide) htable hvalid
  exact absurd hlow (by decide)

end MosSmp
