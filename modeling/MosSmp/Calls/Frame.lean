import MosSmp.Calls.Steps

/-!
A system call of `A` works on `A` and on its children. Any other environment
keeps its address space, the contents of its pages and its own state, with two
exceptions: a message completes the receive of the environment it is sent to,
and `sys_exofork` fills in a free slot.
-/

namespace MosSmp

open Lib Kern Option

namespace MemSys

variable {n : Nat} {s s' s'' : MemSys n} {e A B : EnvIdx} {c : CpuId} {d p : Page n}
variable {va w : Word} {i j : Idx}

/-- The page and the flags at the address `va` of `e`. -/
def translation (s : MemSys n) (e : EnvIdx) (va : Word) : Option (Page n × Word) :=
  (s.pgdir e).bind (fun d => (s.pm.lookupFlags d va).join)

/-- `e` has the page in its address space. -/
def Sees (s : MemSys n) (e : EnvIdx) (p : Page n) : Prop :=
  ∃ va flags, va < ULIM ∧ s.translation e va = some (p, flags)

/-- `B` has the address space that it had, and the pages in it have the
contents that they had unless `A` maps them too. -/
structure SpaceKept (s s' : MemSys n) (A B : EnvIdx) : Prop where
  space : ∀ va, va < ULIM → s'.translation B va = s.translation B va
  pages : ∀ p, s.Sees B p → ¬ s.Sees A p → s'.pm.mem p = s.pm.mem p

/-- The control block of `B` once it has received the message of `A`. -/
def received (s : MemSys n) (A B : EnvIdx) (value ipcPerm : Word) : Env :=
  { s.kern.envs B with
    envIpcRecving := false
    envIpcFrom := (s.kern.envs A).envId
    envIpcValue := value
    envIpcPerm := ipcPerm
    envStatus := .runnable }

/-- What the delivery of a message changes of the receiver `B`: its status and the
fields of the message, and the page, if one is sent, at the address it has
named. -/
structure Delivered (s s' : MemSys n) (A B : EnvIdx) (value srcva perm : Word) : Prop where
  block : s'.kern.envs B = s.received A B value (if srcva = 0 then 0 else PTE_V ||| perm)
  space : ∀ va, va < UVPT → (srcva ≠ 0 → va >>> 12 ≠ (s.kern.envs B).envIpcDstva >>> 12) →
    s'.translation B va = s.translation B va
  pages : ∀ p va flags, va < UVPT → s.translation B va = some (p, flags) → ¬ s.Sees A p →
    s'.pm.mem p = s.pm.mem p

/-- The part of that which `sys_ipc_try_send` itself does; it writes to no
page that is mapped. -/
structure Arrived (s s' : MemSys n) (A B : EnvIdx) (value srcva perm : Word) : Prop where
  block : s'.kern.envs B = s.received A B value (if srcva = 0 then 0 else PTE_V ||| perm)
  space : ∀ va, va < UVPT → (srcva ≠ 0 → va >>> 12 ≠ (s.kern.envs B).envIpcDstva >>> 12) →
    s'.translation B va = s.translation B va
  pages : ∀ p, s.Maps B p → s'.pm.mem p = s.pm.mem p

theorem translation_congr (hpgdir : s'.pgdir B = s.pgdir B)
    (hleaf : ∀ d, s.pgdir B = some d → s'.pm.leaf d va = s.pm.leaf d va) :
    s'.translation B va = s.translation B va := by
  unfold translation
  rw [hpgdir]
  cases hd : s.pgdir B with
  | none => rfl
  | some d =>
    show (s'.pm.lookupFlags d va).join = (s.pm.lookupFlags d va).join
    rw [Pmap.lookupFlags_eq, Pmap.lookupFlags_eq, hleaf d hd]

/-- A page in an address space, with the table that leads to it. -/
theorem translation_some {flags : Word} (h : s.translation e va = some (p, flags)) :
    ∃ d t, s.pgdir e = some d ∧ entryPage (s.pm.mem d (pdx va)) = some t ∧
      entryPage (s.pm.mem t (ptx va)) = some p := by
  obtain ⟨d, hd, hflags⟩ := bind_eq_some_iff.mp h
  rw [Pmap.lookupFlags_eq] at hflags
  cases hleaf : s.pm.leaf d va with
  | none =>
    rw [hleaf] at hflags
    cases hflags
  | some r =>
    cases r with
    | none =>
      rw [hleaf] at hflags
      cases hflags
    | some x =>
      obtain ⟨_, w⟩ := x
      obtain ⟨t, ht, _, hw, hv⟩ := Pmap.leaf_some hleaf
      rw [hleaf] at hflags
      simp only [bind_some] at hflags
      cases hpa : (pa2page w : Option (Page n)) with
      | none =>
        rw [hpa] at hflags
        cases hflags
      | some =>
        rw [hpa] at hflags
        cases hflags
        refine ⟨d, t, hd, ht, ?_⟩
        unfold entryPage
        rw [hw, if_pos hv, hpa]

theorem translation_of {t : Page n} (hd : s.pgdir e = some d)
    (ht : entryPage (s.pm.mem d (pdx va)) = some t)
    (hp : entryPage (s.pm.mem t (ptx va)) = some p) :
    ∃ flags, s.translation e va = some (p, flags) := by
  obtain ⟨hv, hpa⟩ := entryPage_some hp
  refine ⟨pteFlags (s.pm.mem t (ptx va)), ?_⟩
  unfold translation
  rw [hd]
  show (s.pm.lookupFlags d va).join = _
  rw [Pmap.lookupFlags_eq, Pmap.leaf_of_table ht, if_pos hv]
  simp only [bind_some, hpa]
  rfl

theorem lt_ulim (hi : pdx va ≤ pdx UVPT) : va < ULIM := by
  have hlim : ULIM.toNat = 512 * 2 ^ 22 := by decide
  rw [Fin.le_def, pdx_val, pdx_utop.2] at hi
  rw [BitVec.lt_def, hlim]
  omega

theorem pdx_le_of_lt_ulim (hva : va < ULIM) : pdx va ≤ pdx UVPT := by
  have hlim : ULIM.toNat = 512 * 2 ^ 22 := by decide
  rw [BitVec.lt_def, hlim] at hva
  rw [Fin.le_def, pdx_val, pdx_utop.2]
  omega

theorem pdx_lt_of_lt_uvpt (hva : va < UVPT) : pdx va < pdx UVPT := by
  have hlim : UVPT.toNat = 511 * 2 ^ 22 := by decide
  rw [BitVec.lt_def, hlim] at hva
  rw [Fin.lt_def, pdx_val, pdx_utop.2]
  omega

theorem Maps.sees (h : s.Maps e p) : s.Sees e p := by
  obtain ⟨_, i, j, _, hd, hi, _, _⟩ := maps_iff.mp h
  have hva : pdx (vaOf i j) ≤ pdx UVPT := by
    rw [pdx_vaOf]
    exact (hi.trans (by decide)).le
  obtain ⟨flags, htr⟩ : ∃ flags, s.translation e (vaOf i j) = some (p, flags) :=
    translation_of hd (by rwa [pdx_vaOf]) (by rwa [ptx_vaOf])
  exact ⟨vaOf i j, flags, lt_ulim hva, htr⟩

/-- What lies in the windows above `UTOP` is in every address space. -/
theorem CallInv.sees_window (h : s.CallInv) (hA : s.pgdir A ≠ none) {t : Page n}
    (hd : s.pgdir B = some d) (hlo : pdx UTOP ≤ pdx va) (hhi : pdx va < pdx UVPT)
    (ht : entryPage (s.pm.mem d (pdx va)) = some t)
    (hp : entryPage (s.pm.mem t (ptx va)) = some p) : s.Sees A p := by
  obtain ⟨d', hd'⟩ := ne_none_iff_exists'.mp hA
  rw [h.shared B d _ hd hlo hhi, ← h.shared A d' _ hd' hlo hhi] at ht
  obtain ⟨flags, htr⟩ := translation_of hd' ht hp
  exact ⟨va, flags, lt_ulim hhi.le, htr⟩

theorem CallInv.leaf_kept (hn : n ≤ 2 ^ 20) (h : s.CallInv) (hk : Kept s s' A B)
    (hd : s.pgdir B = some d) : s'.pm.leaf d va = s.pm.leaf d va := by
  refine Pmap.leaf_congr (by rw [hk.dirWords d hd]) (fun t ht => ?_)
  by_cases hi : pdx va = pdx UVPT
  · rw [hi, h.entryPage_self hn hd] at ht
    rw [← some.inj ht, hk.dirWords d hd]
  · rw [hk.tables d (pdx va) t hd hi ht]

theorem CallInv.spaceKept (hn : n ≤ 2 ^ 20) (h : s.CallInv) (hA : s.pgdir A ≠ none)
    (hk : Kept s s' A B) : SpaceKept s s' A B where
  space := fun va _ => translation_congr hk.pgdir (fun d hd => h.leaf_kept hn hk hd)
  pages := by
    rintro p ⟨va, _, hva, htr⟩ hno
    obtain ⟨d, t, hd, ht, hp⟩ := translation_some htr
    by_cases hlow : pdx va < pdx UTOP
    · exact hk.pages p (maps_iff.mpr ⟨d, _, _, t, hd, hlow, ht, hp⟩) (fun hm => hno hm.sees)
    · rcases lt_or_eq_of_le (pdx_le_of_lt_ulim hva) with hi | hi
      · exact absurd (h.sees_window hA hd (not_lt.mp hlow) hi ht hp) hno
      · -- the window at `UVPT` shows the tables and the directory itself
        rw [hi, h.entryPage_self hn hd] at ht
        cases ht
        by_cases hj : ptx va = pdx UVPT
        · rw [hj, h.entryPage_self hn hd] at hp
          rw [← some.inj hp, hk.dirWords d hd]
        · exact hk.tables d (ptx va) p hd hj hp

section Delivery

/-- Storing an entry for `va` changes the map of the directory at one page. -/
theorem CallInv.leaf_stored {m : Pmap n} {va' : Word} (hn : n ≤ 2 ^ 20) (h : s.CallInv)
    (hd : s.pgdir B = some d) (hva : pdx va < pdx UTOP) (hst : Pmap.Stored s.pm m d va w)
    (hva' : pdx va' < pdx UVPT) (hne : va' >>> 12 ≠ va >>> 12) :
    m.leaf d va' = s.pm.leaf d va' := by
  have hu := user_of_pgdir hd hva
  have htable : ∀ t', entryPage (s.pm.mem d (pdx va')) = some t' →
      ∃ q, s.tableAt q (pdx va') = some t' := by
    intro t' ht'
    by_cases hlow : pdx va' < pdx UTOP
    · exact ⟨d, (tableAt_of_pgdir hd hlow).trans ht'⟩
    · rw [h.shared B d _ hd (not_lt.mp hlow) hva'] at ht'
      exact ⟨s.basePgdir, (tableAt_of_sysDirs h.base).trans ht'⟩
  have hown : ∀ t, entryPage (s.pm.mem d (pdx va)) = some t → s.tableAt d (pdx va) = some t :=
    fun t ht => (tableAt_of_pgdir hd hva).trans ht
  have htab : ∀ t, entryPage (s.pm.mem d (pdx va')) = some t → t ≠ d ∧
      (entryPage (s.pm.mem d (pdx va)) = some t → d = d ∧ pdx va' = pdx va) := by
    intro t ht
    obtain ⟨q, hq⟩ := htable t ht
    refine ⟨fun heq => h.mem.acc.tables.ne_dir hq hu heq.symm, fun ht' => ⟨rfl, ?_⟩⟩
    exact (h.mem.acc.tables.alone q _ d _ t hq (hown t ht')).2
  have hfree : ∀ t, s.pm.Free t → t ≠ d ∧ t ≠ d ∧ entryPage (s.pm.mem d (pdx va')) ≠ some t := by
    intro t hfree
    have htd : t ≠ d := by
      rintro rfl
      exact h.mem.acc.not_free_of_dir hu hfree
    refine ⟨htd, htd, fun ht => ?_⟩
    obtain ⟨q, hq⟩ := htable t ht
    exact h.mem.acc.not_free_of_slot (x := .inl (q, pdx va')) hq hfree
  obtain ⟨t, ht⟩ := hst.leaf_at hn
    (fun t ht heq => h.mem.acc.tables.ne_dir (hown t ht) hu heq.symm) htab hfree
  rwa [if_neg (fun hc => hne hc.2)] at ht

theorem setRecving_back {k : Kern} (h : (k.envs e).envIpcRecving = true) :
    (k.setRecving e false).setRecving e true = k := by
  unfold Kern.setRecving Kern.updEnv
  simp only [Function.update_self, Function.update_idem]
  rw [← h, Function.update_eq_self]

theorem envs_deliver_self {value ipcPerm : Word} (hkern : s'.kern = s.kern.setRecving B false) :
    (s'.deliver A B value ipcPerm).kern.envs B = s.received A B value ipcPerm := by
  have hid : (s'.kern.envs A).envId = (s.kern.envs A).envId := by
    rw [hkern]
    unfold Kern.setRecving
    rw [envs_updEnv]
    split_ifs with hA
    · rw [hA]
    · rfl
  unfold MemSys.deliver wakeSection fillIpc
  simp only [envs_updEnv_self, hid]
  rw [hkern]
  unfold Kern.setRecving received
  rw [envs_updEnv_self]

section

variable (hn : n ≤ 2 ^ 20) (h : s.CallInv) {value srcva perm : Word}
include hn h

theorem CallInv.sysIpcTrySend_arrived {envid : Word} {r : Except Err Unit}
    (hB : s.Receives A envid B) (hrun : s.sysIpcTrySend A envid value srcva perm = some (r, s')) :
    (∃ err, r = .error err ∧ s'.kern = s.kern ∧ s'.pgdir = s.pgdir ∧ s'.pm = s.pm) ∨
      r = .ok () ∧ Arrived s s' A B value srcva perm := by
  have hk : s.kern.Steady (fun _ => True) (s.kern.setRecving B false) := .setRecving trivial false
  have h₁ : (s.setRecving B false).CallInv := h.steady hk
  have hdst : ((s.setRecving B false).kern.envs B).envIpcDstva = (s.kern.envs B).envIpcDstva := by
    simp [MemSys.setRecving, Kern.setRecving]
  have hva := h.mem.dstva B
  unfold MemSys.sysIpcTrySend at hrun
  rw [hB.1] at hrun
  split at hrun
  · cases hrun
    exact .inl ⟨_, rfl, rfl, rfl, rfl⟩
  dsimp only at hrun
  rw [hB.2, if_neg (by decide), hdst] at hrun
  split at hrun
  · next hzero =>
    cases hrun
    refine .inr ⟨rfl, ?_, fun _ _ _ => rfl, fun _ _ => rfl⟩
    rw [if_pos hzero]
    exact envs_deliver_self rfl
  · next hsrc =>
    split at hrun
    · cases hrun
    · cases hrun
      exact .inl ⟨_, rfl, setRecving_back hB.2, rfl, rfl⟩
    · split at hrun <;> cases hrun
      · next s₂ hins =>
        obtain ⟨_, ho, ⟨hr, _⟩ | ⟨_, hpm⟩⟩ := h₁.insertInto_stored hn hva hins
        · cases hr
        · refine .inl ⟨_, rfl, ?_, ho.pgdir, hpm⟩
          show s₂.kern.setRecving B true = s.kern
          rw [ho.kern]
          exact setRecving_back hB.2
      · next s₂ hins =>
        obtain ⟨d, ho, ⟨_, hst⟩ | ⟨hr, _⟩⟩ := h₁.insertInto_stored hn hva hins
        · refine .inr ⟨rfl, ?_, fun va hlt hne => ?_, fun p hp => ho.page h₁ hp⟩
          · rw [if_neg hsrc]
            exact envs_deliver_self ho.kern
          · refine translation_congr (congrFun ho.pgdir B) (fun d' hd' => ?_)
            cases ho.dir.symm.trans hd'
            exact h.leaf_stored hn ho.dir hva hst (pdx_lt_of_lt_uvpt hlt) (hne hsrc)
        · cases hr

/-- Before the message, the caller has read its arguments. -/
theorem Arrived.delivered (hA : s.pgdir A ≠ none) (hk : Kept s s' A B)
    (hkern : s'.kern.envs = s.kern.envs) (ha : Arrived s' s'' A B value srcva perm) :
    Delivered s s'' A B value srcva perm := by
  have hkept := h.spaceKept hn hA hk
  have hlt : ∀ {va : Word}, va < UVPT → va < ULIM := fun hva => BitVec.lt_trans hva (by decide)
  refine ⟨?_, fun va hva hne => ?_, fun p va flags hva htr hno => ?_⟩
  · rw [ha.block]
    unfold received
    rw [hkern]
  · rw [ha.space va hva (by rwa [hkern]), hkept.space va (hlt hva)]
  · obtain ⟨d, t, hd, ht, hp⟩ := translation_some htr
    by_cases hlow : pdx va < pdx UTOP
    · have hmaps : s.Maps B p := maps_iff.mpr ⟨d, _, _, t, hd, hlow, ht, hp⟩
      rw [ha.pages p (hk.maps hmaps), hk.pages p hmaps (fun hm => hno hm.sees)]
    · exact absurd (h.sees_window hA hd (not_lt.mp hlow) (pdx_lt_of_lt_uvpt hva) ht hp) hno

end

end Delivery

theorem CallInv.executing (h : s.CallInv) (hcur : s.executing c = some A) :
    (s.kern.envs A).envStatus ≠ .free ∧ s.kern.curenv c = some A := by
  unfold MemSys.executing at hcur
  split at hcur
  · next e he =>
    split at hcur <;> cases hcur
    next hrun =>
    exact ⟨h.running A hrun.1, he⟩
  · cases hcur

theorem envid2env_congr {k k' : Kern} (h : k'.envs = k.envs) : k'.envid2env = k.envid2env := by
  funext cur envid checkperm
  unfold envid2env
  rw [h]

theorem targets_congr {call : UserCall} (henvs : s'.kern.envs = s.kern.envs)
    (hlist : s'.kern.envFreeList = s.kern.envFreeList) : s'.Targets A call = s.Targets A call := by
  have hid := envid2env_congr henvs
  funext B
  unfold Targets Owned Receives
  rw [henvs, hlist, hid]

/-- A call from beginning to end: the caller enters the kernel, and the
function of the call is run. -/
theorem CallInv.doSyscall {call : UserCall} {tf : Trapframe} (hn : n ≤ 2 ^ 20) (h : s.CallInv)
    (hcur : s.executing c = some A) (hperm : call.LowPerm)
    (hrun : s.doSyscall c A tf call = some s') :
    ∃ s₁, s.enter c A tf = some s₁ ∧ s₁.callStep c A call = some s' ∧ s₁.CallInv ∧
      s₁.kern.envs = s.kern.envs ∧ (∀ B, A ≠ B → Kept s s₁ A B) ∧
      (∀ p, s₁.Maps A p → s.Maps A p ∨ s.pm.Free p) ∧
      Effect s s' A (s.Targets A call) (s₁.CallOk A call) := by
  obtain ⟨hlive, hcurenv⟩ := h.executing hcur
  obtain ⟨s₁, henter, hcall⟩ := bind_eq_some_iff.mp hrun
  obtain ⟨k, hk, henvs, hkcur, htouched⟩ := h.enter (T := s.Targets A call) hn hlive henter
  have henvs₁ : s₁.kern.envs = s.kern.envs := by rw [htouched.kern]; exact henvs
  have hlist₁ : s₁.kern.envFreeList = s.kern.envFreeList := by
    rw [htouched.kern]
    exact hk.freeList
  have hself : s.Targets A call A := .inl (.inl rfl)
  have heffect := htouched.inv.callStep (A := A) hn (by rw [henvs₁]; exact hlive)
    (fun old hold => by
      rw [htouched.kern] at hold
      have hold' : k.curenv c = some old := hold
      rw [hkcur, hcurenv] at hold'
      exact (some.inj hold').symm) hperm hcall
  rw [targets_congr henvs₁ hlist₁] at heffect
  refine ⟨s₁, henter, hcall, htouched.inv, henvs₁, fun B hB => ?_, htouched.maps, ?_⟩
  · have hkept := htouched.kept B hB
    exact ⟨hkept.pgdir, hkept.dirWords, hkept.tables, hkept.pages⟩
  · exact (Effect.steady h hk).trans h (htouched.then_effect (h.steady hk) hself heffect)
      (fun _ hp => .inl hp)

end MemSys

open MemSys in
/-- A call of `A` leaves every environment alone that is neither `A` nor a
child of it, except that a message that is sent, with the result 0, completes the
receive of the environment it names, and that a free slot may be filled in. -/
theorem syscall_keeps_others {memsize : Word} {s s' : MemSys (npage memsize)} {c : CpuId}
    {A B : EnvIdx} {tf : Trapframe} {call : UserCall} (h : s.CallInv)
    (hcur : s.executing c = some A) (hperm : call.LowPerm) (hA : B ≠ A)
    (hchild : (s.kern.envs B).envParentId ≠ (s.kern.envs A).envId)
    (hrun : s.doSyscall c A tf call = some s') :
    (SpaceKept s s' A B ∧ (s'.kern.envs B).ownState = (s.kern.envs B).ownState) ∨
      (∃ envid value srcva perm, call = .ipcTrySend envid value srcva perm ∧
        s.kern.envid2env A envid false = .ok B ∧ (s.kern.envs B).envIpcRecving = true ∧
        (s'.kern.cpuData c).trapframe.regs 2 = 0 ∧ Delivered s s' A B value srcva perm) ∨
      (call = .exofork ∧ (s.kern.envs B).envStatus = .free) := by
  have hn := npage_le memsize
  have hdir := h.live A (h.executing hcur).1
  obtain ⟨s₁, _, hcall, h₁, henvs, hkept, _, heffect⟩ := h.doSyscall hn hcur hperm hrun
  have hfree : ¬ s.Owned A B := by
    rintro (heq | hparent)
    · exact hA heq
    · exact hchild hparent
  by_cases hT : s.Targets A call B
  · rcases hT with hT | hT
    · exact absurd hT hfree
    · cases call with
      | ipcTrySend envid value srcva perm =>
        obtain ⟨⟨r, s₂⟩, hsend, rfl⟩ := map_eq_some_iff.mp hcall
        have hrecv : s₁.Receives A envid B := by
          unfold Receives
          rw [envid2env_congr henvs, henvs]
          exact hT
        have hk := hkept B hA.symm
        obtain ⟨err, rfl, hkern, hpgdir, hpm⟩ | ⟨rfl, harrived⟩ :=
          h₁.sysIpcTrySend_arrived hn hrecv hsend
        · left
          have hspace := h.spaceKept hn hdir hk
          refine ⟨⟨fun va hva => ?_, fun p hp hno => ?_⟩, ?_⟩
          · rw [← hspace.space va hva]
            exact translation_congr (congrFun hpgdir B) (fun _ _ => congrArg (Pmap.leaf · _ va) hpm)
          · rw [← hspace.pages p hp hno, ← hpm]
            rfl
          · rw [← henvs, ← hkern]
            rfl
        · refine .inr (.inl ⟨envid, value, srcva, perm, rfl, hT.1, hT.2, ?_, ?_⟩)
          · simp [finish, ret, setV0, updCpu, Trapframe.setReg, MemSys.setKern]
          · exact Arrived.delivered hn h hdir hk henvs
              ⟨harrived.block, harrived.space, harrived.pages⟩
      | exofork => exact .inr (.inr ⟨rfl, hT.1⟩)
      | _ => exact absurd hT id
  · exact .inl ⟨h.spaceKept hn hdir (heffect.kept B hT), heffect.own B hT⟩

/-- Sixteen pages, of which the kernel has two. The base directory is the last
one and has the two windows; there is no environment yet. -/
def bootMemory : MemSys (npage 0x10000) where
  kern := envInit
  pm := bootFrames.pm
  freemem := 2
  basePgdir := bootPage 15
  sysDirs := bootFrames.dirs
  pgdir := fun _ => none
  own := bootFrames.own
  grants := fun _ _ => false
  stored := []

theorem bootMemory_init : (memCalls 0x10000).init bootMemory :=
  ⟨bootFrames, bootFrames_reachable, rfl, rfl, rfl, fun _ => rfl, by decide +kernel,
    fun _ _ => rfl, rfl⟩

theorem bootMemory_callInv : bootMemory.CallInv where
  mem := .start bootMemory_init
  sys := by
    intro e d hd
    cases hd
  base := by decide +kernel
  window := by decide +kernel
  shared := by
    intro e d i hd
    cases hd
  self := by
    intro e d hd
    cases hd
  freeList := ⟨_, rep_envInit, fun e => ⟨fun _ => rfl, fun _ => List.mem_finRange e⟩⟩
  running := by
    intro e hrun
    cases hrun
  calm := fun _ => rfl
  above := by
    intro e d hd
    cases hd
  vacant := by
    intro e d hst hd
    cases hd
  high := by
    intro e d i t hd
    cases hd
  live := fun e hlive => absurd rfl hlive

/-- Two environments without a parent. -/
def createdTwo : MemSys (npage 0x10000) :=
  (bootMemory.sysExofork 0 5).sysExofork 0 5

/-- The first of them runs on CPU 0. -/
def twoEnvs : MemSys (npage 0x10000) :=
  createdTwo.setKern (((createdTwo.kern.statusSection 0 .runnable).assign 0 0).switchTo 0 0)

theorem twoEnvs_legal : twoEnvs.CallInv ∧ twoEnvs.Legal := by
  have hboot : bootMemory.Legal := by
    refine ⟨fun e d i j p hd => ?_, fun _ => .inl rfl⟩
    cases hd
  have h₁ : (bootMemory.sysExofork 0 5).CallInv := bootMemory_callInv.sysExofork.inv trivial
  have h₂ : createdTwo.CallInv := h₁.sysExofork.inv trivial
  have hl : createdTwo.Legal :=
    h₁.sysExofork.legal trivial (bootMemory_callInv.sysExofork.legal trivial hboot)
  have hlive : (createdTwo.kern.envs 0).envStatus ≠ .free := by decide +kernel
  have hlive' : ((createdTwo.kern.statusSection 0 .runnable).envs 0).envStatus ≠ .free := by
    decide +kernel
  have hk : createdTwo.kern.Steady (fun _ => True)
      (((createdTwo.kern.statusSection 0 .runnable).assign 0 0).switchTo 0 0) :=
    .trans (.statusSection trivial hlive (by decide))
      (.trans (.assign hlive') (.switchTo (fun _ _ => trivial)))
  exact ⟨h₂.steady hk, hl.steady hk⟩

/-- A context with a stack in user space. -/
def stackFrame : Trapframe :=
  Trapframe.zero.setReg 29 (USTACKTOP - 64)

/-- The running environment allocates a page for itself. -/
theorem syscall_keeps_others_memAlloc :
    ∃ s', twoEnvs.doSyscall 0 0 stackFrame (.memAlloc 0 0x400000 PTE_D) = some s' ∧
      (MemSys.SpaceKept twoEnvs s' 0 1 ∧
        (s'.kern.envs 1).ownState = (twoEnvs.kern.envs 1).ownState) := by
  have hsome : (twoEnvs.doSyscall 0 0 stackFrame (.memAlloc 0 0x400000 PTE_D)).isSome = true := by
    decide +kernel
  obtain ⟨s', hrun⟩ := isSome_iff_exists.mp hsome
  refine ⟨s', hrun, ?_⟩
  have hkept := syscall_keeps_others (B := 1) twoEnvs_legal.1 (by decide +kernel)
    (by show PTE_D < 0x1000#32; decide) (by decide) (by decide +kernel) hrun
  rcases hkept with hkept | ⟨_, _, _, _, hcall, _⟩ | ⟨hcall, _⟩
  · exact hkept
  · cases hcall
  · cases hcall

end MosSmp
