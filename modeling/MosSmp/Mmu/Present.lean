import MosSmp.Mmu.Lifecycle

/-!
Which translations an address space has, and which step takes one away. An
address leads to a page through a table of the directory; in the window at
`UVPT` it leads to a table, or to the directory itself. Steps of the kernel add
translations, and each step takes away at most one of them. The step that does
so leaves its CPU right before the flush of that address, except for the last
step of `env_free`, which has `asid_free` in between.
-/

namespace MosSmp

open Lib Function

/-- The tag of a TLB entry. -/
def tag (a : Asid) (va : Word) : Word := entryHi (asidWord a) va

theorem getLsbD_entryHi (a va : Word) {k : Nat} (hk : k < 32) : (entryHi a va).getLsbD k =
      (va.getLsbD k && decide (13 ≤ k) || a.getLsbD k && decide (k < 8)) := by
  unfold entryHi
  rw [BitVec.getLsbD_or, BitVec.getLsbD_and, BitVec.getLsbD_and]
  congr 2
  · revert hk
    revert k
    decide
  · revert hk
    revert k
    decide

/-- The two pages of a pair have one tag. -/
theorem tag_pair (a : Asid) {va va' : Word} (hd : pdx va' = pdx va)
    (ht : (ptx va').val / 2 = (ptx va).val / 2) : tag a va' = tag a va := by
  have hshift : va' >>> 13 = va >>> 13 := by
    apply BitVec.eq_of_toNat_eq
    rw [BitVec.toNat_ushiftRight, BitVec.toNat_ushiftRight, Nat.shiftRight_eq_div_pow,
      Nat.shiftRight_eq_div_pow]
    have hd' := congrArg Fin.val hd
    rw [pdx_val, pdx_val] at hd'
    rw [ptx_val, ptx_val] at ht
    omega
  apply BitVec.eq_of_getLsbD_eq
  intro k hk
  unfold tag
  rw [getLsbD_entryHi _ _ hk, getLsbD_entryHi _ _ hk]
  by_cases hhigh : 13 ≤ k
  · have hbit := congrArg (fun w : Word => w.getLsbD (k - 13)) hshift
    simp only [BitVec.getLsbD_ushiftRight] at hbit
    rw [show 13 + (k - 13) = k from by omega] at hbit
    rw [hbit]
  · simp [hhigh]

/-- The tag depends on the page of the address only. -/
theorem tag_congr (a : Asid) {va va' : Word} (hd : pdx va' = pdx va) (ht : ptx va' = ptx va) :
    tag a va' = tag a va :=
  tag_pair a hd (by rw [ht])

namespace MmuPc

variable {n : Nat}

/-- The tag that a CPU is about to flush. -/
def flushes : MmuPc n → Option Word
  | .flush _ a va _ => some (tag a va)
  | .dropAsid a => some (tag a (uvptVa (pdx UVPT)))
  | _ => none

end MmuPc

namespace Mmu

variable {n : Nat} {s s' : Mmu n} {c : CpuId} {o : Option Asid} {d p q : Page n}
variable {va va' perm : Word}

/-- In directory `d` the address leads to `p`. -/
def At (s : Mmu n) (d : Page n) (va : Word) (p : Page n) : Prop :=
  s.pageAt d (pdx va) (ptx va) = some p ∨
    pdx va = pdx UVPT ∧ (s.tableAt d (ptx va) = some p ∨ ptx va = pdx UVPT ∧ p = d)

/-- The directory of the address space with an ASID, or `base_pgdir`. -/
def Owner (s : Mmu n) (d : Page n) : Option Asid → Prop
  | some a => s.asidOf d = some a
  | none => d = s.basePgdir

/-- The address space with ASID `o` has a translation of `va` to `p`, or
`base_pgdir` has one. -/
def Present (s : Mmu n) (o : Option Asid) (va : Word) (p : Page n) : Prop :=
  ∃ d, s.Owner d o ∧ s.At d va p

/-- The tag of the mapping that `page_insert` or `page_remove` finds. -/
def removes (s : Mmu n) (sp : Space n) (va : Word) : Option Word :=
  if (s.pageAt sp.pgdir (pdx va) (ptx va)).isSome then some (tag sp.asid va) else none

def pcDrops (s : Mmu n) : MmuPc n → Option Word
  | .insert _ dst _ va _ => s.removes dst va
  | .fill sp va _ => s.removes sp va
  | .strip sp i t j =>
    match nextValid (s.pm.mem t) j (1024 - j) with
    | some k => some (tag sp.asid (vaOf i k))
    | none => some (tag sp.asid (uvptVa i))
  | .dropDir sp => some (tag sp.asid (uvptVa (pdx UVPT)))
  | _ => none

/-- The tag of the translation that a step takes away. -/
def drops (s : Mmu n) : MmuLabel n → Option Word
  | .step c => s.pcDrops (s.cpu c).pc
  | .unmap _ d va => (s.asidOf d).bind (fun a => s.removes ⟨d, a⟩ va)
  | _ => none

theorem drops_step {pc : MmuPc n} (h : (s.cpu c).pc = pc) : s.drops (.step c) = s.pcDrops pc := by
  subst h
  rfl

variable {sp : Space n}

theorem removes_of_some (h : s.pageAt sp.pgdir (pdx va) (ptx va) = some p) :
    s.removes sp va = some (tag sp.asid va) := by
  unfold removes
  rw [h]
  rfl

theorem SameSpaces.owner (hs : SameSpaces s s') (h : s.Owner d o) : s'.Owner d o := by
  cases o with
  | none => exact h.trans hs.basePgdir.symm
  | some => exact (congrFun hs.asidOf d).trans h

section

variable (hp : s.Present o va p) (howner : ∀ q, s.Owner q o → s'.Owner q o)
include hp howner

/-- Translations stay as long as their table entries do. -/
theorem Present.ofSlots (hpages : ∀ q i j p, s.pageAt q i j = some p → s'.pageAt q i j = some p)
    (htables : ∀ q i t, s.tableAt q i = some t → s'.tableAt q i = some t) : s'.Present o va p := by
  obtain ⟨d, hd, hat⟩ := hp
  refine ⟨d, howner d hd, ?_⟩
  rcases hat with hpage | ⟨hva, htable | hself⟩
  · exact .inl (hpages d _ _ p hpage)
  · exact .inr ⟨hva, .inl (htables d _ p htable)⟩
  · exact .inr ⟨hva, .inr hself⟩

/-- An operation that keeps all slots in use. -/
theorem Present.ofSlotsEq (hslots : s'.pm.slots s'.user = s.pm.slots s.user) :
    s'.Present o va p := by
  refine hp.ofSlots howner (fun q i j p hq => ?_) (fun q i t hq => ?_)
  · exact (congrFun hslots (.inr (q, i, j))).trans hq
  · exact (congrFun hslots (.inl (q, i))).trans hq

end

theorem Present.ofSame (hp : s.Present o va p) (hs : SameSpaces s s') (hpm : s'.pm = s.pm) :
    s'.Present o va p := by
  refine hp.ofSlotsEq (fun q hq => hs.owner hq) ?_
  rw [hpm, hs.user]

theorem Sound.owner_of_live (h : s.Sound) (hlive : s.Live sp) (ho : s.Owner sp.pgdir o) :
    o = some sp.asid := by
  cases o with
  | none => exact absurd ho.symm (h.base_ne hlive.1)
  | some => exact ho.symm.trans hlive.2

/-- An operation that changes one page table entry at most. -/
theorem Present.ofEntry (hp : s.Present o va' p) (va : Word) (h : s.Sound) (hs : SameSpaces s s')
    (hlive : s.Live sp)
    (hpages : ∀ q i j, s'.pageAt q i j = s.pageAt q i j ∨ q = sp.pgdir ∧ i = pdx va ∧ j = ptx va)
    (htables : ∀ q i t, s.tableAt q i = some t → s'.tableAt q i = some t) :
    s'.Present o va' p ∨ o = some sp.asid ∧ tag sp.asid va' = tag sp.asid va ∧
      s.pageAt sp.pgdir (pdx va) (ptx va) = some p := by
  obtain ⟨d, hd, hat⟩ := hp
  rcases hat with hpage | ⟨hva, htable | hself⟩
  · rcases hpages d (pdx va') (ptx va') with hsame | ⟨rfl, hi, hj⟩
    · exact .inl ⟨d, hs.owner hd, .inl (hsame.trans hpage)⟩
    · rw [hi, hj] at hpage
      exact .inr ⟨h.owner_of_live hlive hd, tag_congr _ hi hj, hpage⟩
  · exact .inl ⟨d, hs.owner hd, .inr ⟨hva, .inl (htables d _ p htable)⟩⟩
  · exact .inl ⟨d, hs.owner hd, .inr ⟨hva, .inr hself⟩⟩

/-- The translation is gone with the step, and its flush is what comes next. -/
structure Lost (s s' : Mmu n) (l : MmuLabel n) (o : Option Asid) (va : Word) : Prop where
  drops : ∃ a, o = some a ∧ s.drops l = some (tag a va)
  flushes : ∃ a c, o = some a ∧ (s'.cpu c).pc.flushes = some (tag a va)

theorem Inv.present_remove {next : MmuPc n} (h : s.Inv) (hlive : s.Live sp)
    (hva : pdx va < pdx UTOP) (hremove : s.removeStep c sp va next = some s')
    (hp : s.Present o va' p) :
    s'.Present o va' p ∨ o = some sp.asid ∧ tag sp.asid va' = tag sp.asid va ∧
      s.pageAt sp.pgdir (pdx va) (ptx va) = some p ∧
      (s'.cpu c).pc.flushes = some (tag sp.asid va) := by
  have hu := user_of_dirs hlive.1 hva
  obtain ⟨m, hrun, _, _, htables, hpages, _⟩ := h.sound.acc.pageRemove_local hu
  unfold removeStep at hremove
  rcases h.sound.acc.pageLookup hu with ⟨hlook, _⟩ | ⟨q, t, hlook, _, _⟩
  · rw [hlook] at hremove
    cases hremove
    exact .inl (hp.ofSame ⟨rfl, rfl, rfl, rfl, rfl, rfl⟩ rfl)
  · rw [hlook] at hremove
    simp only [hrun, Option.map_some] at hremove
    cases hremove
    have hs : SameSpaces s ((s.setPm m).goto c (.flush (some sp.pgdir) sp.asid va next)) :=
      ⟨rfl, rfl, rfl, rfl, rfl, rfl⟩
    have hentry : ∀ q i j, m.pageAt s.user q i j = s.pm.pageAt s.user q i j ∨
        q = sp.pgdir ∧ i = pdx va ∧ j = ptx va := by
      intro q i j
      rcases hpages q i j with hsame | ⟨hq, hi, hj, _⟩
      · exact .inl hsame
      · exact .inr ⟨hq, hi, hj⟩
    rcases hp.ofEntry va h.sound hs hlive hentry (fun q i t ht => (htables q i).trans ht) with
      hkept | ⟨ho, htag, hat⟩
    · exact .inl hkept
    · refine .inr ⟨ho, htag, hat, ?_⟩
      rw [pc_goto]
      rfl

variable {m : Pmap n}

theorem Inv.present_stripTable {i : Idx} {t : Page n} {j : Nat} (h : s.Inv)
    (hpc : (s.cpu c).pc = .strip sp i t j) (hnone : nextValid (s.pm.mem t) j (1024 - j) = none)
    (hdec : (s.pm.write (sp.pgdir, i) 0).pageDecref t = some m)
    (hs' : s' = (s.setPm m).goto c
      (.flush (some sp.pgdir) sp.asid (uvptVa i) (.scan sp (i.val + 1))))
    (hp : s.Present o va' p) : s'.Present o va' p ∨ s.Lost s' (.step c) o va' := by
  have hhand := h.hand_of hpc
  have hblank := hhand.blank hnone
  obtain ⟨hlive, _, ht, _, _⟩ := hhand
  obtain ⟨_, hdec', _, _, hmem, hpages⟩ := h.sound.acc.releaseTable_local ht hblank
  cases hdec'.symm.trans hdec
  have hs : SameSpaces s s' := by
    rw [hs']
    exact ⟨rfl, rfl, rfl, rfl, rfl, rfl⟩
  obtain ⟨d, hd, hat⟩ := hp
  rcases hat with hpage | ⟨hva, htable | hself⟩
  · subst hs'
    exact .inl ⟨d, hs.owner hd, .inl ((hpages d _ _).trans hpage)⟩
  · by_cases heq : d = sp.pgdir ∧ ptx va' = i
    · obtain ⟨rfl, rfl⟩ := heq
      have ho := h.sound.owner_of_live hlive hd
      have htag : tag sp.asid va' = tag sp.asid (uvptVa (ptx va')) :=
        tag_congr _ (hva.trans (pdx_uvptVa _).symm) (ptx_uvptVa _).symm
      refine .inr ⟨⟨sp.asid, ho, ?_⟩, sp.asid, c, ho, ?_⟩
      · rw [drops_step hpc, htag]
        simp only [pcDrops, hnone]
      · rw [hs', pc_goto, htag]
        rfl
    · subst hs'
      refine .inl ⟨d, hs.owner hd, .inr ⟨hva, .inl ?_⟩⟩
      refine Eq.trans (Pmap.tableAt_congr ?_) htable
      show m.mem d (ptx va') = _
      rw [hmem, if_neg heq]
  · exact .inl ⟨d, hs.owner hd, .inr ⟨hva, .inr hself⟩⟩

theorem Inv.present_dropDir (h : s.Inv) (hpc : (s.cpu c).pc = .dropDir sp)
    (k : DroppedSpace s s' sp.pgdir) (hpc' : (s'.cpu c).pc = .dropAsid sp.asid)
    (hp : s.Present o va' p) : s'.Present o va' p ∨ s.Lost s' (.step c) o va' := by
  have hhand := h.hand_of hpc
  obtain ⟨hlive, hempty⟩ := hhand
  obtain ⟨d, hd, hat⟩ := hp
  by_cases heq : d = sp.pgdir
  · -- the directory has no tables any more, so what is left is the directory itself
    subst heq
    have ho := h.sound.owner_of_live hlive hd
    have hnone : ∀ i, s.tableAt sp.pgdir i = none := by
      intro i
      by_cases hi : i < pdx UTOP
      · exact Pmap.tableAt_of_not_valid (hempty i hi)
      · unfold tableAt Pmap.tableAt
        rw [h.sound.user_above hlive.1 (not_lt.mp hi)]
        rfl
    rcases hat with hpage | ⟨hva, htable | ⟨hself, _⟩⟩
    · cases (Pmap.pageAt_of_no_table (hnone _)).symm.trans hpage
    · cases (hnone _).symm.trans htable
    · have htag : tag sp.asid va' = tag sp.asid (uvptVa (pdx UVPT)) :=
        tag_congr _ (hva.trans (pdx_uvptVa _).symm) (hself.trans (ptx_uvptVa _).symm)
      refine .inr ⟨⟨sp.asid, ho, ?_⟩, sp.asid, c, ho, ?_⟩
      · rw [drops_step hpc, htag]
        rfl
      · rw [hpc', htag]
        rfl
  · have htable : ∀ i, s'.tableAt d i = s.tableAt d i := by
      intro i
      unfold tableAt Pmap.tableAt
      rw [k.user d heq, k.mem]
    have howner : s'.Owner d o := by
      cases o with
      | none => exact hd.trans k.rest.2.1.symm
      | some =>
        refine Eq.trans ?_ hd
        rw [k.asidOf, update_of_ne heq]
    refine .inl ⟨d, howner, ?_⟩
    rcases hat with hpage | ⟨hva, htable' | hself⟩
    · refine .inl (Eq.trans ?_ hpage)
      show Option.bind (s'.tableAt d _) _ = Option.bind (s.tableAt d _) _
      rw [htable, k.mem]
    · exact .inr ⟨hva, .inl ((htable _).trans htable')⟩
    · exact .inr ⟨hva, .inr hself⟩

section

variable (hn : n ≤ 2 ^ 20) (h : s.Inv)
include hn h

/-- `page_insert` below `UTOP`. -/
theorem Inv.present_insert (hlive : s.Live sp) (hva : pdx va < pdx UTOP) (hperm : perm < 0x1000#32)
    (hfree : ¬ s.pm.Free q) (href : (s.pm.ppRef q).toNat < 65535)
    (hrun : s.pm.pageInsert sp.pgdir q va perm = some (.ok (), m)) (hs : SameSpaces s s')
    (hpm : s'.pm = m) (hp : s.Present o va' p) :
    s'.Present o va' p ∨ o = some sp.asid ∧ tag sp.asid va' = tag sp.asid va ∧
      s.pageAt sp.pgdir (pdx va) (ptx va) = some p := by
  obtain ⟨_, _, hrun', _, _, _, hpages, htables⟩ := h.sound.acc.pageInsert_local hn
    (user_of_dirs hlive.1 hva) (pteAddr_mapEntry_of_lt q hperm) hfree href
  cases hrun'.symm.trans hrun
  refine hp.ofEntry va h.sound hs hlive (fun q i j => ?_) (fun q i t ht => ?_)
  · unfold pageAt
    rw [hpm, hs.user]
    rcases hpages q i j with hsame | ⟨hq, hi, hj, _⟩
    · exact .inl hsame
    · exact .inr ⟨hq, hi, hj⟩
  · unfold tableAt
    rw [hpm, hs.user]
    exact htables q i t ht

theorem Inv.present_insertStep {src : Option (Page n × Word)} {dst : Space n} {pp : Page n}
    (hpc : (s.cpu c).pc = .insert src dst pp va perm) (href : (s.pm.ppRef pp).toNat < 65535)
    (hrun : s.pm.pageInsert dst.pgdir pp va perm = some (.ok (), m)) (hp : s.Present o va' p) :
    ((s.setPm m).goto c (.flush (some dst.pgdir) dst.asid va .rest)).Present o va' p ∨
      s.Lost ((s.setPm m).goto c (.flush (some dst.pgdir) dst.asid va .rest)) (.step c) o va' := by
  have hhand := h.hand_of hpc
  obtain ⟨hlive, hva, hperm⟩ := hhand.of_insert
  have hs : SameSpaces s ((s.setPm m).goto c (.flush (some dst.pgdir) dst.asid va .rest)) :=
    ⟨rfl, rfl, rfl, rfl, rfl, rfl⟩
  rcases h.present_insert hn hlive hva hperm (h.insert_not_free hpc) href hrun hs rfl hp with
    hkept | ⟨ho, htag, hat⟩
  · exact .inl hkept
  · refine .inr ⟨⟨dst.asid, ho, ?_⟩, dst.asid, c, ho, ?_⟩
    · rw [drops_step hpc, htag]
      exact removes_of_some hat
    · rw [pc_goto, htag]
      rfl

theorem Inv.present_fillStep {pp : Page n} (hpc : (s.cpu c).pc = .fill sp va pp)
    (hno : pdx va = pdx UVPT → pteValid (s.pm.mem sp.pgdir (ptx va)) = false)
    (hrun : s.pm.pageInsert sp.pgdir pp (pteAddr va) (passiveAllocPerm va) = some (.ok (), m))
    (hs' : s' = (if pdx va = pdx UVPT ∧ pdx UVPT < ptx va then
        { s.setPm m with own := update s.own pp (s.own pp + 1) } else s.setPm m).goto c
      (.flush (some sp.pgdir) sp.asid (pteAddr va) (.refill sp va)))
    (hp : s.Present o va' p) : s'.Present o va' p ∨ s.Lost s' (.step c) o va' := by
  have hhand := h.hand_of hpc
  obtain ⟨hlive, _, hok, hspare, hzero⟩ := hhand
  have href : (s.pm.ppRef pp).toNat < 65535 := by
    rw [hspare.2]
    decide
  rcases pdx_of_accepted hok with hbelow | huvpt
  · rw [if_neg (below_uvpt hbelow)] at hs'
    subst hs'
    have hbelow' : pdx (pteAddr va) < pdx UTOP := by
      rw [pdx_pteAddr]
      exact hbelow
    have hs : SameSpaces s ((s.setPm m).goto c
        (.flush (some sp.pgdir) sp.asid (pteAddr va) (.refill sp va))) :=
      ⟨rfl, rfl, rfl, rfl, rfl, rfl⟩
    rcases h.present_insert hn hlive hbelow' (passiveAllocPerm_lt va) hspare.1 href hrun hs rfl
      hp with hkept | ⟨ho, htag, hat⟩
    · exact .inl hkept
    · rw [pdx_pteAddr, ptx_pteAddr] at hat
      refine .inr ⟨⟨sp.asid, ho, ?_⟩, sp.asid, c, ho, ?_⟩
      · rw [drops_step hpc, htag, tag_congr sp.asid (pdx_pteAddr va) (ptx_pteAddr va)]
        exact removes_of_some hat
      · rw [pc_goto, htag]
        rfl
  · have hinv := hno huvpt
    obtain rfl := h.sound.fill_uvpt hn hlive huvpt hinv hrun
    by_cases hk : pdx UVPT < ptx va
    · rw [if_pos ⟨huvpt, hk⟩] at hs'
      subst hs'
      refine .inl (hp.ofSlotsEq (fun q hq => ?_) (h.sound.extraEntry_slots hlive.1 hk))
      cases o <;> exact hq
    · rw [if_neg (fun heq => hk heq.2)] at hs'
      subst hs'
      have hlow := h.sound.ptx_below hlive.1 hinv (not_lt.mp hk)
      obtain ⟨_, hslots⟩ := h.sound.acc.hang hn (user_of_dirs hlive.1 hlow) hinv hspare
        (fun j => by rw [hzero j]; exact pteValid_zero)
      refine .inl (hp.ofSlots (fun q hq => ?_) (fun q i j p hq => ?_) (fun q i t hq => ?_))
      · cases o <;> exact hq
      · refine (congrFun hslots (.inr (q, i, j))).trans ?_
        rw [update_of_ne (by simp)]
        exact hq
      · refine (congrFun hslots (.inl (q, i))).trans ?_
        rw [update_of_ne]
        · exact hq
        · rintro heq
          obtain ⟨rfl, rfl⟩ := Prod.mk.inj (Sum.inl.inj heq)
          cases (Pmap.tableAt_of_not_valid hinv).symm.trans hq

/-- A step keeps every translation but the one that it drops. -/
theorem Inv.present_step {l : MmuLabel n} (hok : s.Orderly l) (hstep : s.exec l = some s')
    (hp : s.Present o va' p) : s'.Present o va' p ∨ s.Lost s' l o va' := by
  cases exec_cases hstep with
  | same => exact .inl hp
  | memAlloc hpc ha hva halloc | passiveAlloc hpc hlook hva halloc =>
    obtain ⟨_, _, _, hslots, _⟩ := h.sound.acc.pageAlloc halloc
    refine .inl (hp.ofSlotsEq (fun q hq => ?_) hslots)
    cases o <;> exact hq
  | unmap hpc ha hva hremove =>
    rcases h.present_remove ⟨(h.sound.live _ _ ha).1, ha⟩ hva hremove hp with
      hkept | ⟨ho, htag, hat, hflush⟩
    · exact .inl hkept
    · refine .inr ⟨⟨_, ho, ?_⟩, _, _, ho, hflush.trans (congrArg some htag.symm)⟩
      simp only [drops, ha, Option.bind_some]
      rw [htag]
      exact removes_of_some hat
  | setupVm hpc halloc =>
    refine .inl (hp.ofSlotsEq (fun q hq => ?_) (h.sound.newSpace halloc _).slots)
    cases o <;> exact hq
  | fill hpc hrun => exact h.present_fillStep hn hpc (hok.of_pc hpc) hrun rfl hp
  | insertFails hpc hrun =>
    exact .inl (hp.ofSame ⟨rfl, rfl, rfl, rfl, rfl, rfl⟩
      (h.insertFails hn hpc (hok.of_pc hpc) hrun))
  | insert hpc hrun => exact h.present_insertStep hn hpc (hok.of_pc hpc) hrun hp
  | asidAlloc hpc =>
    have hhand := h.hand_of hpc
    refine .inl (hp.ofSlotsEq (fun q hq => ?_) rfl)
    cases o with
    | none => exact hq
    | some =>
      refine (update_of_ne ?_ _ _).trans hq
      rintro rfl
      cases hhand.2.symm.trans hq
  | stripPage hpc hsome hremove =>
    have hhand := h.hand_of hpc
    obtain ⟨hlive, hi, _⟩ := hhand
    rcases h.present_remove hlive (by rw [pdx_vaOf]; exact hi) hremove hp with
      hkept | ⟨ho, htag, _, hflush⟩
    · exact .inl hkept
    · refine .inr ⟨⟨_, ho, ?_⟩, _, _, ho, hflush.trans (congrArg some htag.symm)⟩
      rw [drops_step hpc, htag]
      simp only [pcDrops, hsome]
  | stripTable hpc hnone hdec => exact h.present_stripTable hpc hnone hdec rfl hp
  | dropDir hpc hdec => exact h.present_dropDir hpc (h.droppedSpace hpc hdec) (pc_goto ..) hp
  | dropAsid =>
    refine .inl (hp.ofSlotsEq (fun q hq => ?_) rfl)
    cases o <;> exact hq
  | _ => exact .inl (hp.ofSame ⟨rfl, rfl, rfl, rfl, rfl, rfl⟩ rfl)

end

end Mmu

end MosSmp
