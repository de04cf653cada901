import MosSmp.Mmu.Stale

/-!
ASIDs that are used again. `env_free` flushes, one by one, the addresses whose
translations it takes away. An entry that no translation stands behind is not
among them: one for the window at `UVPT` beyond the tables of the directory, or
a pair between `UTOP` and `UVPT` of which only one page is global. Such an
entry outlives its environment. Also `asid_free` comes before the last flush,
the one for the directory.

If every refill leaves an entry that a translation stands behind, or a global
one, and the entry for the directory is out of the TLBs at `asid_free`, then
the TLBs have nothing left under an ASID that is clear in the bitmap.
-/

namespace MosSmp

open Lib Function

theorem tag_asid (a : Asid) (va : Word) : tag a va &&& 0xff#32 = asidWord a := by
  have hlow : ∀ b : Asid, asidWord b &&& 0xff#32 = asidWord b := by decide +kernel
  have hhigh : va &&& ~~~0x1fff#32 &&& 0xff#32 = 0#32 := by
    rw [BitVec.and_assoc, show ~~~0x1fff#32 &&& 0xff#32 = 0#32 from rfl, BitVec.and_zero]
  unfold tag entryHi
  rw [BitVec.and_or_distrib_right, hhigh, BitVec.zero_or, hlow, hlow]

theorem asidWord_inj {a b : Asid} (h : asidWord a = asidWord b) : a = b := by
  have hval := congrArg BitVec.toNat h
  unfold asidWord at hval
  rw [BitVec.toNat_ofNat, BitVec.toNat_ofNat] at hval
  have ha : a.val < 256 := a.isLt
  have hb : b.val < 256 := b.isLt
  exact Fin.ext (by omega)

theorem asid_of_tag {a b : Asid} {va hi : Word} (hb : tag b va = hi)
    (ha : hi &&& 0xff#32 = asidWord a) : b = a := by
  apply asidWord_inj
  rw [← ha, ← hb, tag_asid]

/-- The CPU is in no call. -/
def MmuPc.atRest {n : Nat} : MmuPc n → Bool
  | .rest => true
  | _ => false

namespace Mmu

variable {n : Nat} {s s' : Mmu n} {c : CpuId} {l : MmuLabel n} {a : Asid} {va hi : Word}
variable {e : TlbEntry (Nat × Nat)}

/-- No TLB has an entry under the ASID, but for global ones. -/
def AsidClean (s : Mmu n) (a : Asid) : Prop :=
  ∀ c, ∀ e ∈ (s.cpu c).tlb, e.isGlobal = false → e.hi &&& 0xff#32 ≠ asidWord a

structure AsidSafe (s : Mmu n) : Prop where
  /-- From `asid_free` on, until `asid_alloc` takes the ASID again. -/
  freed : ∀ a, s.asidBitmap a = false → s.AsidClean a
  handedOut : ∀ a bitmap, asidAlloc s.asidBitmap = some (a, bitmap) → s.AsidClean a

/-- The refill is for an address below `UTOP`, for a table or for the directory
in the window at `UVPT`, or the pair that it reads is global. -/
def Covered (s : Mmu n) (sp : Space n) (va : Word) : Prop :=
  pdx va < pdx UTOP ∨
    pdx va = pdx UVPT ∧ (ptx va < pdx UTOP ∨ (ptx va).val / 2 = (pdx UVPT).val / 2) ∨
    (match s.pm.pageLookup sp.pgdir va with
      | some (some (_, pte)) => (s.entryOf sp va pte).isGlobal
      | _ => true) = true

instance decidableCovered (s : Mmu n) (sp : Space n) (va : Word) : Decidable (s.Covered sp va) :=
  instDecidableOr

def Flushable (s : Mmu n) : MmuPc n → Prop
  | .refill sp va => s.Covered sp va
  | .dropAsid a => ∀ c, tag a (uvptVa (pdx UVPT)) ∉ s.tags c
  | _ => True

instance decidableFlushable (s : Mmu n) : (pc : MmuPc n) → Decidable (s.Flushable pc)
  | .refill sp va => s.decidableCovered sp va
  | .dropAsid _ => Nat.decidableForallFin _
  | .rest | .fill _ _ _ | .install _ _ _ _ _ | .insert _ _ _ _ _ | .built _ | .flush _ _ _ _
  | .await _ _ _ _ _ | .scan _ _ | .strip _ _ _ _ | .dropDir _ => instDecidableTrue

/-- The step is orderly. A refill leaves an entry that `env_free` will find,
and `asid_free` is called when the entry for the directory is gone. -/
def Recycles (s : Mmu n) (l : MmuLabel n) : Prop :=
  s.Orderly l ∧ match l with
    | .step c => s.Flushable (s.cpu c).pc
    | _ => True

instance decidableRecycles (s : Mmu n) : (l : MmuLabel n) → Decidable (s.Recycles l)
  | .step c => @instDecidableAnd _ _ _ (s.decidableFlushable (s.cpu c).pc)
  | .touch _ _ _ | .memAlloc _ _ _ _ | .share _ _ _ _ _ _ | .unmap _ _ _ | .envFree _ _
  | .setupVm _ | .serve _ | .evict _ _ => @instDecidableAnd _ _ _ instDecidableTrue

theorem Recycles.of_pc {pc : MmuPc n} (hok : s.Recycles (.step c)) (hpc : (s.cpu c).pc = pc) :
    s.Flushable pc := by
  subst hpc
  exact hok.2

/-- A translation stands behind the tag, or its flush is under way. -/
def Backed (s : Mmu n) (c : CpuId) (hi : Word) : Prop :=
  (∃ a va p, s.Present (some a) va p ∧ tag a va = hi) ∨ s.Pending c hi

def AllBacked (s : Mmu n) : Prop :=
  ∀ c e, s.Has c e → e.isGlobal = false → s.Backed c e.hi

/-- The same for what refills have in hand. -/
def AllClean (s : Mmu n) : Prop :=
  ∀ a, s.asidBitmap a = false → ∀ c e, s.Has c e → e.isGlobal = false →
    e.hi &&& 0xff#32 ≠ asidWord a

theorem Inv.present_of_reads (hn : n ≤ 2 ^ 20) (h : s.Inv) {sp : Space n} {pp : Page n}
    {pte : EntryPtr n} (hpc : (s.cpu c).pc = .refill sp va)
    (hlook : s.pm.pageLookup sp.pgdir va = some (some (pp, pte))) (hcov : s.Covered sp va)
    (hglobal : (s.entryOf sp va pte).isGlobal = false) :
    ∃ va' p, s.Present (some sp.asid) va' p ∧ tag sp.asid va' = tag sp.asid va := by
  obtain ⟨hlive, hva⟩ := h.hand_of hpc
  have howner : s.Owner sp.pgdir (some sp.asid) := hlive.2
  obtain ⟨_, rfl, hpp, hwhere⟩ := h.sound.table_of_lookup hn hlive hva hlook
  have hplace : pdx va < pdx UTOP ∨
      pdx va = pdx UVPT ∧ (ptx va < pdx UTOP ∨ (ptx va).val / 2 = (pdx UVPT).val / 2) := by
    rcases hcov with hbelow | hwindow | hpair
    · exact .inl hbelow
    · exact .inr hwindow
    · rw [hlook] at hpair
      cases hglobal.symm.trans hpair
  rcases hwhere with ⟨_, ht⟩ | ⟨hge, hlt, _⟩ | ⟨huvpt, rfl⟩
  · exact ⟨va, pp, ⟨sp.pgdir, howner, .inl ((Pmap.pageAt_of_table ht).trans hpp)⟩, rfl⟩
  · rcases hplace with hbelow | ⟨heq, _⟩
    · exact absurd hbelow (not_lt.mpr hge)
    · exact absurd heq hlt.ne
  · rcases hplace with hbelow | ⟨_, htable | hpair⟩
    · rw [huvpt] at hbelow
      exact absurd hbelow (by decide)
    · refine ⟨va, pp, ⟨sp.pgdir, howner, .inr ⟨huvpt, .inl ?_⟩⟩, rfl⟩
      unfold tableAt Pmap.tableAt
      rw [user_of_dirs hlive.1 htable, if_pos rfl]
      exact hpp
    · refine ⟨uvptVa (pdx UVPT), sp.pgdir, ⟨sp.pgdir, howner, .inr ⟨pdx_uvptVa _, .inr ?_⟩⟩, ?_⟩
      · exact ⟨ptx_uvptVa _, rfl⟩
      · refine tag_pair _ ((pdx_uvptVa _).trans huvpt.symm) ?_
        rw [ptx_uvptVa]
        exact hpair.symm

theorem pending_of_flushes {b : CpuId} (h : (s.cpu b).pc.flushes = some hi) (c : CpuId) :
    s.Pending c hi := by
  rcases eq_or_eq_other c b with rfl | rfl
  · exact .inl h
  · exact .inr (.inl h)

theorem AllBacked.step (hn : n ≤ 2 ^ 20) (hb : s.AllBacked) (h : s.Inv) (hok : s.Recycles l)
    (hstep : s.exec l = some s') : s'.AllBacked := by
  intro c e hhas hglobal
  have hold : s.Backed c e.hi := by
    rcases h.has_step hstep hhas with hhas | ⟨⟨sp, va, _, _, hpc, hlook, rfl⟩, rfl⟩
    · exact hb c e hhas hglobal
    · obtain ⟨va', p, hp, htag⟩ := h.present_of_reads hn hpc hlook (hok.of_pc hpc) hglobal
      exact .inl ⟨sp.asid, va', p, hp, htag⟩
  rcases hold with ⟨a, va, p, hp, htag⟩ | hpend
  · rcases h.present_step hn hok.1 hstep hp with hkept | ⟨_, _, _, hsame, hflush⟩
    · exact .inl ⟨a, va, p, hkept, htag⟩
    · cases hsame
      rw [htag] at hflush
      exact .inr (pending_of_flushes hflush c)
  · rcases h.pending_step hstep hpend with hpend | hgone
    · exact .inr hpend
    · exact absurd rfl (hgone e hhas)

/-- A flush under an ASID that no directory has is the last one of
`env_free`. -/
theorem Hand.last_flush {pc : MmuPc n} (h : s.Hand pc) (hno : ∀ d, s.asidOf d ≠ some a)
    (hf : pc.flushes = some hi ∨ pc.awaits = some hi) (hhi : hi &&& 0xff#32 = asidWord a) :
    hi = tag a (uvptVa (pdx UVPT)) := by
  have hflush : ∀ {d : Option (Page n)} {b va}, s.FlushOf d b va → tag b va = hi →
      hi = tag a (uvptVa (pdx UVPT)) := by
    intro d b va hof htag
    obtain rfl := asid_of_tag htag hhi
    cases d with
    | none =>
      obtain rfl := hof
      exact htag.symm
    | some q => exact absurd hof.2 (hno q)
  cases pc with
  | flush =>
    rcases hf with hf | hf
    · exact hflush h.1 (Option.some.inj hf)
    · cases hf
  | await d b va acked =>
    cases acked with
    | false =>
      rcases hf with hf | hf
      · cases hf
      · exact hflush h.1 (Option.some.inj hf)
    | true => rcases hf with hf | hf <;> cases hf
  | dropAsid =>
    rcases hf with hf | hf
    · have htag := Option.some.inj hf
      obtain rfl := asid_of_tag htag hhi
      exact htag.symm
    · cases hf
  | _ => rcases hf with hf | hf <;> cases hf

/-- When `asid_free` is called, nothing is left under the ASID. -/
theorem AllBacked.clean (hb : s.AllBacked) (h : s.Inv) (hok : s.Flushable (.dropAsid a))
    (hno : ∀ d, s.asidOf d ≠ some a) {b : CpuId} (hhas : s.Has b e)
    (hglobal : e.isGlobal = false) : e.hi &&& 0xff#32 ≠ asidWord a := by
  intro hhi
  have hlast : e.hi = tag a (uvptVa (pdx UVPT)) := by
    rcases hb b e hhas hglobal with ⟨_, _, _, ⟨d, hd, _⟩, htag⟩ | hpend
    · obtain rfl := asid_of_tag htag hhi
      exact absurd hd (hno d)
    · rcases hpend with hown | hother | hother
      · exact (h.hands b).last_flush hno (.inl hown) hhi
      · exact (h.hands (other b)).last_flush hno (.inl hother) hhi
      · exact (h.hands (other b)).last_flush hno (.inr hother) hhi
  have htags := mem_tags hhas
  rw [hlast] at htags
  exact hok b htags

/-- The bitmap changes in `asid_alloc` and in `asid_free` only. -/
theorem asidBitmap_step (hstep : s.exec l = some s') (ha : s'.asidBitmap a = false) :
    s.asidBitmap a = false ∨ ∃ c, l = .step c ∧ (s.cpu c).pc = .dropAsid a := by
  cases exec_cases hstep with
  | unmap hpc _ hva hremove | stripPage hpc hsome hremove =>
    unfold removeStep at hremove
    split at hremove
    · cases hremove
    · cases hremove
      exact .inl ha
    · obtain ⟨_, _, rfl⟩ := Option.map_eq_some_iff.mp hremove
      exact .inl ha
  | asidAlloc hpc halloc =>
    obtain ⟨_, rfl⟩ := asidAlloc_some halloc
    change update s.asidBitmap _ true a = false at ha
    rw [update_apply] at ha
    split at ha
    · cases ha
    · exact .inl ha
  | @dropAsid c b hpc =>
    change update s.asidBitmap b false a = false at ha
    rw [update_apply] at ha
    split at ha
    · next heq =>
      subst heq
      exact .inr ⟨c, rfl, hpc⟩
    · exact .inl ha
  | fill =>
    split at ha <;> exact .inl ha
  | _ => exact .inl ha

theorem AllClean.step (hclean : s.AllClean) (hb : s.AllBacked) (h : s.Inv) (hok : s.Recycles l)
    (hstep : s.exec l = some s') : s'.AllClean := by
  intro a ha c e hhas hglobal
  rcases h.has_step hstep hhas with hold | ⟨⟨_, _, _, _, hpc, _, rfl⟩, rfl⟩
  · rcases asidBitmap_step hstep ha with ha | ⟨b, rfl, hpc⟩
    · exact hclean a ha c e hold hglobal
    · exact hb.clean h (hok.of_pc hpc) (h.hand_of hpc).2 hold hglobal
  · -- a refill is for an ASID in use
    rcases asidBitmap_step hstep ha with ha | ⟨b, hb', hpc'⟩
    · intro hhi
      obtain rfl := asid_of_tag rfl hhi
      have hlive := (h.hand_of hpc).1.2
      cases (h.sound.live _ _ hlive).2.symm.trans ha
    · obtain rfl := MmuLabel.step.inj hb'
      cases hpc.symm.trans hpc'

end Mmu

/-- In every state of a run in which refills leave entries that `env_free` can
find, no TLB has an entry under an ASID that may be handed out. -/
theorem asidSafe_of_recycles {memsize : Word} {s : Mmu (npage memsize)}
    (hrun : (mmu memsize).ReachableUnder Mmu.Recycles s) : s.AsidSafe := by
  have hn := npage_le memsize
  have hall : s.Inv ∧ s.AllBacked ∧ s.AllClean := by
    apply hrun.invariant
    · intro s hinit
      have hnone : ∀ c e, ¬ s.Has c e := by
        intro c e hhas
        obtain ⟨_, _, _, _, _, _, _, _, _, hcpu⟩ := hinit
        unfold Mmu.Has at hhas
        rw [hcpu] at hhas
        rcases hhas with he | he <;> cases he
      exact ⟨Mmu.Inv.start hinit, fun c e hhas => absurd hhas (hnone c e),
        fun _ _ c e hhas => absurd hhas (hnone c e)⟩
    · intro s l s' _ ⟨hinv, hb, hclean⟩ hok hstep
      exact ⟨hinv.step hn hok.1 hstep, hb.step hn hinv hok hstep, hclean.step hb hinv hok hstep⟩
  have hfreed : ∀ a, s.asidBitmap a = false → s.AsidClean a :=
    fun a ha c e he => hall.2.2 a ha c e (.inl he)
  exact ⟨hfreed, fun a bitmap ha => hfreed a (asidAlloc_some ha).1⟩

/-- An environment has a page, reads it, and reads the table for it and its
directory at `UVPT`. Its entries are evicted or flushed, and the next
environment gets the same ASID. -/
theorem asidSafe_usedAgain :
    ∃ s : Mmu (npage 0x10000), (mmu 0x10000).ReachableUnder Mmu.Recycles s ∧
      ((s.cpu 1).tlb.length = 0 ∧ s.asidOf (bootPage 12) = some 0 ∧
        s.allocs (bootPage 12) = 2) ∧ s.AsidSafe := by
  have hstart : (mmu 0x10000).ReachableUnder Mmu.Recycles bootMmu := .init bootMmu_init
  obtain ⟨s, hs, hP⟩ := Machine.exists_reachableUnder_of_exec
    (P := fun s : Mmu (npage 0x10000) => (s.cpu 1).tlb.length = 0 ∧
      s.asidOf (bootPage 12) = some 0 ∧ s.allocs (bootPage 12) = 2)
    [.setupVm 0, .step 0, .memAlloc 0 (bootPage 12) 0x400000 PTE_D, .step 0, .step 0, .serve 1,
      .step 0, .touch 1 (bootPage 12) 0x400000, .step 1, .step 1,
      .touch 1 (bootPage 12) (uvptVa 1), .step 1, .step 1,
      .touch 1 (bootPage 12) (uvptVa 511), .step 1, .step 1, .evict 1 0,
      .envFree 0 (bootPage 12), .step 0, .step 0, .step 0, .serve 1, .step 0,
      .step 0, .step 0, .serve 1, .step 0, .step 0, .step 0, .step 0, .step 0, .serve 1, .step 0,
      .setupVm 1, .step 1] hstart (by decide +kernel)
  exact ⟨s, hs, hP, asidSafe_of_recycles hs⟩

/-- An environment reads entry 600 of its window at `UVPT`, where there is no
table. `passive_alloc` puts a page there. After `env_free` has returned, the
ASID is free and the entry is still in the TLB; the next environment gets the
ASID. -/
theorem leftoverAsid_reachable : ∃ s : Mmu (npage 0x10000), (mmu 0x10000).Reachable s ∧
      (s.asidBitmap 0 = false ∧ (s.cpu 0).pc.atRest = true ∧
        (asidAlloc s.asidBitmap).map Prod.fst = some 0 ∧
        (s.cpu 1).tlb.any (fun e => decide (e.isGlobal = false ∧
          e.hi = tag 0 (uvptVa 600))) = true) ∧ ¬ s.AsidSafe := by
  have hstart : (mmu 0x10000).Reachable bootMmu := .init bootMmu_init
  obtain ⟨s, hs, hfree, hrest, hnext, htlb⟩ := Machine.exists_reachableUnder_of_exec
    (P := fun s : Mmu (npage 0x10000) => s.asidBitmap 0 = false ∧
      (s.cpu 0).pc.atRest = true ∧ (asidAlloc s.asidBitmap).map Prod.fst = some 0 ∧
      (s.cpu 1).tlb.any (fun e => decide (e.isGlobal = false ∧ e.hi = tag 0 (uvptVa 600))) = true)
    [.setupVm 0, .step 0, .touch 1 (bootPage 12) (uvptVa 600), .step 1, .step 1, .step 1, .serve 0,
      .step 1, .step 1, .step 1, .envFree 0 (bootPage 12), .step 0, .step 0, .step 0, .step 0,
      .serve 1, .step 0] hstart (by decide +kernel)
  refine ⟨s, hs, ⟨hfree, hrest, hnext, htlb⟩, fun h => ?_⟩
  obtain ⟨e, he, hp⟩ := List.any_eq_true.mp htlb
  obtain ⟨hglobal, hhi⟩ := of_decide_eq_true hp
  exact h.freed 0 hfree 1 e he hglobal (hhi ▸ tag_asid 0 _)

end MosSmp
