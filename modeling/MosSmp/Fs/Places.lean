import MosSmp.Fs.Spec

/-!
The functions that find, fill and clear the places of a file. A directory may
take a block only if its page is of zeros, and so may the field `f_indirect`:
the code does not clear the pages, so the callers of these specifications say
why no old page is in the way.
-/

namespace MosSmp.Fs

open Lib Prog Relation Server FilePtr

variable {s t u : Server} {kept kept' : Nat → Prop} {E : Stop → Prop} {X : FsErr → Server → Prop}
  {l : Loc} {b c i k w : Nat} {F : FilePtr} {p : Place} {v : View}

theorem Owned.blk_used (ho : Owned v kept) (hF : Slotted v F) : Used v F.blk := by
  rcases ho.blk_cases hF with rfl | ⟨_, _, hu, _⟩
  · exact ho.holding.kept_used 1 ho.one_reserved
  · exact hu

theorem Owned.ref_ne_blk_of_kept (ho : Owned v kept) (hF : Slotted v F) (hb : kept b)
    (hr : ¬ Reserved v b) : b ≠ F.blk := by
  refine (ho.blk_ne_of_kept hF hb ?_).symm
  rintro rfl
  exact hr (Nat.lt_of_lt_of_le Nat.one_lt_two (Nat.le_add_right _ _))

theorem getAt_slotLoc (hi : i < NINDIRECT) (hind : NDIRECT ≤ i → F.indirect v ≠ 0) :
    getAt v (F.slotLoc v i) = F.slot v i := by
  unfold slotLoc slot
  by_cases hlt : i < NDIRECT
  · rw [if_pos hlt, if_pos hlt]
    rfl
  · rw [if_neg hlt, if_neg hlt, if_pos ⟨hi, hind (Nat.not_lt.mp hlt)⟩]
    rfl

theorem FilePtr.slot_of_no_indirect (hlo : NDIRECT ≤ i) (hind : F.indirect v = 0) :
    F.slot v i = 0 := by
  unfold slot
  rw [if_neg (Nat.not_lt.mpr hlo), if_neg (fun h => h.2 hind)]

/-- At most empty places of the file `F` have been filled. -/
structure FillOf (F : FilePtr) (s t : Server) (kept : Nat → Prop) : Prop extends
    Fill s t kept where
  others : ∀ g p, Slotted s.view g → g ≠ F → g.ref t.view p = g.ref s.view p

theorem FillOf.trans (h : FillOf F s t kept) (h' : FillOf F t u kept') : FillOf F s u kept' where
  toFill := h.toFill.trans h'.toFill
  others := fun g p hg hne =>
    (h'.others g p (h.kin.slots g hg) hne).trans (h.others g p hg hne)

theorem Quiet.fillOf (h : Quiet s t kept) : FillOf F s t kept where
  toFill := h.toFill
  others := fun g p hg _ => h.same g p hg

namespace Sound

section

variable (hs : Sound s kept) (hF : Slotted s.view F) (hc : s.Cached F.blk) (hk : k < 64)
include hs hF hc hk

/-- A field of a structure in a cached block. -/
theorem wp_word {Q : Nat → Server → Prop} (h : Q (getAt s.view (F.word k)) s) :
    wp (load (F.word k)) E X Q s := by
  refine wp_load (hs.owned.blk_lt hF) hc ?_ h
  have := hF.off_le
  change F.off + k < 1024
  simp only [BLOCK_SIZE] at this
  omega

theorem wp_storeWord {Q : Unit → Server → Prop} (h : Q () (s.put (F.word k) w)) :
    wp (store (F.word k) w) E X Q s := by
  refine wp_store (hs.owned.blk_lt hF) hc ?_ h
  have := hF.off_le
  change F.off + k < 1024
  simp only [BLOCK_SIZE] at this
  omega

end

/-- A slot that `file_block_walk` has found can be read and written. -/
theorem slotLoc_ok (hs : Sound s kept) (hF : Reach s.view F) (hi : i < NINDIRECT)
    (hind : NDIRECT ≤ i → F.indirect s.view ≠ 0) :
    Used s.view (F.slotLoc s.view i).blk ∧ (F.slotLoc s.view i).idx < BLOCK_SIZE / 4 ∧
      ∀ b, kept b → ¬ Reserved s.view b → b ≠ (F.slotLoc s.view i).blk := by
  unfold slotLoc
  by_cases hlt : i < NDIRECT
  · rw [if_pos hlt]
    refine ⟨hs.owned.blk_used hF.slotted, ?_, fun b hb hr => ?_⟩
    · have hoff := hF.slotted.off_le
      have hlt10 : i < 10 := hlt
      change F.off + (34 + i) < 1024
      simp only [BLOCK_SIZE] at hoff
      omega
    · exact hs.owned.ref_ne_blk_of_kept hF.slotted hb hr
  · rw [if_neg hlt]
    have hne := hind (Nat.not_lt.mp hlt)
    refine ⟨hs.owned.holding.ref_used F .indirect hF hne, hi, fun b hb _ => ?_⟩
    exact (hs.owned.indirect_ne_kept hF hne hb).symm

/-- A store to a block in use leaves the free blocks as they are. -/
theorem cleanFree_put (hu : Used s.view l.blk)
    (hdisk : diskSize (setAt s.view l w) = diskSize s.view)
    (hunused : ∀ c, c < diskSize s.view → (Unused (setAt s.view l w) c → Unused s.view c))
    (hclean : CleanFree s) : CleanFree (s.put l w) := by
  intro c hlt hun hcc
  rw [view_put] at hlt hun ⊢
  rw [hdisk] at hlt
  have hun := hunused c hlt hun
  have hne : c ≠ l.blk := fun hcb => hu.2 (hcb ▸ hun)
  rw [setAt_other _ _ _ c hne]
  exact hclean c hlt hun (((s.cached_change _ _ c).mp hcc).resolve_left hne)

/-- A block kept aside is stored in an empty place. -/
theorem fill_assign (hs : Sound s kept) (hF : Reach s.view F)
    (hst : Stored s.view (setAt s.view l b) F p b) (hempty : F.ref s.view p = 0) (hb : kept b)
    (hr : ¬ Reserved s.view b) (hwithin : ∀ i, p = .slot i → i < F.extent s.view)
    (hzero : ∀ i, p = .slot i → F.type s.view = FTYPE_DIR → s.view b = Block.zero)
    (hu : Used s.view l.blk) (hlb : b ≠ l.blk) :
    FillOf F s (s.put l b) (fun c => kept c ∧ c ≠ b) := by
  have hzero' : ∀ i, p = .slot i → F.type s.view = FTYPE_DIR → ∀ k, setAt s.view l b b k = 0 := by
    intro i hp ht k
    rw [setAt_other _ _ _ b hlb, hzero i hp ht]
    rfl
  obtain ⟨ho, hkin⟩ : Owned (setAt s.view l b) (fun c => kept c ∧ c ≠ b) ∧
      Kin (s.put l b).Cached s.view (setAt s.view l b) :=
    hs.owned.assign hF hst hempty hb hr hwithin hzero'
  rw [← view_put] at ho hkin
  have hgrown := grown_put s l b
  have hdisk : diskSize (s.put l b).view = diskSize s.view := by
    rw [view_put]
    exact hst.alike.disk
  exact {
    toGrown := hgrown
    sound := hs.of_grown hgrown hdisk ho
    kin := hkin
    clean := cleanFree_put hu hst.alike.disk (fun c hc => (hst.unused c hc).mp)
    refs := by
      intro g q hg hne
      rw [view_put]
      refine hst.alike.ref g q hg ?_
      rintro ⟨rfl, rfl⟩
      exact hne hempty
    live := by
      intro g hg
      rw [view_put]
      exact hst.alike.live g hg
    others := by
      intro g q hg hne
      rw [view_put]
      exact hst.alike.ref g q hg (fun h => hne h.1) }

end Sound

/-- What `alloc` may do about a missing indirect block. -/
def IndirectClean (s : Server) (F : FilePtr) : Prop :=
  F.indirect s.view = 0 → ∀ b, FirstFree s.view b → s.Cached b → s.view b = Block.zero

section

variable (hs : Sound s kept) (hF : Reach s.view F) (hc : s.Cached F.blk)
include hs hF hc

theorem indirectBlock_spec (alloc : Bool) (hclean : alloc = true → IndirectClean s F) :
    wp (indirectBlock F alloc) E
      (fun _ t => FillOf F s t kept ∧ (alloc = false → t = s ∧ F.indirect s.view = 0))
      (fun ind t => FillOf F s t kept ∧ (alloc = false → t = s) ∧
        ind = F.indirect t.view ∧ ind ≠ 0 ∧ ∀ i, F.slot t.view i = F.slot s.view i) s := by
  refine wp_bind.mpr (hs.wp_word hF.slotted hc (by decide) ?_)
  by_cases hind : F.indirect s.view = 0
  · refine wp_neg (not_not.mpr hind) ?_
    by_cases halloc : alloc = false
    · exact wp_pos halloc ⟨(hs.quiet_of_calm (.refl s)).fillOf, fun _ => ⟨rfl, hind⟩⟩
    · refine wp_neg halloc
        ((allocBlock_spec hs).andThen ?_ ?_)
      · exact fun _ t ht => ⟨ht.fillOf, fun h => absurd h halloc⟩
      rintro b t ⟨hfirst, hfill, _, hpage⟩
      have ht := hfill.sound
      obtain ⟨hnk, hnr⟩ := hs.not_reserved_of_unused hfirst.unused
      have hzero : t.view b = Block.zero := by
        rcases hpage with hz | ⟨hcs, heq⟩
        · exact hz
        · rw [heq]
          exact hclean (Bool.eq_true_of_not_eq_false halloc) hind b hfirst hcs
      have hF' : Reach t.view F := (hfill.kin.reach F).mpr hF
      have hind' : F.indirect t.view = 0 := (hfill.same F .indirect hF.slotted).trans hind
      have hnr' : ¬ Reserved t.view b := by
        unfold Reserved at hnr ⊢
        rw [hfill.disk]
        exact hnr
      have hbF := ht.owned.ref_ne_blk_of_kept hF'.slotted (b := b) (.inr rfl) hnr'
      have hst := ht.owned.stored_indirect hF' b (fun i hi => slot_of_no_indirect hi hind')
        (fun _ => ⟨hbF, fun i => by rw [hzero]; rfl⟩)
      have hassign := ht.fill_assign hF' hst hind' (.inr rfl) hnr' (fun i hi => by cases hi)
        (fun i hi => by cases hi) (ht.owned.blk_used hF'.slotted) hbF
      rw [kept_restore hnk] at hassign
      refine wp_bind.mpr (ht.wp_storeWord hF'.slotted (hfill.cached _ hc) (by decide) ?_)
      refine ⟨hfill.fillOf.trans hassign, fun h => absurd h halloc, ?_, ?_, fun i => ?_⟩
      · have hset := hst.set
        rw [← view_put] at hset
        exact hset.symm
      · have := hfirst.lo
        omega
      · have hslot := hst.alike.ref F (.slot i) hF'.slotted (by simp)
        rw [← view_put] at hslot
        exact hslot.trans (hfill.same F (.slot i) hF.slotted)
  · exact wp_pos hind
      ⟨(hs.quiet_of_calm (.refl s)).fillOf, fun _ => rfl, rfl, hind, fun _ => rfl⟩

/-- `file_block_walk` finds the word of the slot. Without `alloc` it fails only
where there is no such word or no memory to read the indirect block. -/
theorem fileBlockWalk_spec (alloc : Bool) (i : Nat)
    (hclean : alloc = true → NDIRECT ≤ i → IndirectClean s F) :
    wp (fileBlockWalk F i alloc) E (fun _ t => FillOf F s t kept ∧ (alloc = false → Calm s t ∧
        ¬ (i < NINDIRECT ∧ (NDIRECT ≤ i → F.indirect s.view ≠ 0 ∧
            (s.Cached (F.indirect s.view) ∨ s.mem s.asked = true)))))
      (fun l t => FillOf F s t kept ∧ (alloc = false → Calm s t) ∧ i < NINDIRECT ∧
        l = F.slotLoc t.view i ∧ (NDIRECT ≤ i → F.indirect t.view ≠ 0) ∧ t.Cached l.blk ∧
        F.slot t.view i = F.slot s.view i) s := by
  have hquiet : FillOf F s s kept := (hs.quiet_of_calm (.refl s)).fillOf
  by_cases hlt : i < NDIRECT
  · refine wp_pos hlt ⟨hquiet, fun _ => .refl s, ?_, ?_, ?_, hc, rfl⟩
    · exact Nat.lt_trans hlt (by decide)
    · unfold slotLoc
      rw [if_pos hlt]
    · exact fun hle => absurd hlt (Nat.not_lt.mpr hle)
  have hlo := Nat.not_lt.mp hlt
  refine wp_neg hlt ?_
  by_cases hi : i < NINDIRECT
  · refine wp_pos hi (wp_bind.mpr ?_)
    refine (indirectBlock_spec hs hF hc alloc (fun ha => hclean ha hlo)).imp ?_ ?_
    · rintro _ t ⟨hfill, hret⟩
      refine ⟨hfill, fun ha => ?_⟩
      obtain ⟨rfl, hzero⟩ := hret ha
      exact ⟨.refl t, fun h => (h.2 hlo).1 hzero⟩
    · rintro _ t ⟨hfill, hret, rfl, hne, hslot⟩
      have hF' := (hfill.kin.reach F).mpr hF
      have hused := hfill.sound.owned.holding.ref_used F .indirect hF' hne
      refine (readBlock_spec hfill.sound hused).andThen ?_ ?_
      · rintro _ u ⟨_, hnc, hcalm⟩
        refine ⟨hfill.trans (hfill.sound.quiet_of_calm hcalm).fillOf, fun ha => ?_⟩
        obtain rfl := hret ha
        exact ⟨hcalm, fun h => hnc (h.2 hlo).2⟩
      · rintro _ u ⟨hcalm, hcu⟩
        have hloc : F.slotLoc u.view i = ⟨F.indirect t.view, i⟩ := by
          unfold slotLoc
          rw [if_neg hlt, hcalm.view]
        refine ⟨hfill.trans (hfill.sound.quiet_of_calm hcalm).fillOf, fun ha => ?_, hi, hloc.symm,
          fun _ => by rw [hcalm.view]; exact hne, hcu, ?_⟩
        · obtain rfl := hret ha
          exact hcalm
        · rw [hcalm.view]
          exact hslot i
  · exact wp_neg hi ⟨hquiet, fun _ => ⟨.refl s, fun h => hi h.1⟩⟩

/-- Without `alloc`, `file_map_block` reads a slot. -/
theorem fileMapBlock_read_spec (i : Nat) :
    wp (fileMapBlock F i false) E (fun _ t => Calm s t)
      (fun d t => Calm s t ∧ d = F.slot s.view i ∧ d ≠ 0) s := by
  refine (fileBlockWalk_spec hs hF hc false i (fun h => by cases h)).andThen ?_ ?_
  · exact fun _ t ht => (ht.2 rfl).1
  rintro _ t ⟨hfill, hcalm, hi, rfl, hind, hcl, hslot⟩
  have hF' := (hfill.kin.reach F).mpr hF
  obtain ⟨hu, hidx, _⟩ := hfill.sound.slotLoc_ok hF' hi hind
  refine wp_bind.mpr (wp_load (hfill.sound.lt_of_used hu) hcl hidx ?_)
  rw [getAt_slotLoc hi hind, hslot]
  by_cases hd : F.slot s.view i = 0
  · exact wp_neg (not_not.mpr hd) (wp_pos rfl (hcalm rfl))
  · exact wp_pos hd ⟨hcalm rfl, rfl, hd⟩

end

/-- What has to hold for `file_map_block` to allocate in file block `i`. -/
structure MayAlloc (s : Server) (F : FilePtr) (i : Nat) : Prop where
  within : i < F.extent s.view
  indirect : NDIRECT ≤ i → IndirectClean s F
  data : F.type s.view = FTYPE_DIR → F.slot s.view i = 0 → CleanFree s

theorem fileMapBlock_alloc_spec (hs : Sound s kept) (hF : Reach s.view F) (hc : s.Cached F.blk)
    (i : Nat) (hmay : MayAlloc s F i) :
    wp (fileMapBlock F i true) E (fun _ t => FillOf F s t kept)
      (fun d t => FillOf F s t kept ∧ d = F.slot t.view i ∧ d ≠ 0 ∧
        (F.type s.view = FTYPE_DIR → F.slot s.view i = 0 → t.view d = Block.zero)) s := by
  refine (fileBlockWalk_spec hs hF hc true i (fun _ => hmay.indirect)).andThen
    (fun _ _ hx => hx.1) ?_
  rintro _ t ⟨hfill, _, hi, rfl, hind, hcl, hslot⟩
  have ht := hfill.sound
  have hF' := (hfill.kin.reach F).mpr hF
  obtain ⟨hu, hidx, _⟩ := ht.slotLoc_ok hF' hi hind
  refine wp_bind.mpr (wp_load (ht.lt_of_used hu) hcl hidx ?_)
  rw [getAt_slotLoc hi hind]
  by_cases hd : F.slot t.view i = 0
  · refine wp_neg (not_not.mpr hd) (wp_neg (by decide) (wp_bind.mpr ?_))
    refine (allocBlock_spec ht).imp (fun _ u hu => hfill.trans hu.fillOf) ?_
    rintro b u ⟨hfirst, hq, _, hpage⟩
    have hu' := hq.sound
    obtain ⟨hnk, hnr⟩ := ht.not_reserved_of_unused hfirst.unused
    have hnr' : ¬ Reserved u.view b := by
      unfold Reserved at hnr ⊢
      rw [hq.disk]
      exact hnr
    have hFu := (hq.kin.reach F).mpr hF'
    have hindu : NDIRECT ≤ i → F.indirect u.view ≠ 0 := by
      intro hle
      rw [show F.indirect u.view = F.indirect t.view from hq.same F .indirect hF'.slotted]
      exact hind hle
    have hloc : F.slotLoc t.view i = F.slotLoc u.view i := by
      unfold slotLoc
      rw [show F.indirect u.view = F.indirect t.view from hq.same F .indirect hF'.slotted]
    obtain ⟨huu, _, hne⟩ := hu'.slotLoc_ok hFu hi hindu
    have hempty : F.ref u.view (.slot i) = 0 := (hq.same F (.slot i) hF'.slotted).trans hd
    have htypes : F.type u.view = F.type s.view :=
      (hq.kin.type F hF'.slotted).trans (hfill.kin.type F hF.slotted)
    have hzero : F.type u.view = FTYPE_DIR → u.view b = Block.zero := by
      intro htype
      rw [htypes] at htype
      have hcf := hfill.clean (hmay.data htype (hslot.symm.trans hd))
      rcases hpage with hz | ⟨hct, heq⟩
      · exact hz
      · rw [heq]
        exact hcf b hfirst.hi hfirst.unused hct
    have hext : F.extent u.view = F.extent s.view := by
      unfold extent
      rw [hq.kin.size F hF'.slotted, hfill.kin.size F hF.slotted]
    have hst := hu'.owned.stored_slot hFu hi hindu b
    have hassign := hu'.fill_assign hFu hst hempty (.inr rfl) hnr'
      (fun j hj => by cases hj; rw [hext]; exact hmay.within) (fun _ _ => hzero) huu
      (hne b (.inr rfl) hnr')
    rw [kept_restore hnk] at hassign
    rw [hloc]
    refine wp_bind.mpr (wp_store (hu'.lt_of_used huu) ?_ ?_ ?_)
    · rw [← hloc]
      exact hq.cached _ hcl
    · rw [← hloc]
      exact hidx
    · refine ⟨(hfill.trans hq.fillOf).trans hassign, ?_, ?_, fun htype _ => ?_⟩
      · have hset := hst.set
        rw [← view_put] at hset
        exact hset.symm
      · have := hfirst.lo
        omega
      · rw [view_put, setAt_other _ _ _ b (hne b (.inr rfl) hnr')]
        exact hzero (htypes.trans htype)
  · exact wp_pos hd ⟨hfill, rfl, hd, fun _ hz => absurd (hslot.trans hz) hd⟩

theorem fileGetBlock_spec (hs : Sound s kept) (hF : Reach s.view F) (hc : s.Cached F.blk)
    (i : Nat) (hmay : MayAlloc s F i) :
    wp (fileGetBlock F i) E (fun _ t => FillOf F s t kept)
      (fun d t => FillOf F s t kept ∧ d = F.slot t.view i ∧ d ≠ 0 ∧ t.Cached d ∧
        (F.type s.view = FTYPE_DIR → F.slot s.view i = 0 → t.view d = Block.zero)) s := by
  refine (fileMapBlock_alloc_spec hs hF hc i hmay).bind ?_
  rintro d t ⟨hfill, rfl, hd, hzero⟩
  have hF' := (hfill.kin.reach F).mpr hF
  have hused := hfill.sound.owned.holding.ref_used F (.slot i) hF' hd
  refine (readBlock_spec hfill.sound hused).andThen ?_ ?_
  · rintro _ u ⟨_, _, hcalm⟩
    exact hfill.trans (hfill.sound.quiet_of_calm hcalm).fillOf
  · rintro _ u ⟨hcalm, hcu⟩
    refine ⟨hfill.trans (hfill.sound.quiet_of_calm hcalm).fillOf, ?_, hd, hcu, ?_⟩
    · rw [hcalm.view]
    · rw [hcalm.view]
      exact hzero

end MosSmp.Fs
