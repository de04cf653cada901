import MosSmp.Fs.Tree

/-!
The steps that the operations of the server take on the tree: a block is taken
from the bitmap and kept aside, stored in an empty place, taken out of a place
and given back; a file changes its size, a directory grows, a structure gets a
name or loses it. Each step keeps `Owned`, with the kept blocks it has changed.
-/

namespace MosSmp.Fs

open Lib Relation FilePtr Nat

variable {v v' : View} {kept kept' : Nat → Prop} {d f g F : FilePtr} {b c i k w : Nat} {p : Place}

/-- Directories and the structures in them stay. A field `f_dir` changes only to
the address of a directory in a block with `ok`. -/
structure Moved (ok : Nat → Prop) (v v' : View) : Prop where
  disk : diskSize v' = diskSize v
  dirs : ∀ d, Reach v d → d.type v = FTYPE_DIR → Reach v' d ∧ d.type v' = FTYPE_DIR
  slots : ∀ f, Slotted v f → Slotted v' f
  parent : ∀ f, Slotted v f → f.parent v' = f.parent v ∨
    ∃ d, Reach v' d ∧ d.type v' = FTYPE_DIR ∧ ok d.blk ∧ f.parent v' = d.addr

/-- The files with their names, sizes and types are the same. -/
structure Kin (ok : Nat → Prop) (v v' : View) : Prop extends Moved ok v v' where
  reach : ∀ f, Reach v' f ↔ Reach v f
  head : ∀ f, Slotted v f → SameHead v v' f

variable {ok ok' : Nat → Prop}

theorem Moved.refl (v : View) : Moved ok v v where
  disk := rfl
  dirs := fun _ hd ht => ⟨hd, ht⟩
  slots := fun _ hf => hf
  parent := fun _ _ => .inl rfl

theorem Moved.trans {v'' : View} (h : Moved ok v v') (h' : Moved ok' v' v'')
    (hok : ∀ b, ok b → ok' b) : Moved ok' v v'' where
  disk := h'.disk.trans h.disk
  dirs := by
    intro d hd ht
    obtain ⟨hd, ht⟩ := h.dirs d hd ht
    exact h'.dirs d hd ht
  slots := fun f hf => h'.slots f (h.slots f hf)
  parent := by
    intro f hf
    rcases h'.parent f (h.slots f hf) with heq | hnew
    · rw [heq]
      refine (h.parent f hf).imp_right ?_
      rintro ⟨d, hd, ht, hd', hp⟩
      obtain ⟨hd, ht⟩ := h'.dirs d hd ht
      exact ⟨d, hd, ht, hok _ hd', hp⟩
    · exact .inr hnew

theorem Kin.refl (v : View) : Kin ok v v where
  toMoved := .refl v
  reach := fun _ => Iff.rfl
  head := fun _ _ _ _ => rfl

theorem Kin.size (h : Kin ok v v') (f : FilePtr) (hf : Slotted v f) : f.size v' = f.size v :=
  (h.head f hf).size

theorem Kin.type (h : Kin ok v v') (f : FilePtr) (hf : Slotted v f) : f.type v' = f.type v :=
  (h.head f hf).type

theorem Kin.trans {v'' : View} (h : Kin ok v v') (h' : Kin ok' v' v'')
    (hok : ∀ b, ok b → ok' b) : Kin ok' v v'' where
  toMoved := h.toMoved.trans h'.toMoved hok
  reach := fun f => (h'.reach f).trans (h.reach f)
  head := fun f hf => (h.head f hf).trans (h'.head f (h.slots f hf))

/-- The structures of the directories stay where they are. -/
theorem slotted_of_dirs {f : FilePtr} (hf : Slotted v f)
    (hreach : ∀ d, Reach v d → d.type v = FTYPE_DIR → Reach v' d ∧ d.type v' = FTYPE_DIR)
    (hslot : ∀ d f, Reach v d → d.type v = FTYPE_DIR → DirSlot v d f → DirSlot v' d f) :
    Slotted v' f := by
  rcases hf with rfl | ⟨d, hd, ht, hs⟩
  · exact .inl rfl
  · obtain ⟨hd', ht'⟩ := hreach d hd ht
    exact .inr ⟨d, hd', ht', hslot d f hd ht hs⟩

/-! ### The bitmap -/

theorem bitmapWord_inj (hw : bitmapWord c = bitmapWord b) (hk : c % 32 = b % 32) : c = b := by
  simp only [bitmapWord, BLOCK_SIZE, Loc.mk.injEq] at hw
  omega

/-- A store to the bitmap that leaves the other bits of the word alone. -/
theorem unused_setAt
    (hw : ∀ j, j < 32 → j ≠ b % 32 → w.testBit j = (getAt v (bitmapWord b)).testBit j) :
    Unused (setAt v (bitmapWord b) w) c ↔
      if c = b then w.testBit (b % 32) = true else Unused v c := by
  unfold Unused getAt
  rw [setAt_apply]
  by_cases hcb : c = b
  · subst hcb
    simp
  rw [if_neg hcb]
  by_cases hword : bitmapWord c = bitmapWord b
  · have hk : c % 32 ≠ b % 32 := fun h => hcb (bitmapWord_inj hword h)
    rw [if_pos ⟨congrArg Loc.blk hword, congrArg Loc.idx hword⟩, hword,
      hw _ (mod_lt _ (by decide)) hk]
    rfl
  · rw [if_neg]
    rintro ⟨_, _⟩
    apply hword
    cases h : bitmapWord c
    simp_all

theorem unused_setFree :
    Unused (setAt v (bitmapWord b) (getAt v (bitmapWord b) ||| 1 <<< (b % 32))) c ↔
      Unused v c ∨ c = b := by
  rw [unused_setAt]
  · by_cases hcb : c = b
    · simp [hcb, one_shiftLeft]
    · simp [hcb]
  · intro j _ hj
    simp [one_shiftLeft, Ne.symm hj]

theorem unused_setUsed : Unused (setAt v (bitmapWord b)
        (getAt v (bitmapWord b) &&& (0xffffffff ^^^ 1 <<< (b % 32)))) c ↔
      Unused v c ∧ c ≠ b := by
  have hmask : ∀ j, j < 32 → (0xffffffff : Nat).testBit j = true := by decide
  rw [unused_setAt]
  · by_cases hcb : c = b
    · simp [hcb, one_shiftLeft, hmask (b % 32) (mod_lt _ (by decide))]
    · simp [hcb]
  · intro j hlt hj
    simp [one_shiftLeft, Ne.symm hj, hmask j hlt]

/-! ### Changes that leave the tree alone -/

/-- A block in which the tree stores nothing. -/
structure Outside (v : View) (b : Nat) : Prop where
  super : b ≠ 1
  blk : ∀ g, Slotted v g → g.blk ≠ b
  indirect : ∀ g, Reach v g → g.indirect v ≠ 0 → g.indirect v ≠ b

namespace Owned

theorem outside_of_kept (ho : Owned v kept) (hb : kept b) (h1 : b ≠ 1) : Outside v b where
  super := h1
  blk := fun _ hg => ho.blk_ne_of_kept hg hb h1
  indirect := fun _ hg hi => ho.indirect_ne_kept hg hi hb

/-- The data blocks of regular files are outside of the tree. -/
theorem outside_of_data (ho : Owned v kept) (hf : Reach v f) (ht : f.type v ≠ FTYPE_DIR)
    (hne : f.ref v (.slot i) ≠ 0) : Outside v (f.ref v (.slot i)) where
  super := by
    intro h1
    have hk := ho.one_reserved
    rw [← h1] at hk
    exact ho.holding.apart f (.slot i) hf hne hk
  blk := by
    intro g hg hgb
    rcases ho.blk_cases hg with rfl | ⟨_, _, _, d, j, hd, htd, href, _⟩
    · have hk := ho.one_reserved
      rw [show (1 : Nat) = f.ref v (.slot i) from hgb] at hk
      exact ho.holding.apart f (.slot i) hf hne hk
    · have heq : f.ref v (.slot i) = d.ref v (.slot j) := by rw [href, hgb]
      have hfd := (ho.holding.once f (.slot i) d (.slot j) hf hd hne heq).1
      exact ht (hfd ▸ htd)
  indirect := by
    intro g hg _ hgb
    have heq : f.ref v (.slot i) = g.ref v .indirect := hgb.symm
    exact absurd (ho.holding.once f (.slot i) g .indirect hf hg hne heq).2 (by simp)

theorem bitmap_outside (ho : Owned v kept) (hb : b < diskSize v) : Outside v (bitmapWord b).blk :=
  ho.outside_of_kept (ho.reserved _ (bitmap_reserved v hb)) (bitmap_ne_one b)

/-- Views that agree on the tree have the same files. -/
theorem kin_of_sameTree (ho : Owned v kept) (h : SameTree v v')
    (hparent : ∀ f, Slotted v f → f.parent v' = f.parent v ∨
      ∃ d, Reach v d ∧ d.type v = FTYPE_DIR ∧ ok d.blk ∧ f.parent v' = d.addr) :
    Kin ok v v' := by
  have ha := h.alike ho
  have hreach : ∀ f, Reach v' f ↔ Reach v f := ha.reach (fun _ _ _ _ ⟨_, hex⟩ => hex.elim)
  have hdirs : ∀ d, Reach v d → d.type v = FTYPE_DIR → Reach v' d ∧ d.type v' = FTYPE_DIR :=
    fun d hd ht => ⟨(hreach d).mpr hd, (ha.type d hd.slotted).trans ht⟩
  refine ⟨⟨ha.disk, hdirs, ?_, ?_⟩, hreach, ha.head⟩
  · intro f hf
    exact slotted_of_dirs hf hdirs
      (fun d f hd _ hs => (ha.dirSlot hd.slotted (fun _ hex => hex)).mpr hs)
  · intro f hf
    refine (hparent f hf).imp_right ?_
    rintro ⟨d, hd, ht, hok, hp⟩
    exact ⟨d, (hdirs d hd ht).1, (hdirs d hd ht).2, hok, hp⟩

theorem of_sameTree (ho : Owned v kept) (h : SameTree v v')
    (hholding : Holding (Reach v) (fun f p => f.ref v p) 0 (Used v') kept')
    (hreserved : ∀ b, Reserved v b → kept' b) : Owned v' kept' := by
  have ha := h.alike ho
  have hreach : ∀ f, Reach v' f ↔ Reach v f := ha.reach (fun _ _ _ _ ⟨_, hex⟩ => hex.elim)
  apply ho.of_alike ha hreach
  · exact hholding.congr hreach (fun f p hf => ha.ref f p hf.slotted (fun hex => hex))
      (fun _ => Iff.rfl) (fun _ => Iff.rfl)
  · exact hreserved
  · exact fun _ _ _ hex => hex.elim
  · exact fun _ _ _ _ _ _ _ hex => hex
  · intro d f hd _ hs hold
    exact absurd ((ha.dirSlot hd.slotted (fun _ hex => hex)).mp hs) hold

end Owned

namespace Outside

theorem sameTree (hb : Outside v b) (hv : ∀ c, c ≠ b → v' c = v c) : SameTree v v' where
  disk := congrFun (hv 1 (Ne.symm hb.super)) 1
  words := fun g k hg _ => congrFun (hv g.blk (hb.blk g hg)) (g.off + k)
  entries := fun g k hg hi => congrFun (hv _ (hb.indirect g hg hi)) k

theorem kin (hb : Outside v b) (ho : Owned v kept) (hv : ∀ c, c ≠ b → v' c = v c) : Kin ok v v' :=
  ho.kin_of_sameTree (hb.sameTree hv)
    (fun f hf => .inl (congrFun (hv f.blk (hb.blk f hf)) (f.off + 45)))

end Outside

theorem setAt_other (v : View) (l : Loc) (w : Nat) : ∀ c, c ≠ l.blk → setAt v l w c = v c :=
  fun _ hc => Function.update_of_ne hc _ _

namespace Owned

section

variable (ho : Owned v kept) (h : SameTree v v')
include ho h

/-- A block is marked used; what its page then holds does not matter yet. -/
theorem take (hb : b < diskSize v) (hfree : Unused v b)
    (hv' : ∀ c, c < diskSize v → (Unused v' c ↔ Unused v c ∧ c ≠ b)) :
    Owned v' (fun c => kept c ∨ c = b) := by
  apply ho.of_sameTree h
  · apply ho.holding.take (b := b) (fun hu => hu.2 hfree)
    · intro c
      unfold Used
      rw [h.disk]
      constructor
      · rintro ⟨hlt, hn⟩
        rw [hv' c hlt] at hn
        by_cases hcb : c = b
        · exact .inr hcb
        · exact .inl ⟨hlt, fun hc => hn ⟨hc, hcb⟩⟩
      · rintro (⟨hlt, hn⟩ | rfl)
        · exact ⟨hlt, fun hc => hn ((hv' c hlt).mp hc).1⟩
        · exact ⟨hb, fun hc => ((hv' c hb).mp hc).2 rfl⟩
    · exact fun _ => Iff.rfl
  · exact fun c hc => .inl (ho.reserved c hc)

/-- A block kept aside is given back. -/
theorem drop (hb : kept b) (hr : ¬ Reserved v b)
    (hv' : ∀ c, c < diskSize v → (Unused v' c ↔ Unused v c ∨ c = b)) :
    Owned v' (fun c => kept c ∧ c ≠ b) := by
  apply ho.of_sameTree h
  · apply ho.holding.drop hb
    · intro c
      unfold Used
      rw [h.disk]
      constructor
      · rintro ⟨hlt, hn⟩
        rw [hv' c hlt] at hn
        exact ⟨⟨hlt, fun hc => hn (.inl hc)⟩, fun hcb => hn (.inr hcb)⟩
      · rintro ⟨⟨hlt, hn⟩, hcb⟩
        refine ⟨hlt, fun hc => ?_⟩
        rcases (hv' c hlt).mp hc with hc | hc
        · exact hn hc
        · exact hcb hc
    · exact fun _ => Iff.rfl
  · rintro c hc
    refine ⟨ho.reserved c hc, ?_⟩
    rintro rfl
    exact hr hc

/-- Nothing the bitmap or the tree stores changes. -/
theorem same (hv' : ∀ c, c < diskSize v → (Unused v' c ↔ Unused v c)) : Owned v' kept := by
  apply ho.of_sameTree h
  · apply ho.holding.congr (fun _ => Iff.rfl) (fun _ _ _ => rfl) _ (fun _ => Iff.rfl)
    intro c
    unfold Used
    rw [h.disk]
    exact and_congr_right (fun hlt => not_congr (hv' c hlt))
  · exact ho.reserved

end

end Owned

/-! ### Stores to places -/

/-- The word that `file_block_walk` finds for file block `i`. -/
def FilePtr.slotLoc (f : FilePtr) (v : View) (i : Nat) : Loc :=
  if i < NDIRECT then f.fDirect i else ⟨f.indirect v, i⟩

namespace Owned

section

variable (ho : Owned v kept) (hF : Slotted v F)
include ho hF

/-- A store to a word of a structure changes no word of another. -/
theorem setAt_word (hg : Slotted v g) {k' : Nat} (hk : k < 64) (hk' : k' < 64)
    (hne : ¬ (g = F ∧ k' = k)) :
    setAt v (F.word k) w g.blk (g.off + k') = v g.blk (g.off + k') := by
  apply setAt_of_ne
  rintro ⟨hblk, hidx⟩
  have hidx : g.off + k' = F.off + k := hidx
  by_cases hgF : g = F
  · subst hgF
    exact hne ⟨rfl, by omega⟩
  · rcases ho.apart hg hF hgF with hb | _
    · exact hb hblk
    · omega

theorem setAt_word_entry (hg : Reach v g) (hi : g.indirect v ≠ 0) (j : Nat) :
    setAt v (F.word k) w (g.indirect v) j = v (g.indirect v) j :=
  congrFun (setAt_other v (F.word k) w _ (ho.indirect_ne_blk hF hg hi).symm) j

theorem setAt_word_disk : diskSize (setAt v (F.word k) w) = diskSize v := by
  apply setAt_of_ne
  rintro ⟨hblk, hidx⟩
  rcases ho.blk_cases hF with rfl | ⟨_, hk, _⟩
  · have hidx : 1 = 2 + k := hidx
    omega
  · have hblk : 1 = F.blk := hblk
    exact hk (hblk ▸ ho.one_reserved)

end

/-- Neither structures nor indirect blocks lie in the bitmap. -/
theorem unused_congr (hb : ∀ c, c < diskSize v → v' (bitmapWord c).blk = v (bitmapWord c).blk) :
    ∀ c, c < diskSize v → (Unused v' c ↔ Unused v c) := by
  intro c hc
  unfold Unused getAt
  rw [hb c hc]

theorem bitmap_ne_blk (ho : Owned v kept) (hF : Slotted v F) (hc : c < diskSize v) :
    (bitmapWord c).blk ≠ F.blk :=
  (ho.bitmap_outside hc).blk F hF |>.symm

theorem root_ne_of_dirSlot (ho : Owned v kept) (hd : Reach v d) (hs : DirSlot v d f) :
    f ≠ .root := by
  rintro rfl
  obtain ⟨i, _, _, hne, _, heq⟩ := hs
  have hk := ho.one_reserved
  rw [show (1 : Nat) = d.ref v (.slot i) from congrArg blk heq] at hk
  exact ho.holding.apart d (.slot i) hd hne hk

end Owned

/-- The store of `w` to place `p` of the file `F`, as the tree sees it. -/
structure Stored (v v' : View) (F : FilePtr) (p : Place) (w : Nat) : Prop where
  alike : Alike v v' (fun g q => g = F ∧ q = p)
  set : F.ref v' p = w
  unused : ∀ c, c < diskSize v → (Unused v' c ↔ Unused v c)
  parent : ∀ g, Slotted v g → g.parent v' = g.parent v

namespace Owned

section

variable (ho : Owned v kept)
include ho

section

variable (hF : Reach v F)
include hF

/-- A store to a direct slot. -/
theorem stored_direct (hi : i < NDIRECT) (w : Nat) :
    Stored v (setAt v (F.fDirect i) w) F (.slot i) w := by
  have hi10 : i < 10 := hi
  have hword : ∀ g k, Slotted v g → k < 64 → ¬ (g = F ∧ k = 34 + i) →
      setAt v (F.fDirect i) w g.blk (g.off + k) = v g.blk (g.off + k) :=
    fun g k hg hk hne => ho.setAt_word hF.slotted hg (by omega) hk hne
  have hind : ∀ g, Slotted v g → g.indirect (setAt v (F.fDirect i) w) = g.indirect v :=
    fun g hg => hword g 44 hg (by omega) (by omega)
  refine ⟨⟨ho.setAt_word_disk hF.slotted, ?_, ?_⟩, ?_, ?_, ?_⟩
  · exact fun g hg k hk => hword g k hg (by omega) (by omega)
  · intro g p hg hne
    cases p with
    | indirect => exact hind g hg
    | slot j =>
      refine slot_congr (fun hj => ?_) (hind g hg) (fun hgi => ?_)
      · have hj10 : j < 10 := hj
        refine hword g (34 + j) hg (by omega) (fun hgj => hne ⟨hgj.1, ?_⟩)
        exact congrArg Place.slot (by omega)
      · exact ho.setAt_word_entry hF.slotted (ho.reach_of_indirect hg hgi) hgi j
  · change F.slot _ i = w
    unfold slot
    rw [if_pos hi]
    exact setAt_same v _ w
  · apply unused_congr
    exact fun c hc => setAt_other v _ w _ (ho.bitmap_ne_blk hF.slotted hc)
  · exact fun g hg => hword g 45 hg (by omega) (by omega)

/-- A store to an entry of the indirect block. -/
theorem stored_entry (hind : F.indirect v ≠ 0) (hlo : NDIRECT ≤ i) (hi : i < NINDIRECT) (w : Nat) :
    Stored v (setAt v ⟨F.indirect v, i⟩ w) F (.slot i) w := by
  have hother := setAt_other v ⟨F.indirect v, i⟩ w
  have hword : ∀ g k, Slotted v g →
      setAt v ⟨F.indirect v, i⟩ w g.blk (g.off + k) = v g.blk (g.off + k) :=
    fun g k hg => congrFun (hother _ (ho.indirect_ne_blk hg hF hind)) _
  refine ⟨⟨?_, ?_, ?_⟩, ?_, ?_, ?_⟩
  · exact congrFun (hother 1 (ho.indirect_ne_kept hF hind ho.one_reserved).symm) 1
  · exact fun g hg k _ => hword g k hg
  · intro g p hg hne
    cases p with
    | indirect => exact hword g 44 hg
    | slot j =>
      refine slot_congr (fun _ => hword g (34 + j) hg) (hword g 44 hg) (fun hgi => ?_)
      apply setAt_of_ne
      rintro ⟨hblk, hj⟩
      have hgF := ho.indirect_inj (ho.reach_of_indirect hg hgi) hF hgi hblk
      exact hne ⟨hgF, congrArg Place.slot hj⟩
  · have hind' : F.indirect (setAt v ⟨F.indirect v, i⟩ w) = F.indirect v :=
      hword F 44 hF.slotted
    change F.slot _ i = w
    unfold slot
    rw [if_neg (not_lt.mpr hlo), hind', if_pos ⟨hi, hind⟩]
    exact setAt_same v ⟨F.indirect v, i⟩ w
  · apply unused_congr
    exact fun c hc => hother _ ((ho.bitmap_outside hc).indirect F hF hind).symm
  · exact fun g hg => hword g 45 hg

theorem stored_slot (hi : i < NINDIRECT) (hind : NDIRECT ≤ i → F.indirect v ≠ 0) (w : Nat) :
    Stored v (setAt v (F.slotLoc v i) w) F (.slot i) w := by
  unfold slotLoc
  by_cases hlt : i < NDIRECT
  · rw [if_pos hlt]
    exact ho.stored_direct hF hlt w
  · rw [if_neg hlt]
    have hlo := not_lt.mp hlt
    exact ho.stored_entry hF (hind hlo) hlo hi w

/-- A store to `f_indirect` when neither the old nor the new indirect block has
entries of the file. -/
theorem stored_indirect (w : Nat) (hold : ∀ i, NDIRECT ≤ i → F.slot v i = 0)
    (hnew : w ≠ 0 → w ≠ F.blk ∧ ∀ i, v w i = 0) :
    Stored v (setAt v F.fIndirect w) F .indirect w := by
  have hword : ∀ g k, Slotted v g → k < 64 → ¬ (g = F ∧ k = 44) →
      setAt v F.fIndirect w g.blk (g.off + k) = v g.blk (g.off + k) :=
    fun g k hg hk hne => ho.setAt_word hF.slotted hg (by omega) hk hne
  have hset : F.indirect (setAt v F.fIndirect w) = w := setAt_same v F.fIndirect w
  refine ⟨⟨ho.setAt_word_disk hF.slotted, ?_, ?_⟩, hset, ?_, ?_⟩
  · exact fun g hg k hk => hword g k hg (by omega) (by omega)
  · intro g p hg hne
    have hdirect : ∀ j, j < NDIRECT → g.direct (setAt v F.fIndirect w) j = g.direct v j := by
      intro j hj
      have hj10 : j < 10 := hj
      exact hword g (34 + j) hg (by omega) (by omega)
    cases p with
    | indirect =>
      have hgF : g ≠ F := fun h => hne ⟨h, rfl⟩
      exact hword g 44 hg (by omega) (fun h => hgF h.1)
    | slot j =>
      by_cases hgF : g = F
      · subst hgF
        by_cases hj : j < NDIRECT
        · change g.slot _ j = g.slot v j
          unfold slot
          rw [if_pos hj, if_pos hj, hdirect j hj]
        · change g.slot _ j = g.slot v j
          rw [hold j (not_lt.mp hj)]
          unfold slot
          rw [if_neg hj, hset]
          by_cases hc : j < NINDIRECT ∧ w ≠ 0
          · rw [if_pos hc]
            obtain ⟨hwb, hzero⟩ := hnew hc.2
            rw [setAt_other v g.fIndirect w _ hwb]
            exact hzero j
          · rw [if_neg hc]
      · refine slot_congr (hdirect j) (hword g 44 hg (by omega) (fun h => hgF h.1))
          (fun hgi => ?_)
        exact ho.setAt_word_entry hF.slotted (ho.reach_of_indirect hg hgi) hgi j
  · apply unused_congr
    exact fun c hc => setAt_other v _ w _ (ho.bitmap_ne_blk hF.slotted hc)
  · exact fun g hg => hword g 45 hg (by omega) (by omega)

end

end

end Owned

/-- A structure in a block of zeros. -/
theorem blank_of_zero (h : ∀ k, v f.blk k = 0) : Blank v f := by
  have hind : f.indirect v = 0 := h _
  refine ⟨fun p => ?_, ?_, ?_⟩
  · cases p with
    | indirect => exact hind
    | slot i =>
      change f.slot v i = 0
      unfold slot
      by_cases hi : i < NDIRECT
      · rw [if_pos hi]
        exact h _
      · rw [if_neg hi, if_neg (fun hc => hc.2 hind)]
  · rw [show f.type v = 0 from h _]
    decide
  · rw [show f.size v = 0 from h _]
    exact zero_le _

theorem not_live_of_zero (h : ∀ k, v f.blk k = 0) : ¬ f.live v := by
  unfold live
  rw [h]
  decide

namespace Stored

variable (hs : Stored v v' F p w)
include hs

/-- The files stay the same when the structures in use of `F` do. -/
theorem kin (hchild : ∀ f, F.type v = FTYPE_DIR → (Child v' F f ↔ Child v F f))
    (hslots : ∀ f, F.type v = FTYPE_DIR → DirSlot v F f → DirSlot v' F f) : Kin ok v v' := by
  have hreach : ∀ f, Reach v' f ↔ Reach v f := by
    apply hs.alike.reach
    rintro d f hd ht ⟨_, rfl, _⟩
    exact hchild f ht
  have hdirs : ∀ d, Reach v d → d.type v = FTYPE_DIR → Reach v' d ∧ d.type v' = FTYPE_DIR :=
    fun d hd ht => ⟨(hreach d).mpr hd, (hs.alike.type d hd.slotted).trans ht⟩
  refine ⟨⟨hs.alike.disk, hdirs, ?_, fun f hf => .inl (hs.parent f hf)⟩, hreach, hs.alike.head⟩
  intro f hf
  refine slotted_of_dirs hf hdirs (fun d f hd ht hslot => ?_)
  by_cases hdF : d = F
  · subst hdF
    exact hslots f ht hslot
  · exact (hs.alike.dirSlot hd.slotted (fun _ hex => hdF hex.1)).mpr hslot

theorem used_iff (c : Nat) : Used v' c ↔ Used v c := by
  unfold Used
  rw [hs.alike.disk]
  exact and_congr_right (fun hlt => not_congr (hs.unused c hlt))

theorem ref_of_ne (hg : Reach v g) {q : Place} (hne : ¬ (g = F ∧ q = p)) : g.ref v' q = g.ref v q :=
  hs.alike.ref g q hg.slotted hne

end Stored

namespace Owned

section

variable (ho : Owned v kept)
include ho

/-- A structure that is reached is in use. -/
theorem not_reach_of_dead (hd : Reach v d) (hs : DirSlot v d f) (hl : ¬ f.live v) : ¬ Reach v f :=
  fun hf => hl (hf.live (ho.root_ne_of_dirSlot hd hs))

/-- What a store to a place of `F` asks for: the structures of `F` stay, and those that
come are in a block of zeros. -/
theorem of_stored (hF : Reach v F) (hs : Stored v v' F p w)
    (hslot : ∀ f, F.type v = FTYPE_DIR → DirSlot v' F f → DirSlot v F f ∨ ∀ k, v' f.blk k = 0)
    (hslots : ∀ f, F.type v = FTYPE_DIR → DirSlot v F f → DirSlot v' F f)
    (hholding : Holding (Reach v) (fun f p => f.ref v' p) 0 (Used v) kept')
    (hreserved : ∀ c, Reserved v c → kept' c)
    (hwithin : ∀ i, p = .slot i → F.extent v ≤ i → F.ref v' (.slot i) = 0) :
    Owned v' kept' ∧ Kin ok v v' := by
  have hchild : ∀ f, F.type v = FTYPE_DIR → (Child v' F f ↔ Child v F f) := by
    intro f ht
    constructor
    · rintro ⟨_, hds, hl⟩
      rcases hslot f ht hds with hold | hz
      · exact ⟨ht, hold, (hs.alike.live f (.inr ⟨F, hF, ht, hold⟩)).mp hl⟩
      · exact absurd hl (not_live_of_zero hz)
    · rintro ⟨_, hds, hl⟩
      exact ⟨(hs.alike.type F hF.slotted).trans ht, hslots f ht hds,
        (hs.alike.live f (.inr ⟨F, hF, ht, hds⟩)).mpr hl⟩
  have hkin : Kin ok v v' := hs.kin hchild hslots
  refine ⟨?_, hkin⟩
  apply ho.of_alike hs.alike hkin.reach
  · exact hholding.congr hkin.reach (fun _ _ _ => rfl) hs.used_iff (fun _ => Iff.rfl)
  · exact hreserved
  · rintro g i _ ⟨rfl, hp⟩ hi
    exact hwithin i hp.symm hi
  · rintro d g _ hd _ hds hl ⟨rfl, _⟩
    exact ho.not_reach_of_dead hd hds hl hF
  · intro d f hd ht hds hold
    have hdF : d = F := by
      by_contra hne
      exact hold ((hs.alike.dirSlot hd.slotted (fun _ hex => hne hex.1)).mp hds)
    subst hdF
    exact blank_of_zero ((hslot f ht hds).resolve_left hold)

/-- A block kept aside is stored in an empty place. A directory takes blocks of
zeros only. -/
theorem assign (hF : Reach v F) (hs : Stored v v' F p b) (hempty : F.ref v p = 0) (hb : kept b)
    (hr : ¬ Reserved v b) (hwithin : ∀ i, p = .slot i → i < F.extent v)
    (hzero : ∀ i, p = .slot i → F.type v = FTYPE_DIR → ∀ k, v' b k = 0) :
    Owned v' (fun c => kept c ∧ c ≠ b) ∧ Kin ok v v' := by
  have hb0 : b ≠ 0 := by
    rintro rfl
    exact hr (Nat.lt_of_lt_of_le Nat.two_pos (Nat.le_add_right _ _))
  apply ho.of_stored hF hs
  · -- the structures of `F` in the new block are not in use
    rintro f ht ⟨i, j, hi, hne, hj, rfl⟩
    rw [hs.alike.nblock hF.slotted] at hi
    by_cases hp : p = .slot i
    · refine .inr ?_
      subst hp
      have hset : F.slot v' i = b := hs.set
      rw [hset]
      exact hzero i rfl ht
    · have heq : F.slot v' i = F.slot v i := hs.ref_of_ne hF (fun h => hp h.2.symm)
      rw [heq] at hne ⊢
      exact .inl ⟨i, j, hi, hne, hj, rfl⟩
  · rintro f _ ⟨i, j, hi, hne, hj, rfl⟩
    have hp : p ≠ .slot i := by
      rintro rfl
      exact hne hempty
    have heq : F.slot v' i = F.slot v i := hs.ref_of_ne hF (fun h => hp h.2.symm)
    exact ⟨i, j, by rw [hs.alike.nblock hF.slotted]; exact hi, by rw [heq]; exact hne, hj,
      by rw [heq]⟩
  · exact ho.holding.assign hF hempty hb hb0 hs.set (fun g q hg hne => hs.ref_of_ne hg hne)
      (fun _ => Iff.rfl)
  · intro c hc
    refine ⟨ho.reserved c hc, ?_⟩
    rintro rfl
    exact hr hc
  · intro i hp hi
    exact absurd (hwithin i hp) (not_lt.mpr hi)

/-- The block of a place of a regular file, or an indirect block without
entries, is taken out and kept aside. -/
theorem release (hF : Reach v F) (hs : Stored v v' F p 0) (hfull : F.ref v p ≠ 0)
    (hreg : ∀ i, p = .slot i → F.type v ≠ FTYPE_DIR) :
    Owned v' (fun c => kept c ∨ c = F.ref v p) ∧ Kin ok v v' := by
  have hslots : ∀ f, F.type v = FTYPE_DIR → (DirSlot v' F f ↔ DirSlot v F f) := by
    intro f ht
    have hsame : ∀ i, F.slot v' i = F.slot v i := by
      intro i
      refine hs.ref_of_ne hF (q := .slot i) ?_
      rintro ⟨_, hp⟩
      exact hreg i hp.symm ht
    unfold DirSlot
    simp only [hsame, hs.alike.nblock hF.slotted]
  apply ho.of_stored hF hs
  · exact fun f ht hds => .inl ((hslots f ht).mp hds)
  · exact fun f ht => (hslots f ht).mpr
  · exact ho.holding.release hF hfull hs.set (fun g q hg hne => hs.ref_of_ne hg hne)
      (fun _ => Iff.rfl)
  · exact fun c hc => .inl (ho.reserved c hc)
  · rintro i rfl _
    exact hs.set

end

end Owned

/-! ### Names and sizes -/

/-- At most the name and the size of the structure `F` change. -/
structure Rewritten (v v' : View) (F : FilePtr) : Prop where
  disk : diskSize v' = diskSize v
  unused : ∀ c, c < diskSize v → (Unused v' c ↔ Unused v c)
  ref : ∀ g p, Slotted v g → g.ref v' p = g.ref v p
  type : ∀ g, Slotted v g → g.type v' = g.type v
  parent : ∀ g, Slotted v g → g.parent v' = g.parent v
  head : ∀ g, Slotted v g → g ≠ F → SameHead v v' g

theorem Owned.rewritten (ho : Owned v kept) (hF : Slotted v F)
    (hv : ∀ b k, ¬ (b = F.blk ∧ F.off ≤ k ∧ k ≤ F.off + 32) → v' b k = v b k) :
    Rewritten v v' F := by
  have hother : ∀ b, b ≠ F.blk → v' b = v b :=
    fun b hb => funext (fun k => hv b k (fun h => hb h.1))
  have hapart : ∀ g k, Slotted v g → g ≠ F → k < 64 →
      v' g.blk (g.off + k) = v g.blk (g.off + k) := by
    intro g k hg hne hk
    apply hv
    rintro ⟨hblk, hlo, _⟩
    rcases ho.apart hg hF hne with hb | _
    · exact hb hblk
    · omega
  have hword : ∀ g k, Slotted v g → 32 < k → k < 64 →
      v' g.blk (g.off + k) = v g.blk (g.off + k) := by
    intro g k hg hlo hk
    by_cases hne : g = F
    · subst hne
      exact hv _ _ (fun h => by omega)
    · exact hapart g k hg hne hk
  refine ⟨?_, ?_, ?_, ?_, ?_, ?_⟩
  · apply hv
    rintro ⟨hblk, hlo, _⟩
    rcases ho.blk_cases hF with rfl | ⟨_, hk, _⟩
    · exact absurd hlo (by decide)
    · exact hk (hblk ▸ ho.one_reserved)
  · exact Owned.unused_congr (fun c hc => hother _ (ho.bitmap_ne_blk hF hc))
  · intro g p hg
    have hind : g.indirect v' = g.indirect v := hword g 44 hg (by omega) (by omega)
    cases p with
    | indirect => exact hind
    | slot j =>
      refine slot_congr (fun hj => ?_) hind (fun hgi => ?_)
      · have hj10 : j < 10 := hj
        exact hword g (34 + j) hg (by omega) (by omega)
      · rw [hother _ (ho.indirect_ne_blk hF (ho.reach_of_indirect hg hgi) hgi).symm]
  · exact fun g hg => hword g 33 hg (by omega) (by omega)
  · exact fun g hg => hword g 45 hg (by omega) (by omega)
  · exact fun g hg hne k hk => hapart g k hg hne (by omega)

namespace Rewritten

variable (h : Rewritten v v' F)
include h

theorem size (g : FilePtr) (hg : Slotted v g) (hne : g ≠ F) : g.size v' = g.size v :=
  (h.head g hg hne).size

theorem live (g : FilePtr) (hg : Slotted v g) (hne : g ≠ F) : g.live v' ↔ g.live v :=
  (h.head g hg hne).live

theorem slot (hg : Slotted v g) (i : Nat) : g.slot v' i = g.slot v i := h.ref g (.slot i) hg

theorem used_iff (c : Nat) : Used v' c ↔ Used v c := by
  unfold Used
  rw [h.disk]
  exact and_congr_right (fun hlt => not_congr (h.unused c hlt))

theorem reserved_iff (c : Nat) : Reserved v' c ↔ Reserved v c := by
  unfold Reserved
  rw [h.disk]

theorem dirSlot (hd : Slotted v d) (hne : d ≠ F) : DirSlot v' d f ↔ DirSlot v d f := by
  unfold DirSlot nblock
  simp only [h.slot hd, h.size d hd hne]

/-- Without the structures of `F` itself, the children are the same but for
`F`. -/
theorem child (hd : Reach v d) (hdF : d ≠ F) (hfF : f ≠ F) : Child v' d f ↔ Child v d f := by
  unfold Child
  rw [h.type d hd.slotted, h.dirSlot hd.slotted hdF]
  constructor
  · rintro ⟨ht, hs, hl⟩
    exact ⟨ht, hs, (h.live f (.inr ⟨d, hd, ht, hs⟩) hfF).mp hl⟩
  · rintro ⟨ht, hs, hl⟩
    exact ⟨ht, hs, (h.live f (.inr ⟨d, hd, ht, hs⟩) hfF).mpr hl⟩

/-- A blank structure other than `F` stays blank. -/
theorem blank (hf : Slotted v f) (hne : f ≠ F) (hb : Blank v f) : Blank v' f where
  ref := fun p => (h.ref f p hf).trans (hb.ref p)
  type := by
    rw [h.type f hf]
    exact hb.type
  size := by
    rw [h.size f hf hne]
    exact hb.size

theorem moved (hreach : ∀ d, Reach v d → d.type v = FTYPE_DIR → Reach v' d)
    (hslots : ∀ f, F.type v = FTYPE_DIR → Reach v F → DirSlot v F f → DirSlot v' F f) :
    Moved ok v v' := by
  have hdirs : ∀ d, Reach v d → d.type v = FTYPE_DIR → Reach v' d ∧ d.type v' = FTYPE_DIR :=
    fun d hd ht => ⟨hreach d hd ht, (h.type d hd.slotted).trans ht⟩
  refine ⟨h.disk, hdirs, fun f hf => ?_, fun f hf => .inl (h.parent f hf)⟩
  refine slotted_of_dirs hf hdirs (fun d f hd ht hslot => ?_)
  by_cases hdF : d = F
  · subst hdF
    exact hslots f ht hd hslot
  · exact (h.dirSlot hd.slotted hdF).mpr hslot

/-- The parts of `Owned` that do not depend on the size or the name of `F`. -/
theorem owned (ho : Owned v kept)
    (hholding : Holding (Reach v') (fun f p => f.ref v' p) 0 (Used v') kept)
    (hold : ∀ f, Reach v' f → f ≠ F → Reach v f)
    (hF : Reach v' F → (∀ i, F.extent v' ≤ i → F.slot v' i = 0) ∧
      (F.type v' ≠ FTYPE_DIR → F.size v' ≤ MAXFILESIZE) ∧
      (F.type v' = FTYPE_DIR → BLOCK_SIZE ∣ F.size v'))
    (hunused : ∀ d f, Reach v' d → d.type v' = FTYPE_DIR → DirSlot v' d f → ¬ f.live v' →
      Blank v' f) : Owned v' kept where
  holding := hholding
  reserved := fun b hb => ho.reserved b ((h.reserved_iff b).mp hb)
  bound := by
    rw [h.disk]
    exact ho.bound
  root := by
    rw [h.type _ (reach_root v).slotted]
    exact ho.root
  within := by
    intro f i hf hi
    by_cases hfF : f = F
    · subst hfF
      exact (hF hf).1 i hi
    · have hold := hold f hf hfF
      unfold extent at hi
      rw [h.size f hold.slotted hfF] at hi
      rw [h.slot hold.slotted]
      exact ho.within f i hold hi
  regular := by
    intro f hf ht
    by_cases hfF : f = F
    · subst hfF
      exact (hF hf).2.1 ht
    · have hold := hold f hf hfF
      rw [h.type f hold.slotted] at ht
      rw [h.size f hold.slotted hfF]
      exact ho.regular f hold ht
  whole := by
    intro f hf ht
    by_cases hfF : f = F
    · subst hfF
      exact (hF hf).2.2 ht
    · have hold := hold f hf hfF
      rw [h.type f hold.slotted] at ht
      rw [h.size f hold.slotted hfF]
      exact ho.whole f hold ht
  unused := hunused

end Rewritten

namespace Owned

/-- The files are the same when `F` keeps its name and its structures. -/
theorem reach_of_rewritten (hF : Reach v F) (h : Rewritten v v' F) (hlive : F.live v' ↔ F.live v)
    (hslots : ∀ f, F.type v = FTYPE_DIR → (DirSlot v' F f ↔ DirSlot v F f)) (f : FilePtr) :
    Reach v' f ↔ Reach v f := by
  have hlive' : ∀ g, Slotted v g → (g.live v' ↔ g.live v) := by
    intro g hg
    by_cases hgF : g = F
    · exact hgF ▸ hlive
    · exact h.live g hg hgF
  apply reflTransGen_congr
  intro d hd f
  unfold Child
  rw [h.type d (Reach.slotted hd)]
  refine and_congr_right (fun ht => ?_)
  have hds : DirSlot v' d f ↔ DirSlot v d f := by
    by_cases hdF : d = F
    · subst hdF
      exact hslots f ht
    · exact h.dirSlot (Reach.slotted hd) hdF
  rw [hds]
  exact and_congr_right (fun hs => hlive' f (.inr ⟨d, hd, ht, hs⟩))

section

variable (ho : Owned v kept)
include ho

section

variable (hF : Reach v F) (h : Rewritten v v' F) (hlive : F.live v' ↔ F.live v)
include hF h hlive

/-- The size of `F` changes to one that covers the blocks it has. -/
theorem resized (hslots : ∀ f, F.type v = FTYPE_DIR → (DirSlot v' F f ↔ DirSlot v F f))
    (hwithin : ∀ i, F.extent v' ≤ i → F.slot v i = 0)
    (hregular : F.type v ≠ FTYPE_DIR → F.size v' ≤ MAXFILESIZE)
    (hwhole : F.type v = FTYPE_DIR → BLOCK_SIZE ∣ F.size v') :
    Owned v' kept ∧ Moved ok v v' ∧ ∀ f, Reach v' f ↔ Reach v f := by
  have hreach := reach_of_rewritten hF h hlive hslots
  refine ⟨?_, h.moved (fun d hd _ => (hreach d).mpr hd) (fun f ht _ => (hslots f ht).mpr), hreach⟩
  apply h.owned ho
  · exact ho.holding.congr hreach (fun f p hf => h.ref f p hf.slotted) h.used_iff
      (fun _ => Iff.rfl)
  · exact fun f hf _ => (hreach f).mp hf
  · intro _
    rw [h.type F hF.slotted]
    refine ⟨fun i hi => ?_, hregular, hwhole⟩
    rw [h.slot hF.slotted]
    exact hwithin i hi
  · intro d f hd ht hs hl
    have hd := (hreach d).mp hd
    rw [h.type d hd.slotted] at ht
    have hs' : DirSlot v d f := by
      by_cases hdF : d = F
      · subst hdF
        exact (hslots f ht).mp hs
      · exact (h.dirSlot hd.slotted hdF).mp hs
    have hfF : f ≠ F := by
      rintro rfl
      exact hl (hlive.mpr (hF.live (ho.root_ne_of_dirSlot hd hs')))
    have hsl : Slotted v f := .inr ⟨d, hd, ht, hs'⟩
    exact h.blank hsl hfF (ho.unused d f hd ht hs' (fun hlv => hl ((h.live f hsl hfF).mpr hlv)))

/-- A regular file gets a size that covers its blocks. -/
theorem setSize (ht : F.type v ≠ FTYPE_DIR) (hwithin : ∀ i, F.extent v' ≤ i → F.slot v i = 0)
    (hmax : F.size v' ≤ MAXFILESIZE) :
    Owned v' kept ∧ Moved ok v v' ∧ ∀ f, Reach v' f ↔ Reach v f :=
  ho.resized hF h hlive (fun _ hdir => absurd hdir ht) hwithin (fun _ => hmax)
    (fun hdir => absurd hdir ht)

/-- A directory grows by one block that it does not have yet. -/
theorem growDir (ht : F.type v = FTYPE_DIR) (hsize : F.size v' = F.size v + BLOCK_SIZE) :
    Owned v' kept ∧ Moved ok v v' ∧ ∀ f, Reach v' f ↔ Reach v f := by
  have hdvd := ho.whole F hF ht
  have hext : F.extent v = F.nblock v := by
    obtain ⟨_, hm⟩ := hdvd
    simp only [extent, nblock, hm, BLOCK_SIZE]
    omega
  have hnblock : F.nblock v' = F.nblock v + 1 := by
    simp only [nblock, hsize, BLOCK_SIZE]
    omega
  have hext' : F.extent v ≤ F.extent v' := by
    simp only [extent, hsize, BLOCK_SIZE]
    omega
  apply ho.resized hF h hlive
  · intro f _
    unfold DirSlot
    simp only [h.slot hF.slotted, hnblock]
    constructor
    · rintro ⟨i, j, hi, hne, hj, rfl⟩
      refine ⟨i, j, ?_, hne, hj, rfl⟩
      by_contra hlt
      exact hne (ho.within F i hF (by omega))
    · rintro ⟨i, j, hi, hne, hj, rfl⟩
      exact ⟨i, j, by omega, hne, hj, rfl⟩
  · exact fun i hi => ho.within F i hF (by omega)
  · exact fun hne => absurd ht hne
  · intro _
    rw [hsize]
    exact Nat.dvd_add hdvd (Nat.dvd_refl _)

end

/-- A blank structure of a directory gets a name. -/
theorem enter (hd : Reach v d) (ht : d.type v = FTYPE_DIR) (hs : DirSlot v d F) (hdead : ¬ F.live v)
    (h : Rewritten v v' F) (hlive : F.live v') (hsize : F.size v' = F.size v) :
    Owned v' kept ∧ Moved ok v v' ∧ ∀ f, Reach v' f ↔ Reach v f ∨ f = F := by
  have hblank := ho.unused d F hd ht hs hdead
  have hnew := ho.not_reach_of_dead hd hs hdead
  have hsl : Slotted v F := .inr ⟨d, hd, ht, hs⟩
  have hsub : ∀ g, Reach v g → Reach v' g := by
    intro g hg
    induction hg with
    | refl => exact reach_root v'
    | tail ha hc ih =>
      refine ih.child ((h.child ha ?_ ?_).mpr hc)
      · rintro rfl
        exact hnew ha
      · rintro rfl
        exact hdead hc.2.2
  have hdF : ∀ g, Reach v g → g ≠ F := by
    rintro g hg rfl
    exact hnew hg
  have hreach : ∀ f, Reach v' f ↔ Reach v f ∨ f = F := by
    intro f
    constructor
    · intro hf
      induction hf with
      | refl => exact .inl (reach_root v)
      | @tail a c _ hc ih =>
        by_cases hcF : c = F
        · exact .inr hcF
        rcases ih with ha | rfl
        · exact .inl (Reach.child ha ((h.child ha (hdF a ha) hcF).mp hc))
        · have htype := hc.1
          rw [h.type _ hsl] at htype
          exact absurd htype hblank.type
    · rintro (hf | rfl)
      · exact hsub f hf
      · refine (hsub d hd).child ⟨(h.type d hd.slotted).trans ht, ?_, hlive⟩
        exact (h.dirSlot hd.slotted (hdF d hd)).mpr hs
  refine ⟨?_, h.moved (fun g hg _ => hsub g hg) (fun _ _ hF _ => absurd hF hnew), hreach⟩
  apply h.owned ho
  · have hhold : Holding (Reach v') (fun f p => f.ref v' p) 0 (Used v) kept :=
      ho.holding.join (fun p => (h.ref F p hsl).trans (hblank.ref p)) hreach
        (fun g p hg _ => h.ref g p hg.slotted) hnew
    exact hhold.congr (fun _ => Iff.rfl) (fun _ _ _ => rfl) h.used_iff (fun _ => Iff.rfl)
  · exact fun f hf hne => ((hreach f).mp hf).resolve_right hne
  · intro _
    rw [h.type F hsl, hsize]
    refine ⟨fun i _ => ?_, fun _ => hblank.size, fun hdir => absurd hdir hblank.type⟩
    rw [h.slot hsl]
    exact hblank.ref (.slot i)
  · intro e f he hte hse hl
    have hfF : f ≠ F := by
      rintro rfl
      exact hl hlive
    rcases (hreach e).mp he with he | rfl
    · rw [h.type e he.slotted] at hte
      have hse := (h.dirSlot he.slotted (hdF e he)).mp hse
      have hslf : Slotted v f := .inr ⟨e, he, hte, hse⟩
      exact h.blank hslf hfF
        (ho.unused e f he hte hse (fun hlv => hl ((h.live f hslf hfF).mpr hlv)))
    · rw [h.type e hsl] at hte
      exact absurd hte hblank.type

/-- A regular file without blocks loses its name. -/
theorem leave (hF : Reach v F) (hroot : F ≠ .root) (ht : F.type v ≠ FTYPE_DIR)
    (hempty : ∀ p, F.ref v p = 0) (h : Rewritten v v' F) (hdead : ¬ F.live v')
    (hsize : F.size v' = F.size v) :
    Owned v' kept ∧ Moved ok v v' ∧ ∀ f, Reach v' f ↔ Reach v f ∧ f ≠ F := by
  have hreach : ∀ f, Reach v' f ↔ Reach v f ∧ f ≠ F := by
    intro f
    constructor
    · intro hf
      induction hf with
      | refl => exact ⟨reach_root v, hroot.symm⟩
      | @tail a c _ hc ih =>
        have hcF : c ≠ F := by
          rintro rfl
          exact hdead hc.2.2
        exact ⟨Reach.child ih.1 ((h.child ih.1 ih.2 hcF).mp hc), hcF⟩
    · rintro ⟨hf, hne⟩
      induction hf with
      | refl => exact reach_root v'
      | @tail a c ha hc ih =>
        have haF : a ≠ F := by
          rintro rfl
          exact ht hc.1
        exact (ih haF).child ((h.child ha haF hne).mpr hc)
  have hdirs : ∀ d, Reach v d → d.type v = FTYPE_DIR → Reach v' d := by
    intro d hd htd
    refine (hreach d).mpr ⟨hd, ?_⟩
    rintro rfl
    exact ht htd
  refine ⟨?_, h.moved hdirs (fun _ htd => absurd htd ht), hreach⟩
  apply h.owned ho
  · have hhold : Holding (Reach v') (fun f p => f.ref v' p) 0 (Used v) kept :=
      ho.holding.leave hempty hreach (fun g p hg _ => h.ref g p hg.slotted)
    exact hhold.congr (fun _ => Iff.rfl) (fun _ _ _ => rfl) h.used_iff (fun _ => Iff.rfl)
  · exact fun f hf _ => ((hreach f).mp hf).1
  · exact fun hF' => absurd rfl ((hreach F).mp hF').2
  · intro d f hd htd hs hl
    obtain ⟨hd, hdF⟩ := (hreach d).mp hd
    rw [h.type d hd.slotted] at htd
    have hs := (h.dirSlot hd.slotted hdF).mp hs
    have hsl : Slotted v f := .inr ⟨d, hd, htd, hs⟩
    by_cases hfF : f = F
    · subst hfF
      refine ⟨fun p => (h.ref f p hsl).trans (hempty p), ?_, ?_⟩
      · rw [h.type f hsl]
        exact ht
      · rw [hsize]
        exact ho.regular f hF ht
    · exact h.blank hsl hfF (ho.unused d f hd htd hs (fun hlv => hl ((h.live f hsl hfF).mpr hlv)))

end

end Owned

end MosSmp.Fs
