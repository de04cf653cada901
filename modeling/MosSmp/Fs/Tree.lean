import Mathlib.Data.Nat.Bitwise
import MosSmp.Fs.File
import MosSmp.Lib.Holding

/-!
The directory tree on a disk, as a property of the contents of its blocks. The
files are the structures reached from the root through the blocks of
directories; each has the places in which it stores block numbers, the slots
that `file_block_walk` finds and the field `f_indirect`. `BlocksOwned` says
what the bitmap and these places have to do with each other; `Owned` is the
invariant that the operations of the server keep, with some blocks kept aside
while an operation is on its way.
-/

namespace MosSmp.Fs

open Lib Relation

abbrev View := Nat → Block

def getAt (v : View) (l : Loc) : Nat :=
  v l.blk l.idx

def setAt (v : View) (l : Loc) (w : Nat) : View :=
  Function.update v l.blk (Function.update (v l.blk) l.idx w)

theorem setAt_apply (v : View) (l : Loc) (w b k : Nat) :
    setAt v l w b k = if b = l.blk ∧ k = l.idx then w else v b k := by
  unfold setAt
  by_cases hb : b = l.blk
  · subst hb
    by_cases hk : k = l.idx
    · simp [hk]
    · simp [hk]
  · simp [hb]

theorem setAt_same (v : View) (l : Loc) (w : Nat) : setAt v l w l.blk l.idx = w := by
  simp [setAt_apply]

theorem setAt_of_ne (v : View) {l : Loc} (w : Nat) {b k : Nat} (h : ¬ (b = l.blk ∧ k = l.idx)) :
    setAt v l w b k = v b k := by
  simp [setAt_apply, h]

/-- A place of a file for a block number: the slot of a file block, direct or
in the indirect block, and the field `f_indirect`. -/
inductive Place
  | slot (i : Nat)
  | indirect
  deriving DecidableEq

namespace FilePtr

variable (f : FilePtr) (v : View)

def size : Nat := getAt v f.fSize
def type : Nat := getAt v f.fType
def direct (i : Nat) : Nat := getAt v (f.fDirect i)
def indirect : Nat := getAt v f.fIndirect
def parent : Nat := getAt v f.fDir

/-- `f_name[0] != '\0'`. -/
def live : Prop :=
  v f.blk f.off % 256 ≠ 0

instance decidableLive : Decidable (f.live v) :=
  inferInstanceAs (Decidable (_ ≠ 0))

/-- The number of blocks that `dir_lookup` and `dir_alloc_file` look at. -/
def nblock : Nat :=
  f.size v / BLOCK_SIZE

/-- The number of blocks that the size reaches into. -/
def extent : Nat :=
  (f.size v + (BLOCK_SIZE - 1)) / BLOCK_SIZE

/-- The block number of file block `i`, 0 if there is none. -/
def slot (i : Nat) : Nat :=
  if i < NDIRECT then f.direct v i
  else if i < NINDIRECT ∧ f.indirect v ≠ 0 then v (f.indirect v) i
  else 0

def ref : Place → Nat
  | .slot i => f.slot v i
  | .indirect => f.indirect v

end FilePtr

section Tree

variable (v : View)

/-- `f` is one of the structures in the blocks of the directory `d`. -/
def DirSlot (d f : FilePtr) : Prop :=
  ∃ i j, i < d.nblock v ∧ d.slot v i ≠ 0 ∧ j < FILE2BLK ∧ f = .inBlock (d.slot v i) j

def Child (d f : FilePtr) : Prop :=
  d.type v = FTYPE_DIR ∧ DirSlot v d f ∧ f.live v

/-- The file is reached from `super->s_root`. -/
def Reach (f : FilePtr) : Prop :=
  ReflTransGen (Child v) .root f

/-- The root or a structure in a block of a directory, in use or not. -/
def Slotted (f : FilePtr) : Prop :=
  f = .root ∨ ∃ d, Reach v d ∧ d.type v = FTYPE_DIR ∧ DirSlot v d f

/-- The bit of the block in the bitmap is set. -/
def Unused (b : Nat) : Prop :=
  (getAt v (bitmapWord b)).testBit (b % 32) = true

/-- `s_nblocks`. -/
def diskSize : Nat := v 1 1

/-- A block of the disk that is marked used in the bitmap. -/
def Used (b : Nat) : Prop :=
  b < diskSize v ∧ ¬ Unused v b

/-- The boot block, the super block and the blocks of the bitmap. -/
def Reserved (b : Nat) : Prop :=
  b < 2 + (diskSize v + (BLOCK_SIZE_BIT - 1)) / BLOCK_SIZE_BIT

/-- Every block number stored in a place of a file is in range and marked used
and is stored in no other place; every block marked used is reserved or stored
in a place of a file. -/
structure BlocksOwned : Prop where
  used : ∀ f p, Reach v f → f.ref v p ≠ 0 → Used v (f.ref v p)
  once : ∀ f p g q, Reach v f → Reach v g → f.ref v p ≠ 0 → f.ref v p = g.ref v q →
    f = g ∧ p = q
  covered : ∀ b, Used v b → Reserved v b ∨ ∃ f p, Reach v f ∧ f.ref v p ≠ 0 ∧ f.ref v p = b

/-- A structure that names no blocks and is not a directory. -/
structure Blank (f : FilePtr) : Prop where
  ref : ∀ p, f.ref v p = 0
  type : f.type v ≠ FTYPE_DIR
  size : f.size v ≤ MAXFILESIZE

/-- The blocks in use are those kept aside, which include the reserved ones, and
those the files hold. No file holds blocks past its size, the size of a
directory is a number of blocks, and the unused structures of directories are
blank. -/
structure Owned (kept : Nat → Prop) : Prop where
  holding : Holding (Reach v) (fun f p => f.ref v p) 0 (Used v) kept
  reserved : ∀ b, Reserved v b → kept b
  bound : diskSize v ≤ DISKMAX / BLOCK_SIZE
  root : FilePtr.root.type v = FTYPE_DIR
  within : ∀ f i, Reach v f → f.extent v ≤ i → f.slot v i = 0
  regular : ∀ f, Reach v f → f.type v ≠ FTYPE_DIR → f.size v ≤ MAXFILESIZE
  whole : ∀ f, Reach v f → f.type v = FTYPE_DIR → BLOCK_SIZE ∣ f.size v
  unused : ∀ d f, Reach v d → d.type v = FTYPE_DIR → DirSlot v d f → ¬ f.live v → Blank v f

end Tree

variable {v v' : View} {kept kept' : Nat → Prop} {d f g F : FilePtr} {b i k : Nat} {p : Place}

theorem Owned.blocksOwned (h : Owned v (Reserved v)) : BlocksOwned v where
  used := h.holding.ref_used
  once := h.holding.once
  covered := h.holding.covered

/-! ### Where the structures lie -/

theorem reach_root (v : View) : Reach v .root := .refl

theorem Reach.child (hd : Reach v d) (hf : Child v d f) : Reach v f := hd.tail hf

theorem Reach.root_or (hf : Reach v f) : f = .root ∨ ∃ d, Reach v d ∧ Child v d f := by
  rcases ReflTransGen.cases_tail hf with heq | ⟨d, hd, hc⟩
  · exact .inl heq
  · exact .inr ⟨d, hd, hc⟩

theorem Reach.slotted (hf : Reach v f) : Slotted v f :=
  hf.root_or.imp_right (fun ⟨d, hd, ht, hs, _⟩ => ⟨d, hd, ht, hs⟩)

theorem Reach.live (hf : Reach v f) (hne : f ≠ .root) : f.live v := by
  rcases hf.root_or with heq | ⟨_, _, _, _, hl⟩
  · exact absurd heq hne
  · exact hl

theorem Slotted.off_le (hf : Slotted v f) : f.off + 64 ≤ BLOCK_SIZE / 4 := by
  rcases hf with rfl | ⟨_, _, _, _, j, _, _, hj, rfl⟩
  · decide
  · change 64 * j + 64 ≤ 1024
    have : j < 16 := hj
    omega

namespace Owned

section

variable (ho : Owned v kept)
include ho

/-- A block of structures is the super block or a block of a directory. -/
theorem blk_cases (hf : Slotted v f) : f = .root ∨ f.blk ≠ 0 ∧ ¬ kept f.blk ∧ Used v f.blk ∧
      ∃ d i, Reach v d ∧ d.type v = FTYPE_DIR ∧ d.ref v (.slot i) = f.blk ∧
        ∃ j, j < FILE2BLK ∧ f.off = 64 * j := by
  rcases hf with rfl | ⟨d, hd, ht, i, j, _, hne, hj, rfl⟩
  · exact .inl rfl
  · exact .inr ⟨hne, ho.holding.apart d (.slot i) hd hne, ho.holding.ref_used d (.slot i) hd hne,
      d, i, hd, ht, rfl, j, hj, rfl⟩

theorem one_reserved : kept 1 :=
  ho.reserved 1 (Nat.lt_of_lt_of_le Nat.one_lt_two (Nat.le_add_right _ _))

theorem used_lt (hb : Used v b) : b < DISKMAX / BLOCK_SIZE := Nat.lt_of_lt_of_le hb.1 ho.bound

section

variable (hf : Slotted v f)
include hf

theorem blk_lt : f.blk < DISKMAX / BLOCK_SIZE := by
  rcases ho.blk_cases hf with rfl | ⟨_, _, hu, _⟩
  · decide
  · exact ho.used_lt hu

/-- A block that is kept aside holds structures only if it is the super block. -/
theorem blk_ne_of_kept (hb : kept b) (h1 : b ≠ 1) : f.blk ≠ b := by
  rcases ho.blk_cases hf with rfl | ⟨_, hk, _⟩
  · exact fun h => h1 h.symm
  · rintro rfl
    exact hk hb

/-- Two structures do not overlap. -/
theorem apart (hg : Slotted v g) (hne : f ≠ g) :
    f.blk ≠ g.blk ∨ f.off + 64 ≤ g.off ∨ g.off + 64 ≤ f.off := by
  rcases ho.blk_cases hf with rfl | ⟨_, hkf, _, _, _, _, _, _, j, _, _⟩
  · rcases ho.blk_cases hg with rfl | ⟨_, hkg, _⟩
    · exact absurd rfl hne
    · exact .inl (fun h => hkg (h ▸ ho.one_reserved))
  rcases ho.blk_cases hg with rfl | ⟨_, _, _, _, _, _, _, _, j', _, _⟩
  · exact .inl (fun h => hkf (h ▸ ho.one_reserved))
  by_cases hblk : f.blk = g.blk
  · have hj : j ≠ j' := by
      rintro rfl
      apply hne
      obtain ⟨_, _⟩ := f
      obtain ⟨_, _⟩ := g
      simp_all
    omega
  · exact .inl hblk

/-- An indirect block holds no structures. -/
theorem indirect_ne_blk (hg : Reach v g) (hi : g.indirect v ≠ 0) : f.blk ≠ g.indirect v := by
  intro heq
  rcases ho.blk_cases hf with rfl | ⟨hne, _, _, d, i, hd, _, href, _⟩
  · have hk := ho.one_reserved
    rw [show (1 : Nat) = g.indirect v from heq] at hk
    exact ho.holding.apart g .indirect hg hi hk
  · have := ho.holding.once d (.slot i) g .indirect hd hg (href ▸ hne) (href.trans heq)
    exact absurd this.2 (by simp)

end

theorem indirect_inj (hf : Reach v f) (hg : Reach v g) (hi : f.indirect v ≠ 0)
    (heq : f.indirect v = g.indirect v) : f = g :=
  (ho.holding.once f .indirect g .indirect hf hg hi heq).1

/-- A kept block is not an indirect block. -/
theorem indirect_ne_kept (hg : Reach v g) (hi : g.indirect v ≠ 0) (hb : kept b) :
    g.indirect v ≠ b := by
  rintro rfl
  exact ho.holding.apart g .indirect hg hi hb

end

theorem bitmap_reserved (v : View) (hb : b < diskSize v) : Reserved v (bitmapWord b).blk := by
  simp only [Reserved, bitmapWord, BLOCK_SIZE_BIT, BLOCK_SIZE]
  omega

theorem bitmap_ne_one (b : Nat) : (bitmapWord b).blk ≠ 1 :=
  Nat.ne_of_gt (Nat.lt_of_lt_of_le Nat.one_lt_two (Nat.le_add_right _ _))

end Owned

/-! ### Views that agree on the tree -/

/-- The name, the size and the type of the structure are the same. -/
def SameHead (v v' : View) (g : FilePtr) : Prop :=
  ∀ k, k < 34 → v' g.blk (g.off + k) = v g.blk (g.off + k)

namespace SameHead

section

variable (h : SameHead v v' g)
include h

theorem trans {v'' : View} (h' : SameHead v' v'' g) : SameHead v v'' g :=
  fun k hk => (h' k hk).trans (h k hk)

theorem size : g.size v' = g.size v := h 32 (by omega)

theorem type : g.type v' = g.type v := h 33 (by omega)

theorem live : g.live v' ↔ g.live v := by
  have h0 := h 0 (by omega)
  rw [Nat.add_zero] at h0
  unfold FilePtr.live
  rw [h0]

end

end SameHead

/-- The places of the files agree but for those in `except`, and so do the
other fields the tree depends on. -/
structure Alike (v v' : View) (except : FilePtr → Place → Prop) : Prop where
  disk : diskSize v' = diskSize v
  head : ∀ g, Slotted v g → SameHead v v' g
  ref : ∀ g p, Slotted v g → ¬ except g p → g.ref v' p = g.ref v p

/-- The words of the structures and of the indirect blocks that the tree
depends on are the same; `f_dir` is not one of them. -/
structure SameTree (v v' : View) : Prop where
  disk : diskSize v' = diskSize v
  words : ∀ g k, Slotted v g → k < 45 → v' g.blk (g.off + k) = v g.blk (g.off + k)
  entries : ∀ g k, Reach v g → g.indirect v ≠ 0 → v' (g.indirect v) k = v (g.indirect v) k

section SameWords

variable (h : ∀ k, k < 45 → v' g.blk (g.off + k) = v g.blk (g.off + k))
include h

theorem direct_of_words (hi : i < NDIRECT) : g.direct v' i = g.direct v i :=
  h (34 + i) (Nat.add_lt_add_left (m := 11) (Nat.lt_succ_of_lt hi) 34)

theorem indirect_of_words : g.indirect v' = g.indirect v := h 44 (by omega)

omit h in
theorem slot_congr (hdirect : i < NDIRECT → g.direct v' i = g.direct v i)
    (hind : g.indirect v' = g.indirect v)
    (hentry : g.indirect v ≠ 0 → v' (g.indirect v) i = v (g.indirect v) i) :
    g.slot v' i = g.slot v i := by
  unfold FilePtr.slot
  by_cases hi : i < NDIRECT
  · rw [if_pos hi, if_pos hi, hdirect hi]
  · rw [if_neg hi, if_neg hi, hind]
    by_cases hc : i < NINDIRECT ∧ g.indirect v ≠ 0
    · rw [if_pos hc, if_pos hc, hentry hc.2]
    · rw [if_neg hc, if_neg hc]

section

variable (hentries : g.indirect v ≠ 0 → ∀ k, v' (g.indirect v) k = v (g.indirect v) k)
include hentries

theorem slot_of_words (i : Nat) : g.slot v' i = g.slot v i :=
  slot_congr (direct_of_words h) (indirect_of_words h) (fun hi => hentries hi i)

theorem ref_of_words (p : Place) : g.ref v' p = g.ref v p := by
  cases p with
  | slot i => exact slot_of_words h hentries i
  | indirect => exact indirect_of_words h

end

end SameWords

/-- The entries of the indirect block of a structure in a directory: there is
one only if the structure is a file. -/
theorem Owned.reach_of_indirect (ho : Owned v kept) (hg : Slotted v g) (hi : g.indirect v ≠ 0) :
    Reach v g := by
  rcases hg with rfl | ⟨d, hd, ht, hs⟩
  · exact reach_root v
  · by_cases hl : g.live v
    · exact hd.child ⟨ht, hs, hl⟩
    · exact absurd ((ho.unused d g hd ht hs hl).ref .indirect) hi

theorem SameTree.alike (ho : Owned v kept) (h : SameTree v v') : Alike v v' (fun _ _ => False) where
  disk := h.disk
  head := fun g hg k hk => h.words g k hg (by omega)
  ref := fun g p hg _ => ref_of_words (fun k => h.words g k hg)
    (fun hi k => h.entries g k (ho.reach_of_indirect hg hi) hi) p

namespace Alike

variable {except : FilePtr → Place → Prop}

section

variable (h : Alike v v' except)
include h

theorem size (g : FilePtr) (hg : Slotted v g) : g.size v' = g.size v := (h.head g hg).size

theorem type (g : FilePtr) (hg : Slotted v g) : g.type v' = g.type v := (h.head g hg).type

theorem live (g : FilePtr) (hg : Slotted v g) : g.live v' ↔ g.live v := (h.head g hg).live

theorem nblock (hg : Slotted v g) : g.nblock v' = g.nblock v := by
  unfold FilePtr.nblock
  rw [h.size g hg]

theorem extent (hg : Slotted v g) : g.extent v' = g.extent v := by
  unfold FilePtr.extent
  rw [h.size g hg]

/-- Where no slot of a directory is excepted the directories have the same
structures. -/
theorem dirSlot (hd : Slotted v d) (hex : ∀ i, ¬ except d (.slot i)) :
    DirSlot v' d f ↔ DirSlot v d f := by
  have hslot : ∀ i, d.slot v' i = d.slot v i := fun i => h.ref d (.slot i) hd (hex i)
  unfold DirSlot
  simp only [hslot, h.nblock hd]

theorem child (hd : Reach v d) (hex : ∀ i, ¬ except d (.slot i)) : Child v' d f ↔ Child v d f := by
  unfold Child
  rw [h.type d hd.slotted, h.dirSlot hd.slotted hex]
  constructor
  · rintro ⟨ht, hs, hl⟩
    exact ⟨ht, hs, (h.live f (.inr ⟨d, hd, ht, hs⟩)).mp hl⟩
  · rintro ⟨ht, hs, hl⟩
    exact ⟨ht, hs, (h.live f (.inr ⟨d, hd, ht, hs⟩)).mpr hl⟩

/-- Only the slots of directories decide which files there are. -/
theorem reach
    (hchild : ∀ d f, Reach v d → d.type v = FTYPE_DIR → (∃ i, except d (.slot i)) →
      (Child v' d f ↔ Child v d f))
    (f : FilePtr) : Reach v' f ↔ Reach v f := by
  apply reflTransGen_congr
  intro d hd f
  by_cases hex : ∃ i, except d (.slot i)
  · by_cases ht : d.type v = FTYPE_DIR
    · exact hchild d f hd ht hex
    · have ht' : d.type v' ≠ FTYPE_DIR := by
        rw [h.type d (Reach.slotted hd)]
        exact ht
      exact ⟨fun hc => absurd hc.1 ht', fun hc => absurd hc.1 ht⟩
  · exact h.child hd (fun i hi => hex ⟨i, hi⟩)

end

end Alike

/-- `Owned` after a step that changes places of files only. -/
theorem Owned.of_alike {except : FilePtr → Place → Prop} (ho : Owned v kept)
    (h : Alike v v' except) (hreach : ∀ f, Reach v' f ↔ Reach v f)
    (hholding : Holding (Reach v') (fun f p => f.ref v' p) 0 (Used v') kept')
    (hreserved : ∀ b, Reserved v b → kept' b)
    (hwithin : ∀ g i, Reach v g → except g (.slot i) → g.extent v ≤ i → g.slot v' i = 0)
    (hdead : ∀ d g p, Reach v d → d.type v = FTYPE_DIR → DirSlot v d g → ¬ g.live v → ¬ except g p)
    (hnew : ∀ d f, Reach v d → d.type v = FTYPE_DIR → DirSlot v' d f → ¬ DirSlot v d f →
      Blank v' f) : Owned v' kept' where
  holding := hholding
  reserved := by
    intro b hb
    apply hreserved
    unfold Reserved at hb ⊢
    rw [h.disk] at hb
    exact hb
  bound := by
    rw [h.disk]
    exact ho.bound
  root := by
    rw [h.type _ (reach_root v).slotted]
    exact ho.root
  within := by
    intro f i hf hi
    have hf := (hreach f).mp hf
    rw [h.extent hf.slotted] at hi
    by_cases hex : except f (.slot i)
    · exact hwithin f i hf hex hi
    · have href : f.slot v' i = f.slot v i := h.ref f (.slot i) hf.slotted hex
      rw [href]
      exact ho.within f i hf hi
  regular := by
    intro f hf ht
    have hf := (hreach f).mp hf
    rw [h.type f hf.slotted] at ht
    rw [h.size f hf.slotted]
    exact ho.regular f hf ht
  whole := by
    intro f hf ht
    have hf := (hreach f).mp hf
    rw [h.type f hf.slotted] at ht
    rw [h.size f hf.slotted]
    exact ho.whole f hf ht
  unused := by
    intro d f hd ht hs hl
    have hd := (hreach d).mp hd
    rw [h.type d hd.slotted] at ht
    by_cases hold : DirSlot v d f
    · have hsl : Slotted v f := .inr ⟨d, hd, ht, hold⟩
      have hl' : ¬ f.live v := fun hlv => hl ((h.live f hsl).mpr hlv)
      have hblank := ho.unused d f hd ht hold hl'
      refine ⟨fun p => ?_, ?_, ?_⟩
      · rw [h.ref f p hsl (hdead d f p hd ht hold hl')]
        exact hblank.ref p
      · rw [h.type f hsl]
        exact hblank.type
      · rw [h.size f hsl]
        exact hblank.size
    · exact hnew d f hd ht hs hold

end MosSmp.Fs
