import MosSmp.Fs.Flush
import MosSmp.Fs.Frame

/-!
Truncation. `file_truncate` clears the slots from the new size to the old one
and gives the indirect block back when no slot is left in it; with the blocks
past the size there are none, a file keeps exactly the blocks below its size.
The only way for it to stop is the `panic_on` around `file_clear_block`, which a
file with an indirect block in the cache does not reach.
-/

namespace MosSmp.Fs

open Lib Prog Relation FilePtr

variable {s t u : Server} {kept : Nat → Prop} {E : Stop → Prop} {X : FsErr → Server → Prop}
  {l : Loc} {b i w : Nat} {F : FilePtr} {p : Place} {v : View} {ok : Nat → Prop}

theorem setAt_comm (v : View) {l l' : Loc} (w w' : Nat) (h : l.blk ≠ l'.blk) :
    setAt (setAt v l w) l' w' = setAt (setAt v l' w') l w := by
  funext b k
  simp only [setAt_apply]
  by_cases hb : b = l.blk
  · have hb' : b ≠ l'.blk := fun hb' => h (hb.symm.trans hb')
    simp [hb']
  · simp [hb]

/-- The block of a place is marked free and the place cleared. -/
theorem Owned.cut (ho : Owned v kept) (hF : Reach v F) (hst : Stored v (setAt v l 0) F p 0)
    (hfull : F.ref v p ≠ 0) (hreg : ∀ i, p = .slot i → F.type v ≠ FTYPE_DIR)
    (hl : ∀ c, c < diskSize v → l.blk ≠ (bitmapWord c).blk)
    (hw : w = getAt v (bitmapWord (F.ref v p)) ||| 1 <<< (F.ref v p % 32)) :
    Owned (setAt (setAt v (bitmapWord (F.ref v p)) w) l 0) kept ∧
      Kin ok v (setAt (setAt v (bitmapWord (F.ref v p)) w) l 0) ∧
      ∀ g q, Slotted v g →
        g.ref (setAt (setAt v (bitmapWord (F.ref v p)) w) l 0) q = g.ref (setAt v l 0) q := by
  have hlt := (ho.holding.ref_used F p hF hfull).1
  have hnk := ho.holding.apart F p hF hfull
  obtain ⟨hrel, hkin⟩ : Owned (setAt v l 0) (fun c => kept c ∨ c = F.ref v p) ∧
      Kin ok v (setAt v l 0) := ho.release hF hst hfull hreg
  have hdisk : diskSize (setAt v l 0) = diskSize v := hst.alike.disk
  rw [setAt_comm v w 0 (hl _ hlt).symm]
  have hlt' : F.ref v p < diskSize (setAt v l 0) := by
    rw [hdisk]
    exact hlt
  have hout := hrel.bitmap_outside hlt'
  have hsame := hout.sameTree (setAt_other (setAt v l 0) (bitmapWord (F.ref v p)) w)
  have hw' : w = getAt (setAt v l 0) (bitmapWord (F.ref v p)) ||| 1 <<< (F.ref v p % 32) := by
    rw [hw]
    unfold getAt
    rw [setAt_other v l 0 _ (hl _ hlt).symm]
  have hnr : ¬ Reserved (setAt v l 0) (F.ref v p) := by
    intro hr
    unfold Reserved at hr
    rw [hdisk] at hr
    exact hnk (ho.reserved _ hr)
  have hdrop := hrel.drop hsame (.inr rfl) hnr (fun c _ => by rw [hw']; exact unused_setFree)
  rw [kept_restore hnk] at hdrop
  refine ⟨hdrop, hkin.trans (hout.kin hrel (setAt_other _ _ _)) (fun _ h => h), fun g q hg => ?_⟩
  exact (hsame.alike hrel).ref g q (hkin.slots g hg) (fun hex => hex)

/-- Blocks of `F` have been given back; the tree is otherwise as before. -/
structure Cut (s t : Server) (kept : Nat → Prop) (F : FilePtr) : Prop extends Grown s t where
  sound : Sound t kept
  kin : Kin t.Cached s.view t.view
  live : F.live t.view ↔ F.live s.view
  empty : ∀ p, F.ref s.view p = 0 → F.ref t.view p = 0
  others : ∀ g p, Slotted s.view g → g ≠ F → g.ref t.view p = g.ref s.view p

theorem Cut.trans (h : Cut s t kept F) (h' : Cut t u kept F) : Cut s u kept F where
  toGrown := h.toGrown.trans h'.toGrown
  sound := h'.sound
  kin := h.kin.trans h'.kin h'.cached
  live := h'.live.trans h.live
  empty := fun p hp => h'.empty p (h.empty p hp)
  others := fun g p hg hne =>
    (h'.others g p (h.kin.slots g hg) hne).trans (h.others g p hg hne)

theorem Sound.cut_of_calm (hs : Sound s kept) (h : Calm s t) : Cut s t kept F where
  toGrown := h.toGrown
  sound := hs.of_calm h
  kin := h.view ▸ .refl _
  live := by rw [h.view]
  empty := by
    intro p hp
    rw [h.view]
    exact hp
  others := by
    intro g p _ _
    rw [h.view]

/-- `free_block` on the block of a place, and then the store that clears it. -/
theorem wp_cut (hs : Sound s kept) (hF : Reach s.view F)
    (hst : Stored s.view (setAt s.view l 0) F p 0) (hfull : F.ref s.view p ≠ 0)
    (hreg : ∀ i, p = .slot i → F.type s.view ≠ FTYPE_DIR) (hu : Used s.view l.blk)
    (hl : ∀ c, c < diskSize s.view → l.blk ≠ (bitmapWord c).blk) (hc : s.Cached l.blk)
    (hidx : l.idx < BLOCK_SIZE / 4) :
    wp (do
        freeBlock (F.ref s.view p)
        store l 0) E X
      (fun _ t => Cut s t kept F ∧ F.ref t.view p = 0 ∧
        ∀ q, q ≠ p → F.ref t.view q = F.ref s.view q) s := by
  have hlt := (hs.owned.holding.ref_used F p hF hfull).1
  refine wp_bind.mpr (wp_freeBlock hs hlt hfull ?_)
  refine wp_store (hs.lt_of_used hu) ((s.cached_change _ _ _).mpr (.inr hc)) hidx ?_
  generalize hw : getAt s.view (bitmapWord (F.ref s.view p)) ||| 1 <<< (F.ref s.view p % 32) = w
  have hview : ((s.put (bitmapWord (F.ref s.view p)) w).put l 0).view =
      setAt (setAt s.view (bitmapWord (F.ref s.view p)) w) l 0 := by
    rw [Server.view_put, Server.view_put]
  obtain ⟨ho, hkin, href⟩ : Owned ((s.put (bitmapWord (F.ref s.view p)) w).put l 0).view kept ∧
        Kin ((s.put (bitmapWord (F.ref s.view p)) w).put l 0).Cached s.view
          ((s.put (bitmapWord (F.ref s.view p)) w).put l 0).view ∧ _ := by
    rw [hview]
    exact hs.owned.cut hF hst hfull hreg hl hw.symm
  rw [← hview] at href
  have hgrown := (grown_put s (bitmapWord (F.ref s.view p)) w).trans (grown_put _ l 0)
  have hother : ∀ q, q ≠ p →
      F.ref ((s.put (bitmapWord (F.ref s.view p)) w).put l 0).view q = F.ref s.view q := by
    intro q hq
    rw [href F q hF.slotted]
    exact hst.ref_of_ne hF (fun h => hq h.2)
  have hself : F.ref ((s.put (bitmapWord (F.ref s.view p)) w).put l 0).view p = 0 :=
    (href F p hF.slotted).trans hst.set
  have hdisk : diskSize ((s.put (bitmapWord (F.ref s.view p)) w).put l 0).view =
      diskSize s.view := by
    rw [hview, setAt_comm _ _ _ (hl _ hlt).symm]
    have h1 := hst.alike.disk
    rw [← h1]
    exact setAt_of_ne _ _ (fun h => Owned.bitmap_ne_one _ h.1.symm)
  refine ⟨⟨hgrown, hs.of_grown hgrown hdisk ho, hkin, ?_, fun q hq => ?_, fun g q hg hne => ?_⟩,
    hself, hother⟩
  · have hbl : F.blk ≠ (bitmapWord (F.ref s.view p)).blk :=
      (hs.owned.bitmap_ne_blk hF.slotted hlt).symm
    have hlive := hst.alike.live F hF.slotted
    unfold live at hlive ⊢
    rw [hview, setAt_comm _ _ _ (hl _ hlt).symm, setAt_other _ _ _ _ hbl]
    exact hlive
  · by_cases hqp : q = p
    · rw [hqp]
      exact hself
    · rw [hother q hqp]
      exact hq
  · rw [href g q hg]
    exact hst.alike.ref g q hg (fun h => hne h.1)

/-- The slot `i` exists, and there is memory to read the indirect block if the
slot is in it. -/
def CanWalk (s : Server) (F : FilePtr) (i : Nat) : Prop :=
  i < NINDIRECT ∧ (NDIRECT ≤ i → F.indirect s.view ≠ 0 ∧
    (s.Cached (F.indirect s.view) ∨ s.mem s.asked = true))

/-- `file_truncate` gets through without the `panic_on`. -/
def Cuttable (s : Server) (F : FilePtr) : Prop :=
  F.extent s.view ≤ NDIRECT ∨ F.indirect s.view ≠ 0 ∧ s.Cached (F.indirect s.view)

/-- The same with memory to read the indirect block. -/
def Truncatable (s : Server) (F : FilePtr) : Prop :=
  F.extent s.view ≤ NDIRECT ∨ F.indirect s.view ≠ 0 ∧
    (s.Cached (F.indirect s.view) ∨ ∀ n, s.mem n = true)

theorem Cuttable.truncatable (h : Cuttable s F) : Truncatable s F :=
  h.imp_right (fun h => ⟨h.1, .inl h.2⟩)

theorem closed_mem (mem : Nat → Bool) : Closed (fun s => s.mem = mem) where
  asks := fun _ h => h
  stores := fun _ _ _ h _ => h
  zeroes := fun _ _ h _ => h
  reads := fun _ _ h _ => h
  dirties := fun _ _ _ h _ => h
  writes := fun _ _ _ h _ => h

theorem freeIndirect_spec (hs : Sound s kept) (hF : Reach s.view F) (hc : s.Cached F.blk)
    (hempty : ∀ j, NDIRECT ≤ j → F.slot s.view j = 0) :
    wp (freeIndirect F) E X (fun _ t => Cut s t kept F ∧ F.indirect t.view = 0) s := by
  refine wp_bind.mpr (hs.wp_word hF.slotted hc (by decide) ?_)
  apply wp_when
  · intro hne
    have hst := hs.owned.stored_indirect hF 0 hempty (fun h => absurd rfl h)
    have hoff := hF.slotted.off_le
    refine (wp_cut hs hF hst hne (fun i hi => by cases hi) (hs.owned.blk_used hF.slotted)
      (fun c hcd => (hs.owned.bitmap_ne_blk hF.slotted hcd).symm) hc ?_).post
      (fun _ _ ht => ⟨ht.1, ht.2.1⟩)
    change F.off + 44 < BLOCK_SIZE / 4
    omega
  · exact fun hzero => ⟨hs.cut_of_calm (.refl s), not_not.mp hzero⟩

/-- The regular file `F` has another size and at most fewer blocks. -/
structure Resized (s t : Server) (kept : Nat → Prop) (F : FilePtr) : Prop
    extends Grown s t where
  sound : Sound t kept
  moved : Moved t.Cached s.view t.view
  reach : ∀ f, Reach t.view f ↔ Reach s.view f
  type : F.type t.view = F.type s.view
  live : F.live t.view ↔ F.live s.view
  empty : ∀ p, F.ref s.view p = 0 → F.ref t.view p = 0
  others : ∀ g, Slotted s.view g → g ≠ F →
    g.size t.view = g.size s.view ∧ ∀ p, g.ref t.view p = g.ref s.view p

theorem Resized.trans (h : Resized s t kept F) (h' : Resized t u kept F) : Resized s u kept F where
  toGrown := h.toGrown.trans h'.toGrown
  sound := h'.sound
  moved := h.moved.trans h'.moved h'.cached
  reach := fun f => (h'.reach f).trans (h.reach f)
  type := h'.type.trans h.type
  live := h'.live.trans h.live
  empty := fun p hp => h'.empty p (h.empty p hp)
  others := by
    intro g hg hne
    obtain ⟨hsize, href⟩ := h.others g hg hne
    obtain ⟨hsize', href'⟩ := h'.others g (h.moved.slots g hg) hne
    exact ⟨hsize'.trans hsize, fun p => (href' p).trans (href p)⟩

theorem Cut.resized (h : Cut s t kept F) (hF : Reach s.view F) : Resized s t kept F where
  toGrown := h.toGrown
  sound := h.sound
  moved := h.kin.toMoved
  reach := h.kin.reach
  type := h.kin.type F hF.slotted
  live := h.live
  empty := h.empty
  others := fun g hg hne => ⟨h.kin.size g hg, fun p => h.others g p hg hne⟩

theorem roundBlocks_eq {size : Nat} (h : size ≤ MAXFILESIZE) :
    roundBlocks size = (size + (BLOCK_SIZE - 1)) / BLOCK_SIZE := by
  simp only [MAXFILESIZE, NINDIRECT, BLOCK_SIZE, roundBlocks] at h ⊢
  rw [Nat.mod_eq_of_lt (by omega)]

theorem Fathered.of_moved (hp : Fathered s F) (hF : Slotted s.view F)
    (hg : Grown s t) (hm : Moved t.Cached s.view t.view) : Fathered t F := by
  rcases hm.parent F hF with heq | hnew
  · unfold Fathered
    rw [heq]
    refine hp.imp_right ?_
    rintro ⟨d, hd, ht, hcd, ha⟩
    obtain ⟨hd', ht'⟩ := hm.dirs d hd ht
    exact ⟨d, hd', ht', hg.cached _ hcd, ha⟩
  · exact .inr hnew

section

variable (hs : Sound s kept) (hF : Reach s.view F) (hreg : F.type s.view ≠ FTYPE_DIR)
include hs hF hreg

theorem fileClearBlock_spec (hc : s.Cached F.blk) (i : Nat) :
    wp (fileClearBlock F i) E (fun _ _ => ¬ CanWalk s F i)
      (fun _ t => Cut s t kept F ∧ F.slot t.view i = 0 ∧
        F.indirect t.view = F.indirect s.view) s := by
  refine (fileBlockWalk_spec hs hF hc false i (fun h => by cases h)).andThen
    (fun _ _ hx => (hx.2 rfl).2) ?_
  rintro _ t ⟨_, hcalm, hi, rfl, hind, hcl, _⟩
  have hcalm := hcalm rfl
  have ht := hs.of_calm hcalm
  have hF' : Reach t.view F := hcalm.view ▸ hF
  have hreg' : F.type t.view ≠ FTYPE_DIR := hcalm.view ▸ hreg
  obtain ⟨hu, hidx, _⟩ := ht.slotLoc_ok hF' hi hind
  refine wp_bind.mpr (wp_load (ht.lt_of_used hu) hcl hidx ?_)
  rw [getAt_slotLoc hi hind]
  have hcut : Cut s t kept F := hs.cut_of_calm hcalm
  have hind' : F.indirect t.view = F.indirect s.view := by rw [hcalm.view]
  apply wp_when
  · intro hne
    have hbm : ∀ c, c < diskSize t.view → (F.slotLoc t.view i).blk ≠ (bitmapWord c).blk := by
      intro c hcd
      unfold slotLoc
      by_cases hlt : i < NDIRECT
      · rw [if_pos hlt]
        exact (ht.owned.bitmap_ne_blk hF'.slotted hcd).symm
      · rw [if_neg hlt]
        exact (ht.owned.bitmap_outside hcd).indirect F hF' (hind (Nat.not_lt.mp hlt))
    have hst := ht.owned.stored_slot hF' hi hind 0
    refine (wp_cut ht hF' hst hne (fun _ _ => hreg') hu hbm hcl hidx).post ?_
    rintro _ _ ⟨hcut', hzero, hother⟩
    exact ⟨hcut.trans hcut', hzero, (hother .indirect (by simp)).trans hind'⟩
  · intro hzero
    exact ⟨hcut, not_not.mp hzero, hind'⟩

/-- The store of a size below which the file keeps its blocks. -/
theorem Sound.resized_put {size : Nat} (hmax : size ≤ MAXFILESIZE)
    (hwithin : ∀ i, (size + (BLOCK_SIZE - 1)) / BLOCK_SIZE ≤ i → F.slot s.view i = 0) :
    Resized s (s.put F.fSize size) kept F ∧ F.size (s.put F.fSize size).view = size := by
  have hset : F.size (setAt s.view F.fSize size) = size := setAt_same s.view F.fSize size
  have hrw : Rewritten s.view (setAt s.view F.fSize size) F := by
    apply hs.owned.rewritten hF.slotted
    intro b k hbk
    apply setAt_of_ne
    rintro ⟨hb, hk⟩
    have hk : k = F.off + 32 := hk
    exact hbk ⟨hb, by omega, by omega⟩
  have hlive : F.live (setAt s.view F.fSize size) ↔ F.live s.view := by
    have h0 : setAt s.view F.fSize size F.blk F.off = s.view F.blk F.off := by
      apply setAt_of_ne
      rintro ⟨_, hk⟩
      have hk : F.off = F.off + 32 := hk
      omega
    unfold live
    rw [h0]
  obtain ⟨ho, hmoved, hreach⟩ : Owned (setAt s.view F.fSize size) kept ∧
      Moved (s.put F.fSize size).Cached s.view (setAt s.view F.fSize size) ∧
      ∀ f, Reach (setAt s.view F.fSize size) f ↔ Reach s.view f := by
    apply hs.owned.setSize hF hrw hlive hreg
    · intro i hi
      unfold extent at hi
      rw [hset] at hi
      exact hwithin i hi
    · rw [hset]
      exact hmax
  have hview := s.view_put F.fSize size
  refine ⟨⟨grown_put s _ _, hs.of_grown (grown_put s _ _) ?_ ?_, ?_, ?_, ?_, ?_, ?_, ?_⟩, ?_⟩
  · rw [hview]
    exact hrw.disk
  · rw [hview]
    exact ho
  · rw [hview]
    exact hmoved
  · rw [hview]
    exact hreach
  · rw [hview]
    exact hrw.type F hF.slotted
  · rw [hview]
    exact hlive
  · intro p hp
    rw [hview, hrw.ref F p hF.slotted]
    exact hp
  · intro g hg hne
    rw [hview]
    exact ⟨hrw.size g hg hne, fun p => hrw.ref g p hg⟩
  · rw [hview]
    exact hset

section

variable (hc : s.Cached F.blk) (hE : (∀ e, E (.panicOn e)) ∨ Truncatable s F)
include hc hE

theorem clearBlocks_spec (lo : Nat) :
    wp (clearBlocks F lo (F.extent s.view)) E (fun _ _ => False)
      (fun _ t => Cut s t kept F ∧ (∀ j, lo ≤ j → F.slot t.view j = 0) ∧
        F.indirect t.view = F.indirect s.view) s := by
  have hmax : F.extent s.view ≤ NINDIRECT := by
    have := hs.owned.regular F hF hreg
    simp only [extent, MAXFILESIZE, NINDIRECT, BLOCK_SIZE] at this ⊢
    omega
  -- the slots from `lo` on that are not in the list are empty already
  have hloop := wp_each (E := E) (X := fun _ _ => False) (s := s)
    (g := fun bno => panicOn (fileClearBlock F bno))
    (I := fun rest t => (∀ j ∈ rest, j < F.extent s.view) ∧ Cut s t kept F ∧
      (∀ j, lo ≤ j → j ∉ rest → F.slot t.view j = 0) ∧ F.indirect t.view = F.indirect s.view ∧
      t.mem = s.mem)
    (fun j rest t ht => ?_) (List.range' lo (F.extent s.view - lo)) ?_
  · exact hloop.post (fun _ t ht => ⟨ht.2.1, fun j hj => ht.2.2.1 j hj (by simp), ht.2.2.2.1⟩)
  · obtain ⟨hlt, hcut, hempty, hind, hmem⟩ := ht
    have hF' := (hcut.kin.reach F).mpr hF
    have hreg' : F.type t.view ≠ FTYPE_DIR := by
      rw [hcut.kin.type F hF.slotted]
      exact hreg
    have hclear := (fileClearBlock_spec (E := E) hcut.sound hF' hreg' (hcut.cached _ hc) j).and
      ((closed_mem s.mem).fileClearBlock F j t hmem)
    refine wp_bind.mpr (wp_attempt.mpr (hclear.mono (fun _ hi => hi.1) ?_ ?_))
    · rintro e u ⟨hat, _⟩
      rcases hE with hE | hcuttable
      · exact hE e
      · refine absurd ⟨Nat.lt_of_lt_of_le (hlt j (by simp)) hmax, fun hle => ?_⟩ hat
        rcases hcuttable with _ | ⟨hne, hread⟩
        · have := hlt j (by simp)
          omega
        · rw [hind]
          exact ⟨hne, hread.imp (hcut.cached _) (fun hall => by rw [hmem]; exact hall _)⟩
    · rintro _ u ⟨⟨hcut', hzero, hind'⟩, hmem'⟩
      refine ⟨fun k hk => hlt k (by simp [hk]), hcut.trans hcut', fun k hlo hk => ?_,
        hind'.trans hind, hmem'⟩
      by_cases hkj : k = j
      · rw [hkj]
        exact hzero
      · exact hcut'.empty (.slot k) (hempty k hlo (by simp [hkj, hk]))
  · refine ⟨fun j hj => ?_, hs.cut_of_calm (.refl s), fun j hlo hj => ?_, rfl, rfl⟩
    · have := List.mem_range'_1.mp hj
      omega
    · apply hs.owned.within F j hF
      by_contra hlt
      exact hj (List.mem_range'_1.mpr (by omega))

theorem fileTruncate_spec {newsize : Nat} (hmax : newsize ≤ MAXFILESIZE) :
    wp (fileTruncate F newsize) E (fun _ _ => False)
      (fun _ t => Resized s t kept F ∧ F.size t.view = newsize ∧
        (F.extent t.view ≤ NDIRECT → F.indirect t.view = 0)) s := by
  refine wp_bind.mpr (hs.wp_word hF.slotted hc (by decide) ?_)
  generalize hlo : (if newsize = 0 then 0 else roundBlocks newsize) = lo
  have hlo' : lo = (newsize + (BLOCK_SIZE - 1)) / BLOCK_SIZE := by
    rw [← hlo]
    by_cases hz : newsize = 0
    · rw [if_pos hz, hz]
      decide
    · rw [if_neg hz, roundBlocks_eq hmax]
  rw [show roundBlocks (getAt s.view (F.word 32)) = F.extent s.view from
    roundBlocks_eq (hs.owned.regular F hF hreg)]
  refine (clearBlocks_spec hs hF hreg hc hE lo).bind ?_
  rintro _ t ⟨hcut, hempty, _⟩
  have hF' := (hcut.kin.reach F).mpr hF
  have hreg' : F.type t.view ≠ FTYPE_DIR := by
    rw [hcut.kin.type F hF.slotted]
    exact hreg
  have hc' := hcut.cached _ hc
  -- after the indirect block has been freed, if it is
  have hfinal : ∀ u, Cut t u kept F → (lo ≤ NDIRECT → F.indirect u.view = 0) →
      wp (store F.fSize newsize) E (fun _ _ => False)
        (fun _ w => Resized s w kept F ∧ F.size w.view = newsize ∧
          (F.extent w.view ≤ NDIRECT → F.indirect w.view = 0)) u := by
    intro u hcut' hind
    have hFu := (hcut'.kin.reach F).mpr hF'
    have hregu : F.type u.view ≠ FTYPE_DIR := by
      rw [hcut'.kin.type F hF'.slotted]
      exact hreg'
    obtain ⟨hres, hsize⟩ := hcut'.sound.resized_put hFu hregu hmax (fun i hi => by
      apply hcut'.empty (.slot i)
      apply hempty
      rw [hlo']
      exact hi)
    refine hcut'.sound.wp_storeWord hFu.slotted (hcut'.cached _ hc') (by decide) ?_
    refine ⟨(hcut.resized hF).trans ((hcut'.resized hF').trans hres), hsize, fun hext => ?_⟩
    have hnew : F.extent (u.put F.fSize newsize).view = lo := by
      unfold extent
      rw [hsize, hlo']
    apply hres.empty .indirect
    apply hind
    rw [← hnew]
    exact hext
  refine wp_bind.mpr (wp_when (fun hle => ?_) (fun hle => ?_))
  · refine (freeIndirect_spec hcut.sound hF' hc' (fun j hj => hempty j (by omega))).post ?_
    rintro _ u ⟨hcut', hind⟩
    exact hfinal u hcut' (fun _ => hind)
  · exact hfinal t (hcut.sound.cut_of_calm (.refl t)) (fun h => absurd h hle)

end

/-- `file_set_size` on a regular file. -/
theorem fileSetSize_spec (hc : s.Cached F.blk) (hp : Fathered s F) {newsize : Nat}
    (hmax : newsize ≤ MAXFILESIZE)
    (hE : (∀ e, E (.panicOn e)) ∨ (newsize < F.size s.view → Truncatable s F)) :
    wp (fileSetSize F newsize) E (fun _ _ => False)
      (fun _ t => Resized s t kept F ∧ F.size t.view = newsize ∧
        ((F.extent s.view ≤ NDIRECT → F.indirect s.view = 0) →
          F.extent t.view ≤ NDIRECT → F.indirect t.view = 0)) s := by
  refine wp_bind.mpr (hs.wp_word hF.slotted hc (by decide) (wp_bind.mpr ?_))
  -- the second store of the size and the flush of the directory
  have hrest : ∀ t, Resized s t kept F →
      (∀ i, (newsize + (BLOCK_SIZE - 1)) / BLOCK_SIZE ≤ i → F.slot t.view i = 0) →
      ((F.extent s.view ≤ NDIRECT → F.indirect s.view = 0) →
        (newsize + (BLOCK_SIZE - 1)) / BLOCK_SIZE ≤ NDIRECT → F.indirect t.view = 0) →
      wp (do
          store F.fSize newsize
          flushDir F) E (fun _ _ => False)
        (fun _ u => Resized s u kept F ∧ F.size u.view = newsize ∧
          ((F.extent s.view ≤ NDIRECT → F.indirect s.view = 0) →
            F.extent u.view ≤ NDIRECT → F.indirect u.view = 0)) t := by
    intro t hres hwithin hind
    have hFt := (hres.reach F).mpr hF
    have hregt : F.type t.view ≠ FTYPE_DIR := by
      rw [hres.type]
      exact hreg
    obtain ⟨hres', hsize⟩ := hres.sound.resized_put hFt hregt hmax hwithin
    refine wp_bind.mpr (hres.sound.wp_storeWord hFt.slotted (hres.cached _ hc) (by decide) ?_)
    have hall := hres.trans hres'
    have hFu := (hall.reach F).mpr hF
    refine (flushDir_spec hall.sound hFu.slotted (hall.cached _ hc)
      (hp.of_moved hF.slotted hall.toGrown hall.moved)).post ?_
    intro _ w hw
    refine ⟨hall.trans ((hall.sound.cut_of_calm hw).resized hFu), ?_, fun htight hext => ?_⟩
    · rw [hw.view]
      exact hsize
    · unfold extent at hext
      rw [hw.view, hsize] at hext
      rw [hw.view]
      exact hres'.empty .indirect (hind htight hext)
  refine wp_when (fun hlt => ?_) (fun hle => ?_)
  · refine (fileTruncate_spec hs hF hreg hc (hE.imp_right (fun h => h hlt)) hmax).post ?_
    rintro _ t ⟨hres, hsize, hind⟩
    have hext : F.extent t.view = (newsize + (BLOCK_SIZE - 1)) / BLOCK_SIZE := by
      unfold extent
      rw [hsize]
    rw [hext] at hind
    refine hrest t hres (fun i hi => hres.sound.owned.within F i ((hres.reach F).mpr hF) ?_)
      (fun _ => hind)
    rw [hext]
    exact hi
  · have hle : F.size s.view ≤ newsize := Nat.not_lt.mp hle
    have hext : F.extent s.view ≤ (newsize + (BLOCK_SIZE - 1)) / BLOCK_SIZE :=
      Nat.div_le_div_right (Nat.add_le_add_right hle _)
    exact hrest s ((hs.cut_of_calm (.refl s)).resized hF)
      (fun i hi => hs.owned.within F i hF (hext.trans hi))
      (fun htight hnew => htight (hext.trans hnew))

end

end MosSmp.Fs
