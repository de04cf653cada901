import MosSmp.Fs.Truncate

/-!
Paths. A walk fills at most holes of directories and sets the field `f_dir` of
the files it finds; a file it ends at is a file of the tree, with its directory
in the cache. A new file takes an unused structure of its directory, or the
first one of a block by which the directory grows.
-/

namespace MosSmp.Fs

open Lib Prog Relation FilePtr Function List Nat

variable {s t u : Server} {kept : Nat → Prop} {E : Stop → Prop} {X : FsErr → Server → Prop}
  {b c i j k w : Nat} {F d f : FilePtr} {v v' : View} {name : Name} {path : List Byte}

/-! ### Bytes of a block -/

theorem Block.byte_four (p : Block) (k : Nat) : p.byte (4 * k) = p k % 256 := by
  simp [Block.byte]

/-- One byte of a word of four, replaced. -/
theorem word_byte_ne (w c : Nat) (hc : c < 256) {k j : Nat} (hk : k < 4) (hj : j < 4)
    (hne : j ≠ k) :
    (w - w / 256 ^ k % 256 * 256 ^ k + c * 256 ^ k) / 256 ^ j % 256 = w / 256 ^ j % 256 := by
  obtain rfl | rfl | rfl | rfl : k = 0 ∨ k = 1 ∨ k = 2 ∨ k = 3 := by omega
  all_goals
    obtain rfl | rfl | rfl | rfl : j = 0 ∨ j = 1 ∨ j = 2 ∨ j = 3 := by omega
    all_goals omega

theorem word_byte_same (w c : Nat) (hc : c < 256) {k : Nat} (hk : k < 4) :
    (w - w / 256 ^ k % 256 * 256 ^ k + c * 256 ^ k) / 256 ^ k % 256 = c := by
  obtain rfl | rfl | rfl | rfl : k = 0 ∨ k = 1 ∨ k = 2 ∨ k = 3 := by omega
  all_goals omega

namespace Block

theorem byte_setByte (p : Block) (a : Nat) (c : Byte) : (p.setByte a c).byte a = c.val := by
  unfold byte setByte
  rw [update_self]
  exact word_byte_same _ _ c.isLt (mod_lt _ (by decide))

theorem byte_setByte_ne (p : Block) {a a' : Nat} (c : Byte) (h : a' ≠ a) :
    (p.setByte a c).byte a' = p.byte a' := by
  unfold byte setByte
  by_cases hw : a' / 4 = a / 4
  · rw [hw, update_self]
    exact word_byte_ne _ _ c.isLt (mod_lt _ (by decide)) (mod_lt _ (by decide)) (by omega)
  · rw [update_of_ne hw]

theorem byte_setBytes_lt (p : Block) {a a' : Nat} (str : List Byte) (h : a' < a) :
    (p.setBytes a str).byte a' = p.byte a' := by
  induction str generalizing p a with
  | nil => rfl
  | cons c rest ih =>
    change ((p.setByte a c).setBytes (a + 1) rest).byte a' = _
    rw [ih _ (by omega), byte_setByte_ne _ _ (by omega)]

theorem byte_setBytes_head (p : Block) (a : Nat) (c : Byte) (rest : List Byte) :
    (p.setBytes a (c :: rest)).byte a = c.val := by
  change ((p.setByte a c).setBytes (a + 1) rest).byte a = _
  rw [byte_setBytes_lt _ _ (by omega), byte_setByte]

/-- Only the words with the bytes of the string change. -/
theorem setBytes_of_outside (p : Block) {a k : Nat} (str : List Byte)
    (h : k < a / 4 ∨ a + str.length ≤ 4 * k) : p.setBytes a str k = p k := by
  induction str generalizing p a with
  | nil => rfl
  | cons c rest ih =>
    rw [length_cons] at h
    change (p.setByte a c).setBytes (a + 1) rest k = p k
    rw [ih _ (by omega)]
    unfold setByte
    rw [update_of_ne (by omega)]

end Block

/-! ### Names -/

/-- A name as a path element gives it. -/
structure NameOk (name : Name) : Prop where
  nonempty : name ≠ []
  bytes : ∀ c ∈ name, c ≠ 0

theorem subset_intercalate {α : Type} (sep : List α) (L : List (List α)) {p : List α}
    (h : p ∈ L) : p ⊆ sep.intercalate L := by
  induction L with
  | nil => cases h
  | cons x rest ih =>
    cases rest with
    | nil =>
      obtain rfl := mem_singleton.mp h
      simp
    | cons =>
      rw [intercalate_cons_cons]
      rcases mem_cons.mp h with rfl | hr
      · intro a ha
        simp [ha]
      · intro a ha
        simp [ih hr ha]

theorem elements_ok (path : List Byte) : ∀ n ∈ elements path, NameOk n := by
  intro n hn
  obtain ⟨hmem, hne⟩ := mem_filter.mp hn
  refine ⟨by simpa using hne, fun c hc => ?_⟩
  have hsub := subset_intercalate [47] _ hmem hc
  rw [intercalate_splitOn] at hsub
  have hall : ∀ c ∈ path.takeWhile (· ≠ 0), decide (c ≠ 0) = true :=
    all_eq_true.mp all_takeWhile
  exact of_decide_eq_true (hall c hsub)

/-- A structure whose name is a path element is in use. -/
theorem live_of_hasBytes (hn : NameOk name)
    (h : (v f.blk).hasBytes (4 * f.off) (name ++ [0]) = true) : f.live v := by
  cases name with
  | nil => exact absurd rfl hn.nonempty
  | cons c =>
    have hc := hn.bytes c (by simp)
    have hbyte : (v f.blk).byte (4 * f.off) = c.val := by
      have h := (Bool.and_eq_true _ _ ▸ h : ((v f.blk).byte (4 * f.off) == c.val) = true ∧ _).1
      exact beq_iff_eq.mp h
    rw [Block.byte_four] at hbyte
    unfold live
    rw [hbyte]
    intro h0
    exact hc (Fin.ext h0)

theorem not_live_of_empty (h : (v f.blk).hasBytes (4 * f.off) ([] ++ [0]) = true) : ¬ f.live v := by
  have h := (Bool.and_eq_true _ _ ▸ h : ((v f.blk).byte (4 * f.off) == 0) = true ∧ _).1
  have hbyte := beq_iff_eq.mp h
  rw [Block.byte_four] at hbyte
  exact fun hl => hl hbyte

theorem live_of_not_empty (h : (v f.blk).hasBytes (4 * f.off) ([] ++ [0]) ≠ true) : f.live v := by
  intro h0
  apply h
  rw [← Block.byte_four] at h0
  simp [Block.hasBytes, h0]

variable {str : List Byte}

theorem wp_stringAt {Q : Bool → Server → Prop} {l : Loc} (hb : l.blk < DISKMAX / BLOCK_SIZE)
    (hc : s.Cached l.blk) (h : Q ((s.view l.blk).hasBytes (4 * l.idx) (str ++ [0])) s) :
    wp (stringAt l str) E X Q s := by
  refine wp_bind.mpr (wp_pageAt hb hc (fun p hp => ?_))
  rw [Server.view_of_cache hp] at h
  exact h

theorem wp_storeString {Q : Unit → Server → Prop} {l : Loc} (hb : l.blk < DISKMAX / BLOCK_SIZE)
    (hc : s.Cached l.blk)
    (h : Q () (s.change l.blk ((s.view l.blk).setBytes (4 * l.idx) (str ++ [0])))) :
    wp (storeString l str) E X Q s := by
  refine wp_bind.mpr (wp_pageAt hb hc (fun p hp => ?_))
  rw [Server.view_of_cache hp] at h
  exact h

/-! ### Looking up a name -/

/-- Every directory has all the blocks that its size covers. -/
def NoHoles (v : View) : Prop :=
  ∀ d, Reach v d → d.type v = FTYPE_DIR → ∀ i, i < d.nblock v → d.slot v i ≠ 0

theorem Fill.nblock (h : Fill s t kept) (hd : Reach s.view d) :
    d.nblock t.view = d.nblock s.view := by
  unfold FilePtr.nblock
  rw [h.kin.size d hd.slotted]

theorem Fill.noHoles (h : Fill s t kept) (hn : NoHoles s.view) : NoHoles t.view := by
  intro d hd ht i hi
  have hd := (h.kin.reach d).mp hd
  rw [h.kin.type d hd.slotted] at ht
  rw [h.nblock hd] at hi
  have hne := hn d hd ht i hi
  have heq : d.slot t.view i = d.slot s.view i := h.refs d (.slot i) hd.slotted hne
  rw [heq]
  exact hne

/-- No directory takes a block with an old page. -/
def NoStale (s : Server) : Prop :=
  CleanFree s ∨ NoHoles s.view

theorem Fill.noStale (h : Fill s t kept) (hn : NoStale s) : NoStale t := hn.imp h.clean h.noHoles

theorem CleanFree.indirectClean (h : CleanFree s) : IndirectClean s F :=
  fun _ b hb hc => h b hb.hi hb.unused hc

theorem NoStale.mayAlloc (h : NoStale s) (hd : Reach s.view d)
    (ht : d.type s.view = FTYPE_DIR) (hi : i < d.nblock s.view) : MayAlloc s d i where
  within := by
    simp only [nblock, extent, BLOCK_SIZE] at hi ⊢
    omega
  indirect := by
    intro hlo
    rcases h with hclean | hholes
    · exact hclean.indirectClean
    · intro hind
      exact absurd (slot_of_no_indirect hlo hind) (hholes d hd ht i hi)
  data := by
    intro _ hzero
    rcases h with hclean | hholes
    · exact hclean
    · exact absurd hzero (hholes d hd ht i hi)

/-- A directory that can be searched. -/
structure OpenDir (s : Server) (d : FilePtr) : Prop where
  reach : Reach s.view d
  type : d.type s.view = FTYPE_DIR
  cached : s.Cached d.blk

theorem OpenDir.of_fill (h : OpenDir s d) (hf : Fill s t kept) : OpenDir t d where
  reach := (hf.kin.reach d).mpr h.reach
  type := (hf.kin.type d h.reach.slotted).trans h.type
  cached := hf.cached _ h.cached

/-- The tree does not depend on `f_dir`. -/
theorem Owned.sameTree_parent (ho : Owned v kept) (hf : Slotted v f) (w : Nat) :
    SameTree v (setAt v f.fDir w) := by
  refine ⟨ho.setAt_word_disk hf, fun g k hg hk => ?_, fun g k hg hi => ?_⟩
  · exact ho.setAt_word hf hg (by omega) (by omega) (fun h => by omega)
  · exact ho.setAt_word_entry hf hg hi k

/-- A file with its directory, as `walk_path` finds it. -/
structure OpenFile (s : Server) (f : FilePtr) : Prop where
  reach : Reach s.view f
  cached : s.Cached f.blk
  fathered : f ≠ .root → Fathered s f

/-- The structures of a block that `file_get_block` gave. -/
theorem dirSlot_inBlock (hi : i < d.nblock v) (hne : d.slot v i ≠ 0) (hj : j < FILE2BLK) :
    DirSlot v d (.inBlock (d.slot v i) j) :=
  ⟨i, j, hi, hne, hj, rfl⟩

/-- What `walk_path` leaves and says. -/
def Walked (s : Server) (kept : Nat → Prop) (r : Walk) (t : Server) : Prop :=
  Fill s t kept ∧
    match r with
    | .found f => OpenFile t f
    | .missing d n => OpenDir t d ∧ NameOk n ∧ n.length < MAXNAMELEN
    | .failed _ => True

section

variable (hs : Sound s kept)
include hs

/-- The store to `f_dir` of a file that has been found. -/
theorem Sound.fill_parent (hd : OpenDir s d) (hf : Slotted s.view f) :
    Fill s (s.put f.fDir d.addr) kept ∧ f.parent (s.put f.fDir d.addr).view = d.addr := by
  have hset : f.parent (setAt s.view f.fDir d.addr) = d.addr := setAt_same s.view f.fDir d.addr
  have hsame := hs.owned.sameTree_parent hf d.addr
  have hunused : ∀ c, c < diskSize s.view →
      (Unused (setAt s.view f.fDir d.addr) c ↔ Unused s.view c) :=
    Owned.unused_congr (fun c hc => setAt_other _ _ _ _ (hs.owned.bitmap_ne_blk hf hc))
  have hkin : Kin (s.put f.fDir d.addr).Cached s.view (setAt s.view f.fDir d.addr) := by
    apply hs.owned.kin_of_sameTree hsame
    intro g hg
    by_cases hgf : g = f
    · subst hgf
      exact .inr ⟨d, hd.reach, hd.type, (grown_put s _ _).cached _ hd.cached, hset⟩
    · exact .inl (hs.owned.setAt_word hf hg (by omega) (by omega) (fun h => hgf h.1))
  have ha := hsame.alike hs.owned
  have hview := s.view_put f.fDir d.addr
  refine ⟨⟨grown_put s _ _, hs.of_grown (grown_put s _ _) ?_ ?_, ?_, ?_, ?_, ?_⟩, ?_⟩
  · rw [hview]
    exact hsame.disk
  · rw [hview]
    exact hs.owned.same hsame hunused
  · rw [hview]
    exact hkin
  · exact Sound.cleanFree_put (hs.owned.blk_used hf) hsame.disk (fun c hc => (hunused c hc).mp)
  · intro g p hg _
    rw [hview]
    exact ha.ref g p hg (fun hex => hex)
  · intro g hg
    rw [hview]
    exact ha.live g hg
  · rw [hview]
    exact hset

theorem tryFile_spec (hd : OpenDir s d) (hn : NameOk name) (hf : DirSlot s.view d f)
    (hc : s.Cached f.blk) :
    wp (tryFile d name f) E X (fun r t => match r with
        | some g => Fill s t kept ∧ OpenFile t g ∧ g ≠ .root
        | none => t = s) s := by
  have hslot : Slotted s.view f := .inr ⟨d, hd.reach, hd.type, hf⟩
  refine wp_bind.mpr (wp_stringAt (hs.owned.blk_lt hslot) hc ?_)
  by_cases hsame : (s.view f.blk).hasBytes (4 * f.off) (name ++ [0]) = true
  · refine wp_pos hsame (wp_bind.mpr ?_)
    refine hs.wp_storeWord hslot hc (by decide) ?_
    obtain ⟨hfill, hparent⟩ := hs.fill_parent hd hslot
    have hreach : Reach s.view f := hd.reach.child ⟨hd.type, hf, live_of_hasBytes hn hsame⟩
    have hd' := hd.of_fill hfill
    exact ⟨hfill, ⟨(hfill.kin.reach f).mpr hreach, hfill.cached _ hc,
      fun _ => .inr ⟨d, hd'.reach, hd'.type, hd'.cached, hparent⟩⟩,
      hs.owned.root_ne_of_dirSlot hd.reach hf⟩
  · exact wp_neg hsame rfl

theorem dirLookup_spec (hd : OpenDir s d) (hn : NameOk name) (hstale : NoStale s) :
    wp (dirLookup d name) E (fun _ t => Fill s t kept)
      (fun f t => Fill s t kept ∧ OpenFile t f ∧ f ≠ .root) s := by
  refine wp_bind.mpr (hs.wp_word hd.reach.slotted hd.cached (by decide) (wp_bind.mpr ?_))
  refine (wp_search_range (n := d.nblock s.view) (I := fun _ t => Fill s t kept)
    (R := fun r t => Fill s t kept ∧ ∀ f, r = some f → OpenFile t f ∧ f ≠ .root)
    (fun i t hi hfill => ?_)
    (fun _ ht => ⟨ht, fun _ h => by cases h⟩) (hs.quiet_of_calm (.refl s)).toFill).post
    (fun r t hr => ?_)
  swap
  · cases r with
    | some f => exact ⟨hr.1, hr.2 f rfl⟩
    | none => exact hr.1
  have hdt := hd.of_fill hfill
  rw [← hfill.nblock hd.reach] at hi
  have hmay := (hfill.noStale hstale).mayAlloc hdt.reach hdt.type hi
  refine (fileGetBlock_spec hfill.sound hdt.reach hdt.cached i hmay).andThen
    (fun _ _ hx => hfill.trans hx.toFill) ?_
  rintro _ u ⟨⟨hfill', _⟩, rfl, hne, hcb, _⟩
  have hdu := hdt.of_fill hfill'
  rw [← hfill'.nblock hdt.reach] at hi
  refine wp_search_range (I := fun _ t => t = u) (fun j w hj hw => ?_)
    (fun _ hw => hw ▸ hfill.trans hfill') rfl
  subst hw
  refine (tryFile_spec hfill'.sound hdu hn (dirSlot_inBlock hi hne hj) hcb).post (fun r w hr => ?_)
  cases r with
  | some => exact ⟨(hfill.trans hfill').trans hr.1, fun _ h => by cases h; exact hr.2⟩
  | none => exact hr

theorem walkFrom_spec (hf : OpenFile s f) (hstale : NoStale s) (elems : List Name)
    (hn : ∀ n ∈ elems, NameOk n) :
    wp (walkFrom f elems) E (fun _ _ => False) (Walked s kept) s := by
  induction elems generalizing s f with
  | nil => exact ⟨(hs.quiet_of_calm (.refl s)).toFill, hf⟩
  | cons name rest ih =>
    have hquiet := (hs.quiet_of_calm (.refl s)).toFill
    by_cases hlen : MAXNAMELEN ≤ name.length
    · exact wp_pos hlen ⟨hquiet, trivial⟩
    refine wp_neg hlen (wp_bind.mpr ?_)
    refine hs.wp_word hf.reach.slotted hf.cached (by decide) ?_
    by_cases ht : f.type s.view = FTYPE_DIR
    · refine wp_neg (not_not.mpr ht) (wp_bind.mpr (wp_attempt.mpr ?_))
      have hd : OpenDir s f := ⟨hf.reach, ht, hf.cached⟩
      refine (dirLookup_spec hs hd (hn name (by simp)) hstale).imp ?_ ?_
      · intro e t hfill
        by_cases hmiss : e = .notFound ∧ rest = []
        · exact wp_pos hmiss ⟨hfill, hd.of_fill hfill, hn name (by simp),
            not_le.mp hlen⟩
        · exact wp_neg hmiss ⟨hfill, trivial⟩
      · rintro _ t ⟨hfill, hg, _⟩
        refine (ih hfill.sound hg (hfill.noStale hstale) (fun n hn' => hn n (by simp [hn']))).post
          ?_
        rintro _ _ ⟨hfill', hr⟩
        exact ⟨hfill.trans hfill', hr⟩
    · exact wp_pos ht ⟨hquiet, trivial⟩

theorem walkPath_spec (hstale : NoStale s) (path : List Byte) :
    wp (walkPath path) E (fun _ _ => False) (Walked s kept) s :=
  walkFrom_spec hs ⟨reach_root _, hs.super, fun h => absurd rfl h⟩ hstale _ (elements_ok path)

theorem fileOpen_spec (hstale : NoStale s) (path : List Byte) :
    wp (fileOpen path) E (fun _ t => Fill s t kept)
      (fun f t => Fill s t kept ∧ OpenFile t f) s := by
  refine (walkPath_spec hs hstale path).andThen (fun _ _ hx => hx.elim) ?_
  rintro r t ⟨hfill, hr⟩
  cases r with
  | found => exact ⟨hfill, hr⟩
  | missing | failed => exact hfill

end

/-! ### New files -/

/-- The state later in a request: the tree is in order, pages stay mapped,
directories and the structures in them stay, and files do unless they are
`gone`. -/
structure After (s t : Server) (kept : Nat → Prop) (gone : FilePtr → Prop) : Prop extends
    Grown s t where
  sound : Sound t kept
  moved : Moved t.Cached s.view t.view
  reach : ∀ g, Reach s.view g → gone g ∨ Reach t.view g

/-- No file is gone. -/
abbrev Later (s t : Server) (kept : Nat → Prop) : Prop :=
  After s t kept (fun _ => False)

variable {gone gone' : FilePtr → Prop}

theorem After.trans (h : After s t kept gone) (h' : After t u kept gone) : After s u kept gone where
  toGrown := h.toGrown.trans h'.toGrown
  sound := h'.sound
  moved := h.moved.trans h'.moved h'.cached
  reach := fun g hg => (h.reach g hg).elim .inl (h'.reach g)

theorem After.mono (h : After s t kept gone) (himp : ∀ g, gone g → gone' g) :
    After s t kept gone' where
  toGrown := h.toGrown
  sound := h.sound
  moved := h.moved
  reach := fun g hg => (h.reach g hg).imp_left (himp g)

theorem Fill.later (h : Fill s t kept) : Later s t kept where
  toGrown := h.toGrown
  sound := h.sound
  moved := h.kin.toMoved
  reach := fun g hg => .inr ((h.kin.reach g).mpr hg)

theorem Resized.later (h : Resized s t kept F) : Later s t kept where
  toGrown := h.toGrown
  sound := h.sound
  moved := h.moved
  reach := fun g hg => .inr ((h.reach g).mpr hg)

/-- A part of a request in which no file goes, before one in which some do. -/
theorem After.of_later (h : Later s t kept) (h' : After t u kept gone) : After s u kept gone :=
  (h.mono (fun _ hg => hg.elim)).trans h'

theorem After.later (h : After s t kept gone) (h' : Later t u kept) : After s u kept gone :=
  h.trans (h'.mono (fun _ hg => hg.elim))

/-- Every directory has a structure that is not in use. -/
def HasRoom (v : View) : Prop :=
  ∀ d, Reach v d → d.type v = FTYPE_DIR → ∃ f, DirSlot v d f ∧ ¬ f.live v

/-- A new file does not take a block with an old page. -/
def CanCreate (s : Server) : Prop :=
  CleanFree s ∨ NoHoles s.view ∧ HasRoom s.view

theorem Fill.dirSlot (h : Fill s t kept) (hd : Reach s.view d) (hf : DirSlot s.view d f) :
    DirSlot t.view d f := by
  obtain ⟨i, j, hi, hne, hj, rfl⟩ := hf
  have heq : d.slot t.view i = d.slot s.view i := h.refs d (.slot i) hd.slotted hne
  refine ⟨i, j, ?_, ?_, hj, ?_⟩
  · rw [h.nblock hd]
    exact hi
  · rw [heq]
    exact hne
  · rw [heq]

theorem Fill.hasRoom (h : Fill s t kept) (hr : HasRoom s.view) : HasRoom t.view := by
  intro d hd ht
  have hd := (h.kin.reach d).mp hd
  rw [h.kin.type d hd.slotted] at ht
  obtain ⟨f, hf, hl⟩ := hr d hd ht
  have hslot : Slotted s.view f := .inr ⟨d, hd, ht, hf⟩
  exact ⟨f, h.dirSlot hd hf, fun hlt => hl ((h.live f hslot).mp hlt)⟩

/-- An unused structure of the directory `d`, ready to take a name. -/
structure FreeSlot (t : Server) (d f : FilePtr) : Prop where
  dir : OpenDir t d
  slot : DirSlot t.view d f
  dead : ¬ f.live t.view
  cached : t.Cached f.blk

/-- The directory `d` has one more block, of zeros; no other file has a new name,
type or size, and no place that was filled has changed. -/
structure Widened (v v' : View) (d : FilePtr) : Prop where
  size : d.size v' = d.size v + BLOCK_SIZE
  sizes : ∀ g, Slotted v g → g ≠ d → g.size v' = g.size v
  type : ∀ g, Slotted v g → g.type v' = g.type v
  name : ∀ g k, Slotted v g → k < 32 → v' g.blk (g.off + k) = v g.blk (g.off + k)
  reach : ∀ g, Reach v' g ↔ Reach v g
  refs : ∀ g p, Slotted v g → g.ref v p ≠ 0 → g.ref v' p = g.ref v p
  block : d.slot v' (d.nblock v) ≠ 0
  zeros : ∀ k, v' (d.slot v' (d.nblock v)) k = 0

theorem Widened.nblock (h : Widened v v' d) : d.nblock v' = d.nblock v + 1 := by
  unfold FilePtr.nblock
  rw [h.size]
  exact add_div_right _ (by decide)

/-- Where `dir_alloc_file` has found the structure `f`: in a block that the
directory `d` had, or in the block by which it has grown. -/
def Allotted (s t : Server) (kept : Nat → Prop) (d f : FilePtr) : Prop :=
  Fill s t kept ∨ ∃ u, Fill s u kept ∧ Widened u.view t.view d ∧
    f = .inBlock (d.slot t.view (d.nblock u.view)) 0

section

variable (hs : Sound s kept)
include hs

theorem Sound.later_of_calm (h : Calm s t) : Later s t kept :=
  (hs.quiet_of_calm h).toFill.later

theorem tryUnused_spec (hf : Slotted s.view f) (hc : s.Cached f.blk) :
    wp (tryUnused f) E X (fun r t => t = s ∧ match r with
        | some g => g = f ∧ ¬ f.live s.view
        | none => f.live s.view) s := by
  refine wp_bind.mpr (wp_stringAt (hs.owned.blk_lt hf) hc ?_)
  by_cases hempty : (s.view f.blk).hasBytes (4 * f.off) ([] ++ [0]) = true
  · exact wp_pos hempty ⟨rfl, rfl, not_live_of_empty hempty⟩
  · exact wp_neg hempty ⟨rfl, live_of_not_empty hempty⟩

/-- The directory grows by a block of zeros. -/
theorem growDir_spec (hd : OpenDir s d) (hclean : CleanFree s)
    (hsize : d.size s.view + BLOCK_SIZE < 2 ^ 32) :
    wp (growDir d (d.nblock s.view)) E (fun _ t => Later s t kept)
      (fun f t => (Later s t kept ∧ NoStale t ∧ FreeSlot t d f) ∧ Widened s.view t.view d ∧
        f = .inBlock (d.slot t.view (d.nblock s.view)) 0) s := by
  have hset : d.size (setAt s.view d.fSize (d.size s.view + BLOCK_SIZE)) =
      d.size s.view + BLOCK_SIZE := setAt_same s.view d.fSize _
  have hword : ∀ g k, Slotted s.view g → k < 64 → ¬ (g = d ∧ k = 32) →
      setAt s.view d.fSize (d.size s.view + BLOCK_SIZE) g.blk (g.off + k) =
        s.view g.blk (g.off + k) :=
    fun g k hg hk hne => hs.owned.setAt_word hd.reach.slotted hg (by decide) hk hne
  have hrw : Rewritten s.view (setAt s.view d.fSize (d.size s.view + BLOCK_SIZE)) d := by
    apply hs.owned.rewritten hd.reach.slotted
    intro b k hbk
    apply setAt_of_ne
    rintro ⟨hb, hk⟩
    have hk : k = d.off + 32 := hk
    exact hbk ⟨hb, by omega, by omega⟩
  have hlive : d.live (setAt s.view d.fSize (d.size s.view + BLOCK_SIZE)) ↔ d.live s.view := by
    have h0 := hword d 0 hd.reach.slotted (by decide) (fun h => by omega)
    rw [add_zero] at h0
    unfold live
    rw [h0]
  obtain ⟨ho, hmoved, hreach⟩ : Owned (setAt s.view d.fSize (d.size s.view + BLOCK_SIZE)) kept ∧
        Moved (s.put d.fSize (d.size s.view + BLOCK_SIZE)).Cached s.view
          (setAt s.view d.fSize (d.size s.view + BLOCK_SIZE)) ∧
        ∀ f, Reach (setAt s.view d.fSize (d.size s.view + BLOCK_SIZE)) f ↔ Reach s.view f :=
    hs.owned.growDir hd.reach hrw hlive hd.type hset
  refine wp_bind.mpr (hs.wp_word hd.reach.slotted hd.cached (by decide) ?_)
  rw [mod_eq_of_lt (show getAt s.view (d.word 32) + BLOCK_SIZE < 2 ^ 32 from hsize)]
  refine wp_bind.mpr (hs.wp_storeWord hd.reach.slotted hd.cached (by decide) ?_)
  change wp _ E _ _ (s.put d.fSize (d.size s.view + BLOCK_SIZE))
  generalize ht : s.put d.fSize (d.size s.view + BLOCK_SIZE) = t
  have hview : t.view = setAt s.view d.fSize (d.size s.view + BLOCK_SIZE) := by
    rw [← ht]
    exact s.view_put _ _
  have hgrown : Grown s t := ht ▸ grown_put s _ _
  rw [ht] at hmoved
  rw [← hview] at hset hword hrw hlive ho hmoved hreach
  have hlater : Later s t kept := ⟨hgrown, hs.of_grown hgrown hrw.disk ho, hmoved,
    fun g hg => .inr ((hreach g).mpr hg)⟩
  have hclean' : CleanFree t := by
    rw [← ht]
    apply Sound.cleanFree_put (hs.owned.blk_used hd.reach.slotted)
    · rw [← hview]
      exact hrw.disk
    · intro c hc
      rw [← hview]
      exact (hrw.unused c hc).mp
    · exact hclean
  have hdt : OpenDir t d := ⟨(hreach d).mpr hd.reach,
    (hrw.type d hd.reach.slotted).trans hd.type, hgrown.cached _ hd.cached⟩
  have hnblock : d.nblock t.view = d.nblock s.view + 1 := by
    simp only [nblock, hset, BLOCK_SIZE]
    omega
  have hi : d.nblock s.view < d.nblock t.view := by omega
  have hempty : d.slot t.view (d.nblock s.view) = 0 := by
    rw [hrw.slot hd.reach.slotted]
    apply hs.owned.within d _ hd.reach
    obtain ⟨_, hm⟩ := hs.owned.whole d hd.reach hd.type
    simp only [extent, nblock, hm, BLOCK_SIZE]
    omega
  have hmay := NoStale.mayAlloc (.inl hclean') hdt.reach hdt.type hi
  refine (fileGetBlock_spec hlater.sound hdt.reach hdt.cached _ hmay).andThen
    (fun _ _ hx => hlater.trans hx.later) ?_
  rintro b u ⟨⟨hfill, _⟩, rfl, hne, hcb, hzero⟩
  have hzero : ∀ k, u.view (d.slot u.view (d.nblock s.view)) k = 0 := by
    intro k
    rw [hzero hdt.type hempty]
    rfl
  have hiu : d.nblock s.view < d.nblock u.view := by
    rw [hfill.nblock hdt.reach]
    exact hi
  refine ⟨⟨hlater.trans hfill.later, .inl (hfill.clean hclean'), hdt.of_fill hfill,
    dirSlot_inBlock hiu hne (by decide), not_live_of_zero hzero, hcb⟩, ?_, rfl⟩
  have hslots := hmoved.slots
  exact {
    size := (hfill.kin.size d (hslots d hd.reach.slotted)).trans hset
    sizes := fun g hg hgd => (hfill.kin.size g (hslots g hg)).trans (hrw.size g hg hgd)
    type := fun g hg => (hfill.kin.type g (hslots g hg)).trans (hrw.type g hg)
    name := fun g k hg hk => (hfill.kin.head g (hslots g hg) k (by omega)).trans
      (hword g k hg (by omega) (fun h => by omega))
    reach := fun g => (hfill.kin.reach g).trans (hreach g)
    refs := by
      intro g p hg hne
      have heq := hrw.ref g p hg
      rw [← heq] at hne
      exact (hfill.refs g p (hslots g hg) hne).trans heq
    block := hne
    zeros := hzero }

/-- The search of `dir_alloc_file`: it ends at an unused structure, or all are
in use. -/
theorem searchUnused_spec (hd : OpenDir s d) (hstale : NoStale s) :
    wp (search (fun i => do
        let b ← fileGetBlock d i
        search (fun j => tryUnused (.inBlock b j)) (List.range FILE2BLK))
          (List.range (d.nblock s.view))) E (fun _ t => Fill s t kept)
      (fun r t => match r with
        | some f => Fill s t kept ∧ FreeSlot t d f
        | none => Fill s t kept ∧ ∀ i, i < d.nblock s.view →
            ∀ j, j < FILE2BLK → (inBlock (d.slot t.view i) j).live t.view) s := by
  -- every structure in the blocks that have been searched is in use
  refine wp_search_range (I := fun i t => Fill s t kept ∧ ∀ k, k < i → d.slot t.view k ≠ 0 ∧
    ∀ j, j < FILE2BLK → (inBlock (d.slot t.view k) j).live t.view)
    (fun i t hi ht => ?_) (fun t ht => ⟨ht.1, fun k hk => (ht.2 k hk).2⟩)
    ⟨(hs.quiet_of_calm (.refl s)).toFill, fun k hk => absurd hk (Nat.not_lt_zero k)⟩
  obtain ⟨hfill, hall⟩ := ht
  have hdt := hd.of_fill hfill
  rw [← hfill.nblock hd.reach] at hi
  have hmay := (hfill.noStale hstale).mayAlloc hdt.reach hdt.type hi
  refine (fileGetBlock_spec hfill.sound hdt.reach hdt.cached i hmay).andThen
    (fun _ _ hx => hfill.trans hx.toFill) ?_
  rintro b u ⟨⟨hfill', _⟩, rfl, hne, hcb, _⟩
  have hdu := hdt.of_fill hfill'
  have hiu := hi
  rw [← hfill'.nblock hdt.reach] at hiu
  refine wp_search_range (I := fun j t => t = u ∧ ∀ k, k < j →
    (inBlock (d.slot u.view i) k).live u.view) (fun j w hj hw => ?_) (fun w hw => ?_)
    ⟨rfl, fun k hk => absurd hk (Nat.not_lt_zero k)⟩
  · obtain ⟨rfl, hlive⟩ := hw
    have hds := dirSlot_inBlock hiu hne hj
    refine (tryUnused_spec hfill'.sound (.inr ⟨d, hdu.reach, hdu.type, hds⟩) hcb).post
      (fun r w hr => ?_)
    obtain ⟨rfl, hr⟩ := hr
    cases r with
    | some =>
      obtain ⟨rfl, hdead⟩ := hr
      exact ⟨hfill.trans hfill', hdu, hds, hdead, hcb⟩
    | none =>
      refine ⟨rfl, fun k hk => ?_⟩
      rcases Nat.lt_succ_iff_lt_or_eq.mp hk with hk | rfl
      · exact hlive k hk
      · exact hr
  · obtain ⟨rfl, hlive⟩ := hw
    refine ⟨hfill.trans hfill', fun k hk => ?_⟩
    rcases Nat.lt_succ_iff_lt_or_eq.mp hk with hk | rfl
    · obtain ⟨hkne, hkl⟩ := hall k hk
      have heq : d.slot w.view k = d.slot t.view k := hfill'.refs d (.slot k) hdt.reach.slotted hkne
      rw [heq]
      refine ⟨hkne, fun j hj => (hfill'.live _ (.inr ⟨d, hdt.reach, hdt.type, ?_⟩)).mpr (hkl j hj)⟩
      exact dirSlot_inBlock (hk.trans hi) hkne hj
    · exact ⟨hne, hlive⟩

theorem dirAllocFile_spec (hd : OpenDir s d) (hcan : CanCreate s)
    (hsize : d.size s.view + BLOCK_SIZE < 2 ^ 32) :
    wp (dirAllocFile d) E (fun _ t => Later s t kept)
      (fun f t => (Later s t kept ∧ NoStale t ∧ FreeSlot t d f) ∧ Allotted s t kept d f) s := by
  have hstale : NoStale s := hcan.imp_right And.left
  refine wp_bind.mpr (hs.wp_word hd.reach.slotted hd.cached (by decide) (wp_bind.mpr ?_))
  refine (searchUnused_spec hs hd hstale).imp (fun _ _ hx => hx.later) (fun r t hr => ?_)
  cases r with
  | some =>
    obtain ⟨hfill, hfree⟩ := hr
    exact ⟨⟨hfill.later, hfill.noStale hstale, hfree⟩, .inl hfill⟩
  | none =>
    obtain ⟨hfill, hall⟩ := hr
    have hdt := hd.of_fill hfill
    have hnblock : d.nblock t.view = d.nblock s.view := by
      unfold nblock
      rw [hfill.kin.size d hd.reach.slotted]
    have hclean : CleanFree t := by
      rcases hcan with hclean | ⟨_, hroom⟩
      · exact hfill.clean hclean
      · obtain ⟨f, ⟨i, j, hi, _, hj, rfl⟩, hl⟩ :=
          hfill.hasRoom hroom d hdt.reach hdt.type
        rw [hnblock] at hi
        exact absurd (hall i hi j hj) hl
    have hsize' : d.size t.view + BLOCK_SIZE < 2 ^ 32 := by
      rw [hfill.kin.size d hd.reach.slotted]
      exact hsize
    have hgrow := growDir_spec hfill.sound hdt hclean hsize' (E := E)
    rw [hnblock] at hgrow
    refine hgrow.imp (fun _ _ hx => hfill.later.trans hx) ?_
    rintro f _ ⟨⟨hlater, hrest⟩, hwide, hf⟩
    rw [← hnblock] at hf
    exact ⟨⟨hfill.later.trans hlater, hrest⟩, .inr ⟨t, hfill, hwide, hf⟩⟩

end

/-- A string that fits in the field `f_name`. -/
theorem Owned.rewritten_name (ho : Owned v kept) (hF : Slotted v F)
    (hlen : str.length < MAXNAMELEN) :
    Rewritten v (update v F.blk ((v F.blk).setBytes (4 * F.off) (str ++ [0]))) F := by
  apply ho.rewritten hF
  intro b k hbk
  by_cases hb : b = F.blk
  · subst hb
    rw [update_self]
    apply Block.setBytes_of_outside
    have hlen : str.length < 128 := hlen
    rw [length_append, length_singleton]
    have : ¬ (F.off ≤ k ∧ k ≤ F.off + 32) := fun h => hbk ⟨rfl, h⟩
    omega
  · rw [update_of_ne hb]

/-- The size lies past the name. -/
theorem size_rewriteName (hlen : str.length < MAXNAMELEN) :
    F.size (update v F.blk ((v F.blk).setBytes (4 * F.off) (str ++ [0]))) = F.size v := by
  have hlen : str.length < 128 := hlen
  change update v F.blk _ F.blk (F.off + 32) = v F.blk (F.off + 32)
  rw [update_self]
  apply Block.setBytes_of_outside
  rw [length_append, length_singleton]
  omega

theorem live_rewriteName (str : List Byte) :
    F.live (update v F.blk ((v F.blk).setBytes (4 * F.off) (str ++ [0]))) ↔
      ∃ c rest, str = c :: rest ∧ c ≠ 0 := by
  unfold live
  rw [update_self, ← Block.byte_four]
  cases str with
  | nil =>
    rw [nil_append, Block.byte_setBytes_head]
    simp
  | cons c rest =>
    rw [cons_append, Block.byte_setBytes_head]
    constructor
    · exact fun h => ⟨c, rest, rfl, fun hc => h (by rw [hc]; rfl)⟩
    · rintro ⟨_, _, heq, hc⟩
      obtain ⟨rfl, _⟩ := cons.inj heq
      exact fun h => hc (Fin.ext h)

end MosSmp.Fs
