import Mathlib.Data.List.Find
import MosSmp.Fs.Names
import MosSmp.Fs.Path

/-!
What a path names. `lookup` and `walkOf` say what `dir_lookup` and `walk_path`
find, as functions of the contents of the blocks alone; where the directories
have all their blocks and there is memory for the pages, `file_open` returns
just that. A file of a tree in order has only one path.
-/

namespace MosSmp.Fs

open Lib Prog Relation FilePtr List Nat

variable {s t : Server} {kept : Nat → Prop} {E : Stop → Prop} {v v' : View}
  {F d f g : FilePtr} {i j : Nat} {name name' : Name} {path : List Byte}

/-- The string in `f_name` is `name`. -/
def Named (v : View) (f : FilePtr) (name : Name) : Prop :=
  (v f.blk).hasBytes (4 * f.off) (name ++ [0]) = true

instance decidableNamed (v : View) (f : FilePtr) (name : Name) : Decidable (Named v f name) :=
  inferInstanceAs (Decidable (_ = _))

/-- The structures in file block `i` of a directory. -/
def blockEntries (v : View) (d : FilePtr) (i : Nat) : List FilePtr :=
  (range FILE2BLK).map (.inBlock (d.slot v i))

/-- The structures of a directory, in the order in which `dir_lookup` goes
through them. -/
def entries (v : View) (d : FilePtr) : List FilePtr :=
  (range (d.nblock v)).flatMap (blockEntries v d)

def lookup (v : View) (d : FilePtr) (name : Name) : Option FilePtr :=
  (entries v d).find? (Named v · name)

def walkOf (v : View) (f : FilePtr) : List Name → Walk
  | [] => .found f
  | name :: rest =>
    if MAXNAMELEN ≤ name.length then .failed .badPath
    else if f.type v ≠ FTYPE_DIR then .failed .notFound
    else
      match lookup v f name with
      | some g => walkOf v g rest
      | none => if rest = [] then .missing f name else .failed .notFound

/-- What `walk_path` leaves behind. -/
def resultOf (v : View) (f : FilePtr) (dir : Option FilePtr) : List Name → WalkResult
  | [] => ⟨.ok (), dir, some f, none⟩
  | name :: rest =>
    if MAXNAMELEN ≤ name.length then .refused .badPath
    else if f.type v ≠ FTYPE_DIR then .refused .notFound
    else
      match lookup v f name with
      | some g => resultOf v g (some f) rest
      | none => if rest = [] then .missing f name else .refused .notFound

theorem walk_resultOf (v : View) (f : FilePtr) (dir : Option FilePtr) (elems : List Name) :
    (resultOf v f dir elems).walk = walkOf v f elems := by
  induction elems generalizing f dir with
  | nil => rfl
  | cons name rest ih =>
    unfold resultOf walkOf
    split
    · rfl
    · split
      · rfl
      · split
        · exact ih _ _
        · split <;> rfl

/-- What `file_open` makes of the result of `walk_path`. -/
def Walk.result : Walk → Except FsErr FilePtr
  | .found f => .ok f
  | .missing _ _ => .error .notFound
  | .failed e => .error e

def openOf (v : View) (path : List Byte) : Except FsErr FilePtr :=
  (walkOf v .root (elements path)).result

/-! ### Strings in a block -/

namespace Block

variable {a : Nat}

theorem hasBytes_cons {p : Block} {c : Byte} {str : List Byte} :
    p.hasBytes a (c :: str) = true ↔ p.byte a = c.val ∧ p.hasBytes (a + 1) str = true := by
  change (_ && _) = true ↔ _
  rw [Bool.and_eq_true, beq_iff_eq]

theorem hasBytes_setBytes (p : Block) (a : Nat) (str : List Byte) :
    (p.setBytes a str).hasBytes a str = true := by
  induction str generalizing p a with
  | nil => rfl
  | cons c rest ih => exact hasBytes_cons.mpr ⟨byte_setBytes_head p a c rest, ih _ _⟩

/-- A string ends at its first NUL. -/
theorem hasBytes_inj {p : Block} (hn : ∀ c ∈ name, c ≠ 0) (hn' : ∀ c ∈ name', c ≠ 0)
    (h : p.hasBytes a (name ++ [0]) = true) (h' : p.hasBytes a (name' ++ [0]) = true) :
    name = name' := by
  induction name generalizing a name' with
  | nil =>
    cases name' with
    | nil => rfl
    | cons c =>
      have h0 := (hasBytes_cons.mp h).1.symm.trans (hasBytes_cons.mp h').1
      exact absurd (Fin.ext h0.symm) (hn' c (by simp))
  | cons c rest ih =>
    cases name' with
    | nil =>
      have h0 := (hasBytes_cons.mp h).1.symm.trans (hasBytes_cons.mp h').1
      exact absurd (Fin.ext h0) (hn c (by simp))
    | cons =>
      obtain ⟨hc, hrest⟩ := hasBytes_cons.mp h
      obtain ⟨hc', hrest'⟩ := hasBytes_cons.mp h'
      rw [Fin.ext (hc.symm.trans hc'), ih (fun x hx => hn x (by simp [hx]))
        (fun x hx => hn' x (by simp [hx])) hrest hrest']

theorem hasBytes_congr {p q : Block} {str : List Byte}
    (h : ∀ k, a / 4 ≤ k → 4 * k < a + str.length → q k = p k) :
    q.hasBytes a str = p.hasBytes a str := by
  induction str generalizing a with
  | nil => rfl
  | cons c rest ih =>
    rw [length_cons] at h
    have hbyte : q.byte a = p.byte a := by
      unfold byte
      rw [h (a / 4) (le_refl _) (by omega)]
    change (q.byte a == c.val && q.hasBytes (a + 1) rest) = _
    rw [hbyte, ih (fun k hlo hhi => h k (by omega) (by omega))]
    rfl

end Block

/-- A name that fits is read from the name field alone. -/
theorem named_congr (h : ∀ k, k < 32 → v' f.blk (f.off + k) = v f.blk (f.off + k))
    (hlen : name.length < MAXNAMELEN) : Named v' f name ↔ Named v f name := by
  have hlen : name.length < 128 := hlen
  unfold Named
  rw [Block.hasBytes_congr]
  intro k hlo hhi
  rw [List.length_append, List.length_singleton] at hhi
  obtain ⟨m, rfl⟩ := Nat.exists_eq_add_of_le (show f.off ≤ k by omega)
  exact h m (by omega)

theorem Named.unique (hn : NameOk name) (hn' : NameOk name') (h : Named v f name)
    (h' : Named v f name') : name = name' :=
  Block.hasBytes_inj hn.bytes hn'.bytes h h'

/-! ### The structures of a directory -/

theorem mem_entries : f ∈ entries v d ↔
    ∃ i j, i < d.nblock v ∧ j < FILE2BLK ∧ f = .inBlock (d.slot v i) j := by
  simp only [entries, blockEntries, mem_flatMap, mem_map, mem_range]
  constructor
  · rintro ⟨i, hi, j, hj, rfl⟩
    exact ⟨i, j, hi, hj, rfl⟩
  · rintro ⟨i, j, hi, hj, rfl⟩
    exact ⟨i, hi, j, hj, rfl⟩

theorem NoHoles.dirSlot_iff (h : NoHoles v) (hd : Reach v d) (ht : d.type v = FTYPE_DIR) :
    DirSlot v d f ↔ f ∈ entries v d := by
  rw [mem_entries]
  constructor
  · rintro ⟨i, j, hi, _, hj, heq⟩
    exact ⟨i, j, hi, hj, heq⟩
  · rintro ⟨i, j, hi, hj, heq⟩
    exact ⟨i, j, hi, h d hd ht i hi, hj, heq⟩

theorem entries_congr (hblocks : d.nblock v' = d.nblock v)
    (hslot : ∀ i, i < d.nblock v → d.slot v' i = d.slot v i) : entries v' d = entries v d := by
  unfold entries
  rw [hblocks]
  apply flatMap_congr
  intro i hi
  unfold blockEntries
  rw [hslot i (mem_range.mp hi)]

theorem lookup_congr (hentries : entries v' d = entries v d)
    (hname : ∀ f ∈ entries v d, Named v' f name ↔ Named v f name) :
    lookup v' d name = lookup v d name := by
  unfold lookup
  rw [hentries]
  apply find?_congr
  intro f hf
  simp only [hname f hf]

theorem lookup_some (h : lookup v d name = some f) : f ∈ entries v d ∧ Named v f name :=
  ⟨mem_of_find?_eq_some h, by simpa using find?_some h⟩

theorem lookup_none (h : lookup v d name = none) (hf : f ∈ entries v d) : ¬ Named v f name := by
  simpa using find?_eq_none.mp h f hf

/-- What is found is a file of the directory. -/
theorem NoHoles.lookup_child (h : NoHoles v) (hd : Reach v d) (ht : d.type v = FTYPE_DIR)
    (hn : NameOk name) (hf : lookup v d name = some f) : Child v d f := by
  obtain ⟨hmem, hnamed⟩ := lookup_some hf
  exact ⟨ht, (h.dirSlot_iff hd ht).mpr hmem, live_of_hasBytes hn hnamed⟩

/-- Where the directories agree on the names so do the walks. -/
theorem resultOf_congr (hholes : NoHoles v) (htype : ∀ f, Reach v f → f.type v' = f.type v)
    (hlookup : ∀ d n, Reach v d → d.type v = FTYPE_DIR → n.length < MAXNAMELEN →
      lookup v' d n = lookup v d n)
    (dir : Option FilePtr) (elems : List Name) (hn : ∀ n ∈ elems, NameOk n) (hf : Reach v f) :
    resultOf v' f dir elems = resultOf v f dir elems := by
  induction elems generalizing f dir with
  | nil => rfl
  | cons name rest ih =>
    unfold resultOf
    by_cases hlen : MAXNAMELEN ≤ name.length
    · rw [if_pos hlen, if_pos hlen]
    rw [if_neg hlen, if_neg hlen, htype f hf]
    by_cases ht : f.type v = FTYPE_DIR
    · rw [if_neg (not_not.mpr ht), if_neg (not_not.mpr ht),
        hlookup f name hf ht (not_le.mp hlen)]
      cases hg : lookup v f name with
      | none => rfl
      | some =>
        have hc := hholes.lookup_child hf ht (hn name (by simp)) hg
        exact ih _ (fun n hn' => hn n (by simp [hn'])) (hf.child hc)
    · rw [if_pos ht, if_pos ht]

/-! ### The code finds what the blocks say -/

section Fill

variable (h : Fill s t kept) (hholes : NoHoles s.view)
include h hholes

theorem Fill.entries (hd : Reach s.view d) (ht : d.type s.view = FTYPE_DIR) :
    entries t.view d = entries s.view d := by
  apply entries_congr (h.nblock hd)
  intro i hi
  exact h.refs d (.slot i) hd.slotted (hholes d hd ht i hi)

theorem Fill.lookup (hd : Reach s.view d) (ht : d.type s.view = FTYPE_DIR)
    (hlen : name.length < MAXNAMELEN) : lookup t.view d name = lookup s.view d name := by
  refine lookup_congr (h.entries hholes hd ht) (fun f hf => ?_)
  have hslot : Slotted s.view f := .inr ⟨d, hd, ht, (hholes.dirSlot_iff hd ht).mpr hf⟩
  exact named_congr (fun k hk => h.kin.head f hslot k (by omega)) hlen

theorem Fill.resultOf {dir : Option FilePtr} (elems : List Name) (hn : ∀ n ∈ elems, NameOk n)
    (hf : Reach s.view f) : resultOf t.view f dir elems = resultOf s.view f dir elems :=
  resultOf_congr hholes (fun g hg => h.kin.type g hg.slotted)
    (fun _ _ hd ht hlen => h.lookup hholes hd ht hlen) dir elems hn hf

theorem Fill.walkOf (elems : List Name) (hn : ∀ n ∈ elems, NameOk n) (hf : Reach s.view f) :
    walkOf t.view f elems = walkOf s.view f elems := by
  rw [← walk_resultOf _ f none, ← walk_resultOf _ f none, h.resultOf hholes elems hn hf]

end Fill

/-- The blocks of the directory have their pages, and so has its indirect block
if it needs one. -/
def Loaded (s : Server) (d : FilePtr) : Prop :=
  ∀ i, i < d.nblock s.view → s.Cached (d.slotLoc s.view i).blk ∧ s.Cached (d.slot s.view i)

/-- Nothing that the tree or the bitmap stores has changed; fields `f_dir` may
have. -/
structure Looked (s t : Server) : Prop where
  tree : SameTree s.view t.view
  bitmap : ∀ b, b < diskSize s.view → t.view (bitmapWord b).blk = s.view (bitmapWord b).blk

theorem Calm.looked (h : Calm s t) : Looked s t := by
  obtain ⟨_, hview, _⟩ := h
  refine ⟨⟨?_, fun g k _ _ => ?_, fun g k _ _ => ?_⟩, fun b _ => ?_⟩ <;> rw [hview]

theorem Looked.trans {u : Server} (h : Looked s t) (hfill : Fill s t kept) (h' : Looked t u) :
    Looked s u where
  tree := by
    refine ⟨h'.tree.disk.trans h.tree.disk, fun g k hg hk => ?_, fun g k hg hi => ?_⟩
    · exact (h'.tree.words g k (hfill.kin.slots g hg) hk).trans (h.tree.words g k hg hk)
    · have heq : g.indirect t.view = g.indirect s.view :=
        indirect_of_words (fun k => h.tree.words g k hg.slotted)
      have hu := h'.tree.entries g k ((hfill.kin.reach g).mpr hg) (by rw [heq]; exact hi)
      rw [heq] at hu
      exact hu.trans (h.tree.entries g k hg hi)
  bitmap := by
    intro b hb
    rw [h'.bitmap b (by rw [h.tree.disk]; exact hb), h.bitmap b hb]

/-- The store to `f_dir` of a file that has been found. -/
theorem Sound.looked_parent (hs : Sound s kept) (hf : Slotted s.view f) (w : Nat) :
    Looked s (s.put f.fDir w) := by
  constructor
  · rw [Server.view_put]
    exact hs.owned.sameTree_parent hf w
  · intro b hb
    rw [Server.view_put]
    exact setAt_other _ _ _ _ (hs.owned.bitmap_ne_blk hf hb)

section Read

variable (hs : Sound s kept)
include hs

section

variable (hF : Reach s.view F) (hc : s.Cached F.blk) (hne : F.slot s.view i ≠ 0)
include hF hc hne

/-- The slot of a block that the file has. -/
theorem fileBlockWalk_filled :
    wp (fileBlockWalk F i true) E (fun e t => e = .noMem ∧ Calm s t ∧
        ¬ (s.Cached (F.slotLoc s.view i).blk ∨ s.mem s.asked = true))
      (fun l t => Calm s t ∧ t.Cached l.blk ∧ l = F.slotLoc s.view i ∧ i < NINDIRECT ∧
        (NDIRECT ≤ i → F.indirect s.view ≠ 0)) s := by
  unfold slot at hne
  unfold slotLoc
  by_cases hlt : i < NDIRECT
  · refine wp_pos hlt ⟨.refl s, hc, ?_, ?_, fun h => absurd hlt (not_lt.mpr h)⟩
    · rw [if_pos hlt]
    · exact lt_trans hlt (by decide)
  · rw [if_neg hlt] at hne
    obtain ⟨hi, hind⟩ : i < NINDIRECT ∧ F.indirect s.view ≠ 0 := by
      by_contra hno
      rw [if_neg hno] at hne
      exact hne rfl
    rw [if_neg hlt]
    refine wp_neg hlt (wp_pos hi (wp_bind.mpr (wp_bind.mpr ?_)))
    refine hs.wp_word hF.slotted hc (by decide) (wp_pos hind (wp_bind.mpr ?_))
    have hused := hs.owned.holding.ref_used F .indirect hF hind
    refine (readBlock_spec hs hused).imp ?_ ?_
    · rintro e t ⟨he, hno, hcalm⟩
      exact ⟨he, hcalm, hno⟩
    · rintro _ t ⟨hcalm, hct⟩
      exact ⟨hcalm, hct, rfl, hi, fun _ => hind⟩

/-- A block that the file has is read, unless memory for its page or for the page
of the indirect block is refused. -/
theorem fileGetBlock_filled :
    wp (fileGetBlock F i) E (fun e t => e = .noMem ∧ Calm s t ∧ ¬ (∀ n, s.mem n = true) ∧
        ¬ (s.Cached (F.slotLoc s.view i).blk ∧ s.Cached (F.slot s.view i)))
      (fun b t => Calm s t ∧ b = F.slot s.view i ∧ t.mem = s.mem ∧
        t.Cached (F.slotLoc s.view i).blk ∧ t.Cached b) s := by
  have hmap : wp (fileMapBlock F i true) E (fun e t => e = .noMem ∧ Calm s t ∧
        ¬ (s.Cached (F.slotLoc s.view i).blk ∨ s.mem s.asked = true))
      (fun b t => Calm s t ∧ b = F.slot s.view i ∧ t.Cached (F.slotLoc s.view i).blk) s := by
    refine (fileBlockWalk_filled hs hF hc hne).bind ?_
    rintro _ t ⟨hcalm, hcl, rfl, hi, hind⟩
    obtain ⟨hu, hidx, _⟩ := hs.slotLoc_ok hF hi hind
    refine wp_bind.mpr (wp_load (hs.lt_of_used hu) hcl hidx ?_)
    rw [hcalm.view, getAt_slotLoc hi hind]
    exact wp_pos hne ⟨hcalm, rfl, hcl⟩
  refine wp_bind.mpr ((hmap.and ((closed_mem s.mem).fileMapBlock F i true s rfl)).mono
    (fun _ hi => hi.1) ?_ ?_)
  · rintro e t ⟨⟨he, hcalm, hno⟩, _⟩
    exact ⟨he, hcalm, fun hmem => hno (.inr (hmem _)), fun hc => hno (.inl hc.1)⟩
  rintro b t ⟨⟨hcalm, rfl, hcl⟩, hmem⟩
  have hused : Used s.view (F.slot s.view i) := hs.owned.holding.ref_used F (.slot i) hF hne
  have hused : Used t.view (F.slot s.view i) := hcalm.view ▸ hused
  have hread := readBlock_spec (E := E) (hs.of_calm hcalm) hused
  refine wp_bind.mpr ((hread.and ((closed_mem s.mem).readBlock _ t hmem)).mono
    (fun _ hi => hi.1) ?_ ?_)
  · rintro e u ⟨⟨he, hno, hcalm'⟩, _⟩
    rw [hmem] at hno
    exact ⟨he, hcalm.trans hcalm', fun hmem => hno (.inr (hmem _)),
      fun hc => hno (.inl (hcalm.cached _ hc.2))⟩
  · rintro _ u ⟨⟨hcalm', hcu⟩, hmem'⟩
    exact ⟨hcalm.trans hcalm', rfl, hmem', hcalm'.cached _ hcl, hcu⟩

end

variable (hholes : NoHoles s.view)
include hholes

/-- What `dir_lookup` finds; a name that it does not find is not there, and all
blocks have been read by then. -/
theorem dirLookup_result (hd : OpenDir s d) (name : Name) : wp (dirLookup d name) E
      (fun e t => Calm s t ∧ (e = .notFound ∧ lookup s.view d name = none ∧ Loaded t d ∨
        e = .noMem ∧ ¬ ∀ n, s.mem n = true))
      (fun f t => Looked s t ∧ lookup s.view d name = some f) s := by
  refine wp_bind.mpr (hs.wp_word hd.reach.slotted hd.cached (by decide) (wp_bind.mpr ?_))
  -- what is left to search: the blocks from `i` on, the structures from `j` on
  refine (wp_search_range (n := d.nblock s.view) (R := fun r t => match r with
      | some f => Looked s t ∧ lookup s.view d name = some f
      | none => Calm s t ∧ lookup s.view d name = none ∧ Loaded t d)
    (I := fun i t => Calm s t ∧ t.mem = s.mem ∧ (∀ k, k < i →
        t.Cached (d.slotLoc s.view k).blk ∧ t.Cached (d.slot s.view k)) ∧
      lookup s.view d name = ((List.range' i (d.nblock s.view - i)).flatMap
        (blockEntries s.view d)).find? (Named s.view · name))
    (fun i t hi ht => ?_) (fun t ht => ?_) ?_).post (fun r t hr => ?_)
  · obtain ⟨hcalm, hmem, hloaded, hlook⟩ := ht
    have hne := hholes d hd.reach hd.type i hi
    have hget := fileGetBlock_filled (E := E) (F := d) (i := i) (hs.of_calm hcalm)
      (by rw [hcalm.view]; exact hd.reach) (hcalm.cached _ hd.cached)
      (by rw [hcalm.view]; exact hne)
    rw [hcalm.view, hmem] at hget
    refine hget.andThen ?_ ?_
    · rintro e u ⟨he, hcalm', hno, _⟩
      exact ⟨hcalm.trans hcalm', .inr ⟨he, hno⟩⟩
    rintro _ u ⟨hcalm', rfl, hmem', hcl, hcb⟩
    have hcalm'' := hcalm.trans hcalm'
    rw [show d.nblock s.view - i = d.nblock s.view - (i + 1) + 1 by omega, List.range'_succ,
      List.flatMap_cons] at hlook
    refine wp_search_range (I := fun j t => t = u ∧ lookup s.view d name =
      ((List.range' j (FILE2BLK - j)).map (inBlock (d.slot s.view i)) ++
        (List.range' (i + 1) (d.nblock s.view - (i + 1))).flatMap
          (blockEntries s.view d)).find? (Named s.view · name))
      (fun j w hj hw => ?_) (fun w hw => ?_)
      ⟨rfl, by rwa [blockEntries, List.range_eq_range'] at hlook⟩
    · obtain ⟨rfl, hlook'⟩ := hw
      rw [show FILE2BLK - j = FILE2BLK - (j + 1) + 1 by omega, List.range'_succ, List.map_cons,
        List.cons_append] at hlook'
      have hslot : Slotted s.view (.inBlock (d.slot s.view i) j) :=
        .inr ⟨d, hd.reach, hd.type, dirSlot_inBlock hi hne hj⟩
      refine wp_bind.mpr (wp_stringAt (hs.owned.blk_lt hslot) hcb ?_)
      rw [hcalm''.view]
      by_cases hsame : Named s.view (.inBlock (d.slot s.view i) j) name
      · have hslot' : Slotted w.view (.inBlock (d.slot s.view i) j) := hcalm''.view ▸ hslot
        have hst := hs.of_calm hcalm''
        refine wp_pos hsame (wp_bind.mpr (hst.wp_storeWord hslot' hcb (by decide) ?_))
        rw [List.find?_cons_of_pos (by simpa using hsame)] at hlook'
        exact ⟨hcalm''.looked.trans (hs.quiet_of_calm hcalm'').toFill
          (hst.looked_parent hslot' _), hlook'⟩
      · rw [List.find?_cons_of_neg (by simpa using hsame)] at hlook'
        exact wp_neg hsame ⟨rfl, hlook'⟩
    · obtain ⟨rfl, hlook'⟩ := hw
      refine ⟨hcalm'', hmem', fun k hk => ?_, hlook'⟩
      rcases Nat.lt_succ_iff_lt_or_eq.mp hk with hk | rfl
      · exact ⟨hcalm'.cached _ (hloaded k hk).1, hcalm'.cached _ (hloaded k hk).2⟩
      · exact ⟨hcl, hcb⟩
  · obtain ⟨hcalm, _, hloaded, hlook⟩ := ht
    rw [Nat.sub_self] at hlook
    refine ⟨hcalm, hlook, fun i hi => ?_⟩
    rw [hcalm.view] at hi ⊢
    exact hloaded i hi
  · refine ⟨.refl s, rfl, fun k hk => absurd hk (Nat.not_lt_zero k), ?_⟩
    rw [Nat.sub_zero, ← List.range_eq_range']
    rfl
  · cases r with
    | some => exact hr
    | none => exact ⟨hr.1, .inl ⟨rfl, hr.2⟩⟩

end Read

section

variable (hs : Sound s kept)
include hs

/-- What `walk_path` finds. Where it misses the last element it has read the
whole directory. -/
theorem walkElems_result (hholes : NoHoles s.view) (hf : OpenFile s f) (dir : Option FilePtr)
    (elems : List Name) (hn : ∀ n ∈ elems, NameOk n) :
    wp (walkElems f dir elems) E (fun _ _ => False) (fun r t => Looked s t ∧
        (r = resultOf s.view f dir elems ∧ (∀ d n, r.walk = .missing d n → Loaded t d) ∨
          r = .refused .noMem ∧ ¬ ∀ n, s.mem n = true)) s := by
  induction elems generalizing s f dir with
  | nil => exact ⟨(Calm.refl s).looked, .inl ⟨rfl, fun _ _ h => by cases h⟩⟩
  | cons name rest ih =>
    unfold resultOf
    by_cases hlen : MAXNAMELEN ≤ name.length
    · rw [if_pos hlen]
      exact wp_pos hlen ⟨(Calm.refl s).looked, .inl ⟨rfl, fun _ _ h => by cases h⟩⟩
    rw [if_neg hlen]
    refine wp_neg hlen (wp_bind.mpr ?_)
    refine hs.wp_word hf.reach.slotted hf.cached (by decide) ?_
    by_cases ht : f.type s.view = FTYPE_DIR
    · rw [if_neg (not_not.mpr ht)]
      refine wp_neg (not_not.mpr ht) (wp_bind.mpr (wp_attempt.mpr ?_))
      have hd : OpenDir s f := ⟨hf.reach, ht, hf.cached⟩
      have hname := hn name (by simp)
      have hlook := ((dirLookup_spec (E := E) hs hd hname (.inr hholes)).and
        (dirLookup_result (E := E) hs hholes hd name)).and
        ((closed_mem s.mem).dirLookup f name s rfl)
      refine hlook.mono (fun _ hi => hi.1.1) ?_ ?_
      · rintro _ t ⟨⟨_, hcalm, ⟨rfl, hnone, hloaded⟩ | ⟨rfl, hno⟩⟩, _⟩
        · rw [hnone]
          by_cases hrest : rest = []
          · rw [if_pos hrest]
            refine wp_pos ⟨rfl, hrest⟩ ⟨hcalm.looked, .inl ⟨rfl, fun d n h => ?_⟩⟩
            cases h
            exact hloaded
          · rw [if_neg hrest]
            exact wp_neg (fun h => hrest h.2) ⟨hcalm.looked, .inl ⟨rfl, fun _ _ h => by cases h⟩⟩
        · exact wp_neg (fun h => by cases h.1) ⟨hcalm.looked, .inr ⟨rfl, hno⟩⟩
      · rintro g t ⟨⟨⟨hfill, hg, _⟩, hlooked, hsome⟩, hmem⟩
        have hrest : ∀ n ∈ rest, NameOk n := fun n hn' => hn n (by simp [hn'])
        rw [hsome]
        refine (ih hfill.sound (hfill.noHoles hholes) hg (some f) hrest).post ?_
        rintro r _ ⟨hlooked', hr⟩
        rw [hfill.resultOf hholes rest hrest ((hfill.kin.reach g).mp hg.reach), hmem] at hr
        exact ⟨hlooked.trans hfill hlooked', hr⟩
    · rw [if_pos ht]
      exact wp_pos ht ⟨(Calm.refl s).looked, .inl ⟨rfl, fun _ _ h => by cases h⟩⟩

theorem walkFrom_result (hholes : NoHoles s.view) (hf : OpenFile s f) (elems : List Name)
    (hn : ∀ n ∈ elems, NameOk n) :
    wp (walkFrom f elems) E (fun _ _ => False) (fun r t => Looked s t ∧
        (r = walkOf s.view f elems ∧ (∀ d n, r = .missing d n → Loaded t d) ∨
          r = .failed .noMem ∧ ¬ ∀ n, s.mem n = true)) s := by
  rw [walkFrom_eq f none]
  refine (walkElems_result hs hholes hf none elems hn).bind ?_
  rintro r t ⟨hlooked, ⟨rfl, hloaded⟩ | ⟨rfl, hno⟩⟩
  · exact ⟨hlooked, .inl ⟨walk_resultOf .., hloaded⟩⟩
  · exact ⟨hlooked, .inr ⟨rfl, hno⟩⟩

theorem walkPath_result (hholes : NoHoles s.view) (path : List Byte) :
    wp (walkPath path) E (fun _ _ => False) (fun r t => Looked s t ∧
        (r = walkOf s.view .root (elements path) ∧ (∀ d n, r = .missing d n → Loaded t d) ∨
          r = .failed .noMem ∧ ¬ ∀ n, s.mem n = true)) s :=
  walkFrom_result hs hholes ⟨reach_root _, hs.super, fun h => absurd rfl h⟩ _ (elements_ok path)

/-- `file_open` returns what the blocks say. -/
theorem fileOpen_result (hmem : ∀ n, s.mem n = true) (hholes : NoHoles s.view) (path : List Byte) :
    ∃ t, fileOpen path s = .ok (openOf s.view path, t) := by
  have hopen : wp (fileOpen path) (fun _ => False) (fun e _ => openOf s.view path = .error e)
      (fun f _ => openOf s.view path = .ok f) s := by
    refine (walkPath_result hs hholes path).andThen (fun _ _ hx => hx.elim) ?_
    rintro r t ⟨_, ⟨rfl, _⟩ | ⟨_, hno⟩⟩
    · unfold openOf
      cases walkOf s.view .root (elements path) with
      | _ => rfl
    · exact absurd hmem hno
  obtain ⟨r, t, hrun⟩ := hopen.total
  refine ⟨t, ?_⟩
  cases r with
  | ok => rw [hopen.value hrun, hrun]
  | error => rw [hopen.error hrun, hrun]

end

/-! ### One path for a file -/

theorem walkOf_some (hlen : name.length < MAXNAMELEN) (ht : f.type v = FTYPE_DIR)
    (hg : lookup v f name = some g) (rest : List Name) :
    walkOf v f (name :: rest) = walkOf v g rest := by
  conv_lhs => unfold walkOf
  rw [if_neg (not_le.mpr hlen), if_neg (not_not.mpr ht), hg]

/-- The first step of a walk. -/
theorem walkOf_cases (v : View) (f : FilePtr) (name : Name) (rest : List Name) :
    (name.length < MAXNAMELEN ∧ f.type v = FTYPE_DIR ∧ ∃ g, lookup v f name = some g) ∨
      (name.length < MAXNAMELEN ∧ f.type v = FTYPE_DIR ∧ lookup v f name = none ∧ rest = [] ∧
        walkOf v f (name :: rest) = .missing f name) ∨
      ∃ e, walkOf v f (name :: rest) = .failed e := by
  conv =>
    rhs
    unfold walkOf
  by_cases hlen : MAXNAMELEN ≤ name.length
  · rw [if_pos hlen]
    exact .inr (.inr ⟨_, rfl⟩)
  rw [if_neg hlen]
  by_cases ht : f.type v = FTYPE_DIR
  · rw [if_neg (not_not.mpr ht)]
    have hlen := not_le.mp hlen
    cases hg : lookup v f name with
    | some g => exact .inl ⟨hlen, ht, g, rfl⟩
    | none =>
      by_cases hrest : rest = []
      · exact .inr (.inl ⟨hlen, ht, rfl, hrest, if_pos hrest⟩)
      · exact .inr (.inr ⟨_, if_neg hrest⟩)
  · rw [if_pos ht]
    exact .inr (.inr ⟨_, rfl⟩)

theorem walkOf_cons_found {rest : List Name} {x : FilePtr}
    (h : walkOf v f (name :: rest) = .found x) :
    name.length < MAXNAMELEN ∧ f.type v = FTYPE_DIR ∧
      ∃ g, lookup v f name = some g ∧ walkOf v g rest = .found x := by
  rcases walkOf_cases v f name rest with ⟨hlen, ht, g, hg⟩ | ⟨_, _, _, _, hm⟩ | ⟨_, he⟩
  · rw [walkOf_some hlen ht hg] at h
    exact ⟨hlen, ht, g, hg, h⟩
  · rw [hm] at h
    cases h
  · rw [he] at h
    cases h

theorem walkOf_append {p q : List Name} (h : walkOf v f p = .found d) :
    walkOf v f (p ++ q) = walkOf v d q := by
  induction p generalizing f with
  | nil =>
    obtain rfl : f = d := by simpa [walkOf] using h
    rfl
  | cons n rest ih =>
    obtain ⟨hlen, ht, _, hg, hrest⟩ := walkOf_cons_found h
    rw [cons_append, walkOf_some hlen ht hg]
    exact ih hrest

variable {elems : List Name}

/-- The last step of a walk that finds a file. -/
theorem walkOf_concat (h : walkOf v f (elems ++ [name]) = .found g) :
    ∃ d, walkOf v f elems = .found d ∧ d.type v = FTYPE_DIR ∧ lookup v d name = some g := by
  induction elems generalizing f with
  | nil =>
    obtain ⟨_, ht, x, hx, hrest⟩ := walkOf_cons_found h
    obtain rfl : x = g := by simpa [walkOf] using hrest
    exact ⟨f, rfl, ht, hx⟩
  | cons n rest ih =>
    obtain ⟨hlen, ht, x, hx, hrest⟩ := walkOf_cons_found h
    rw [walkOf_some hlen ht hx]
    exact ih hrest

/-- A walk that misses only the last element has found its directory. -/
theorem walkOf_missing (h : walkOf v f elems = .missing d name) :
    ∃ p, elems = p ++ [name] ∧ walkOf v f p = .found d ∧ d.type v = FTYPE_DIR ∧
      name.length < MAXNAMELEN ∧ lookup v d name = none := by
  induction elems generalizing f with
  | nil => cases h
  | cons n rest ih =>
    rcases walkOf_cases v f n rest with ⟨hlen, ht, _, hg⟩ | ⟨hlen, ht, hg, rfl, hm⟩ | ⟨_, he⟩
    · rw [walkOf_some hlen ht hg] at h
      obtain ⟨p, rfl, hp, hrest⟩ := ih h
      refine ⟨n :: p, rfl, ?_, hrest⟩
      rw [walkOf_some hlen ht hg]
      exact hp
    · rw [hm] at h
      cases h
      exact ⟨[], rfl, rfl, ht, hlen, hg⟩
    · rw [he] at h
      cases h

/-- A walk stays in the tree. -/
theorem NoHoles.walkOf_reach (hholes : NoHoles v) (hn : ∀ n ∈ elems, NameOk n) (hf : Reach v f)
    (h : walkOf v f elems = .found g) : Reach v g := by
  induction elems using reverseRecOn generalizing g with
  | nil =>
    obtain rfl : f = g := by simpa [walkOf] using h
    exact hf
  | append_singleton rest name ih =>
    obtain ⟨_, hd, ht, hg⟩ := walkOf_concat h
    have hd := ih (fun n hn' => hn n (by simp [hn'])) hd
    exact hd.child (hholes.lookup_child hd ht (hn name (by simp)) hg)

/-- A structure lies in one directory only. -/
theorem Owned.dirSlot_inj (ho : Owned v kept) {d' : FilePtr} (hd : Reach v d) (hd' : Reach v d')
    (hf : DirSlot v d f) (hf' : DirSlot v d' f) : d = d' := by
  obtain ⟨i, _, _, hne, _, rfl⟩ := hf
  obtain ⟨i', _, _, _, _, heq⟩ := hf'
  exact (ho.holding.once d (.slot i) d' (.slot i') hd hd' hne (congrArg blk heq)).1

/-- The file at the end of a path lies in the directory at the end of its
parent path. -/
theorem NoHoles.walkOf_last (hholes : NoHoles v) (hn : ∀ n ∈ elems ++ [name], NameOk n)
    (h : walkOf v .root (elems ++ [name]) = .found f) :
    ∃ d, walkOf v .root elems = .found d ∧ Reach v d ∧ DirSlot v d f ∧ Named v f name := by
  obtain ⟨d, hd, ht, hf⟩ := walkOf_concat h
  have hreach := hholes.walkOf_reach (fun n hn' => hn n (by simp [hn'])) (reach_root v) hd
  have hchild := hholes.lookup_child hreach ht (hn name (by simp)) hf
  exact ⟨d, hd, hreach, hchild.2.1, (lookup_some hf).2⟩

/-- Only the empty path leads to the root. -/
theorem Owned.walkOf_root (ho : Owned v kept) (hholes : NoHoles v) (hn : ∀ n ∈ elems, NameOk n)
    (h : walkOf v .root elems = .found .root) : elems = [] := by
  cases elems using reverseRecOn with
  | nil => rfl
  | append_singleton =>
    obtain ⟨_, _, hd, hslot, _⟩ := hholes.walkOf_last hn h
    exact absurd rfl (ho.root_ne_of_dirSlot hd hslot)

/-- No two paths lead to the same file. -/
theorem Owned.walkOf_inj (ho : Owned v kept) (hholes : NoHoles v) {p p' : List Name}
    (hp : ∀ n ∈ p, NameOk n) (hp' : ∀ n ∈ p', NameOk n)
    (h : walkOf v .root p = .found f) (h' : walkOf v .root p' = .found f) : p = p' := by
  induction p using reverseRecOn generalizing f p' with
  | nil =>
    obtain rfl : FilePtr.root = f := by simpa [walkOf] using h
    exact (ho.walkOf_root hholes hp' h').symm
  | append_singleton q name ih =>
    cases p' using reverseRecOn with
    | nil =>
      obtain rfl : FilePtr.root = f := by simpa [walkOf] using h'
      exact ho.walkOf_root hholes hp h
    | append_singleton q' name' =>
      obtain ⟨_, hw, hd, hslot, hname⟩ := hholes.walkOf_last hp h
      obtain ⟨_, hw', hd', hslot', hname'⟩ := hholes.walkOf_last hp' h'
      obtain rfl := ho.dirSlot_inj hd hd' hslot hslot'
      rw [ih (fun n hn => hp n (by simp [hn])) (fun n hn => hp' n (by simp [hn])) hw hw',
        hname.unique (hp name (by simp)) (hp' name' (by simp)) hname']

end MosSmp.Fs
