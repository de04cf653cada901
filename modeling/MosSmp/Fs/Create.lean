import MosSmp.Fs.Lookup
import MosSmp.Fs.Resize

/-!
A new file. `file_create` extends its directory at most by a block of zeros and
writes a name into an unused structure, and nothing else: where the unused
structures are cleared the new file is an empty regular one, the directory has
one more name, and every other path leads where it led before. A structure
that was a directory stays one when it is used again.
-/

namespace MosSmp.Fs

open Lib Prog Relation FilePtr

variable {s t u : Server} {kept : Nat → Prop} {E : Stop → Prop} {v v' : View}
  {d f g : FilePtr} {name n : Name} {path : List Byte} {mem : Nat → Bool}

/-- The names of the files of a directory. -/
def names (v : View) (d : FilePtr) : Set Name :=
  {n | NameOk n ∧ n.length < MAXNAMELEN ∧ ∃ f, DirSlot v d f ∧ Named v f n}

theorem NoHoles.mem_names (h : NoHoles v) (hd : Reach v d) (ht : d.type v = FTYPE_DIR) :
    n ∈ names v d ↔ NameOk n ∧ n.length < MAXNAMELEN ∧ lookup v d n ≠ none := by
  refine and_congr_right (fun _ => and_congr_right (fun _ => ?_))
  constructor
  · rintro ⟨f, hf, hnamed⟩ hnone
    exact lookup_none hnone ((h.dirSlot_iff hd ht).mp hf) hnamed
  · intro hsome
    obtain ⟨f, hf⟩ := Option.ne_none_iff_exists'.mp hsome
    obtain ⟨hmem, hnamed⟩ := lookup_some hf
    exact ⟨f, (h.dirSlot_iff hd ht).mpr hmem, hnamed⟩

/-- The directory `d` has the structures `extra` besides those it had, all of
zeros; nothing else that a walk looks at has changed. -/
structure Extended (v v' : View) (d : FilePtr) (extra : List FilePtr) : Prop where
  reach : ∀ g, Reach v' g ↔ Reach v g
  type : ∀ g, Slotted v g → g.type v' = g.type v
  sizes : ∀ g, Slotted v g → g ≠ d → g.size v' = g.size v
  name : ∀ g k, Slotted v g → k < 32 → v' g.blk (g.off + k) = v g.blk (g.off + k)
  listed : entries v' d = entries v d ++ extra
  others : ∀ g, Reach v g → g.type v = FTYPE_DIR → g ≠ d → entries v' g = entries v g
  zeros : ∀ g ∈ extra, ∀ k, v' g.blk k = 0
  noHoles : NoHoles v'

section

variable (h : Fill s t kept) (hholes : NoHoles s.view) (hd : Reach s.view d)
  (ht : d.type s.view = FTYPE_DIR)
include h hholes hd ht

theorem Fill.extended : Extended s.view t.view d [] where
  reach := h.kin.reach
  type := h.kin.type
  sizes := fun g hg _ => h.kin.size g hg
  name := fun g k hg hk => h.kin.head g hg k (by omega)
  listed := by rw [h.entries hholes hd ht, List.append_nil]
  others := fun _ hg htg _ => h.entries hholes hg htg
  zeros := fun _ hg => by cases hg
  noHoles := h.noHoles hholes

theorem Extended.of_fill {extra : List FilePtr} (h' : Extended t.view v' d extra) :
    Extended s.view v' d extra where
  reach := fun g => (h'.reach g).trans (h.kin.reach g)
  type := fun g hg => (h'.type g (h.kin.slots g hg)).trans (h.kin.type g hg)
  sizes := fun g hg hgd => (h'.sizes g (h.kin.slots g hg) hgd).trans (h.kin.size g hg)
  name := fun g k hg hk =>
    (h'.name g k (h.kin.slots g hg) hk).trans (h.kin.head g hg k (by omega))
  listed := by rw [h'.listed, h.entries hholes hd ht]
  others := by
    intro g hg htg hgd
    obtain ⟨hg', htg'⟩ := h.kin.dirs g hg htg
    rw [h'.others g hg' htg' hgd, h.entries hholes hg htg]
  zeros := h'.zeros
  noHoles := h'.noHoles

end

theorem Widened.extended (h : Widened v v' d) (hholes : NoHoles v) (hd : Reach v d)
    (ht : d.type v = FTYPE_DIR) : Extended v v' d (blockEntries v' d (d.nblock v)) := by
  have hslot : ∀ g i, Reach v g → g.type v = FTYPE_DIR → i < g.nblock v →
      g.slot v' i = g.slot v i :=
    fun g i hg htg hi => h.refs g (.slot i) hg.slotted (hholes g hg htg i hi)
  have hnblock : ∀ g, Reach v g → g ≠ d → g.nblock v' = g.nblock v := by
    intro g hg hgd
    unfold FilePtr.nblock
    rw [h.sizes g hg.slotted hgd]
  refine ⟨h.reach, h.type, h.sizes, h.name, ?_, ?_, ?_, ?_⟩
  · unfold entries
    rw [h.nblock, List.range_succ, List.flatMap_append, List.flatMap_singleton]
    congr 1
    apply List.flatMap_congr
    intro i hi
    unfold blockEntries
    rw [hslot d i hd ht (List.mem_range.mp hi)]
  · exact fun g hg htg hgd => entries_congr (hnblock g hg hgd) (fun i hi => hslot g i hg htg hi)
  · intro g hg k
    obtain ⟨_, _, rfl⟩ := List.mem_map.mp hg
    exact h.zeros k
  · intro g hg htg i hi
    have hg := (h.reach g).mp hg
    rw [h.type g hg.slotted] at htg
    by_cases hgd : g = d
    · subst hgd
      rw [h.nblock] at hi
      by_cases hlast : i = g.nblock v
      · rw [hlast]
        exact h.block
      · rw [hslot g i hg htg (by omega)]
        exact hholes g hg htg i (by omega)
    · rw [hnblock g hg hgd] at hi
      rw [hslot g i hg htg hi]
      exact hholes g hg htg i hi

/-- The directory has one more name, of a file that is not a directory. -/
structure Entry (v v' : View) (d f : FilePtr) (name : Name) : Prop where
  type : ∀ g, Reach v g → g.type v' = g.type v
  absent : lookup v d name = none
  found : lookup v' d name = some f
  others : ∀ g n, Reach v g → g.type v = FTYPE_DIR → NameOk n → n.length < MAXNAMELEN →
    ¬ (g = d ∧ n = name) → lookup v' g n = lookup v g n
  regular : f.type v' ≠ FTYPE_DIR

/-- The name of the structure that gets it, and of the others. -/
theorem Rewritten.named (h : Rewritten v v' f) (hg : Slotted v g) (hgf : g ≠ f)
    (hlen : n.length < MAXNAMELEN) : Named v' g n ↔ Named v g n :=
  named_congr (fun k hk => h.head g hg hgf k (by omega)) hlen

theorem named_rename (hn : NameOk n) (hname : NameOk name) :
    Named (s.rename f name).view f n ↔ n = name := by
  have hself : Named (s.rename f name).view f name := by
    unfold Named
    rw [Server.view_rename, Function.update_self]
    exact Block.hasBytes_setBytes _ _ _
  constructor
  · exact fun h => h.unique hn hname hself
  · rintro rfl
    exact hself

section Entry

variable {extra : List FilePtr} {w : Server}

theorem FreeSlot.rewritten (hf : FreeSlot w d f) (hs : Sound w kept)
    (hlen : name.length < MAXNAMELEN) : Rewritten w.view (w.rename f name).view f := by
  rw [Server.view_rename]
  exact hs.owned.rewritten_name (.inr ⟨d, hf.dir.reach, hf.dir.type, hf.slot⟩) hlen

variable (h : Extended v w.view d extra)
include h

theorem Extended.not_named_extra (hg : g ∈ extra) (hn : NameOk n) : ¬ Named w.view g n :=
  fun hnamed => not_live_of_zero (h.zeros g hg) (live_of_hasBytes hn hnamed)

theorem Extended.named_old (hholes : NoHoles v) (hd : Reach v d) (ht : d.type v = FTYPE_DIR)
    (hg : g ∈ entries v d) (hlen : n.length < MAXNAMELEN) : Named w.view g n ↔ Named v g n := by
  have hslot : Slotted v g := .inr ⟨d, hd, ht, (hholes.dirSlot_iff hd ht).mpr hg⟩
  exact named_congr (fun k hk => h.name g k hslot hk) hlen

theorem Extended.dirSlot_entry {c : FilePtr} (hc : Reach v c) (ht : c.type v = FTYPE_DIR)
    (hg : g ∈ entries w.view c) : DirSlot w.view c g :=
  (h.noHoles.dirSlot_iff ((h.reach c).mpr hc) ((h.type c hc.slotted).trans ht)).mpr hg

theorem Extended.slotted_entry {c : FilePtr} (hc : Reach v c) (ht : c.type v = FTYPE_DIR)
    (hg : g ∈ entries w.view c) : Slotted w.view g :=
  .inr ⟨c, (h.reach c).mpr hc, (h.type c hc.slotted).trans ht, h.dirSlot_entry hc ht hg⟩

/-- What was looked up before the directory was extended. -/
theorem Extended.lookup_eq (hholes : NoHoles v) (hg : Reach v g) (ht : g.type v = FTYPE_DIR)
    (hn : NameOk n) (hlen : n.length < MAXNAMELEN) : lookup w.view g n = lookup v g n := by
  by_cases hgd : g = d
  · subst hgd
    have hnone : extra.find? (Named w.view · n) = none :=
      List.find?_eq_none.mpr (fun x hx => by simpa using h.not_named_extra hx hn)
    unfold lookup
    rw [h.listed, List.find?_append, hnone, Option.or_none]
    exact List.find?_congr (fun x hx => by simp only [h.named_old hholes hg ht hx hlen])
  · refine lookup_congr (h.others g hg ht hgd) (fun x hx => ?_)
    have hslot : Slotted v x := .inr ⟨g, hg, ht, (hholes.dirSlot_iff hg ht).mpr hx⟩
    exact named_congr (fun k hk => h.name x k hslot hk) hlen

variable (hs : Sound w kept) (hf : FreeSlot w d f) (hn : NameOk name)
  (hlen : name.length < MAXNAMELEN)
include hs hf hlen

theorem Extended.entries_rename (hg : Reach v g) :
    entries (w.rename f name).view g = entries w.view g := by
  have hrw := hf.rewritten hs hlen
  have hgw := (h.reach g).mpr hg
  have hgf : g ≠ f := by
    rintro rfl
    exact hs.owned.not_reach_of_dead hf.dir.reach hf.slot hf.dead hgw
  apply entries_congr
  · unfold nblock
    rw [hrw.size g hgw.slotted hgf]
  · exact fun i _ => hrw.slot hgw.slotted i

include hn

/-- Other names are found as before. -/
theorem Extended.lookup_other (hg : Reach v g) (ht : g.type v = FTYPE_DIR) (hn' : NameOk n)
    (hlen' : n.length < MAXNAMELEN) (hne : ¬ (g = d ∧ n = name)) :
    lookup (w.rename f name).view g n = lookup w.view g n := by
  refine lookup_congr (h.entries_rename hs hf hlen hg) (fun x hx => ?_)
  by_cases hxf : x = f
  · subst hxf
    have hgd : g = d := hs.owned.dirSlot_inj ((h.reach g).mpr hg) hf.dir.reach
      (h.dirSlot_entry hg ht hx) hf.slot
    rw [named_rename hn' hn]
    constructor
    · exact fun heq => absurd ⟨hgd, heq⟩ hne
    · exact fun hx => absurd (live_of_hasBytes hn' hx) hf.dead
  · exact (hf.rewritten hs hlen).named (h.slotted_entry hg ht hx) hxf hlen'

section

variable (hholes : NoHoles v) (hd : Reach v d) (ht : d.type v = FTYPE_DIR)
  (habsent : lookup v d name = none)
include hholes hd ht habsent

/-- The new name is found in the directory that got it. -/
theorem Extended.lookup_new : lookup (w.rename f name).view d name = some f := by
  rw [← h.lookup_eq hholes hd ht hn hlen] at habsent
  have hmem : f ∈ entries w.view d := (h.noHoles.dirSlot_iff hf.dir.reach hf.dir.type).mp hf.slot
  cases hx : lookup (w.rename f name).view d name with
  | none =>
    rw [← h.entries_rename hs hf hlen hd] at hmem
    exact absurd ((named_rename hn hn).mpr rfl) (lookup_none hx hmem)
  | some x =>
    obtain ⟨hxmem, hxname⟩ := lookup_some hx
    rw [h.entries_rename hs hf hlen hd] at hxmem
    by_contra hne
    have hxf : x ≠ f := fun hxf => hne (by rw [hxf])
    apply lookup_none habsent hxmem
    exact ((hf.rewritten hs hlen).named (h.slotted_entry hd ht hxmem) hxf hlen).mp hxname

/-- A name is written into an unused structure of the extended directory. -/
theorem Extended.entry : Entry v (w.rename f name).view d f name where
  type := by
    intro g hg
    rw [(hf.rewritten hs hlen).type g ((h.reach g).mpr hg).slotted, h.type g hg.slotted]
  absent := habsent
  found := h.lookup_new hs hf hn hlen hholes hd ht habsent
  others := by
    intro g n hg htg hn' hlen' hne
    rw [h.lookup_other hs hf hn hlen hg htg hn' hlen' hne, h.lookup_eq hholes hg htg hn' hlen']
  regular := by
    rw [(hf.rewritten hs hlen).type f (.inr ⟨d, hf.dir.reach, hf.dir.type, hf.slot⟩)]
    exact (hs.owned.unused d f hf.dir.reach hf.dir.type hf.slot hf.dead).type

end

end Entry

/-! ### Paths and the new name -/

namespace Entry

variable (h : Entry v v' d f name) (hholes : NoHoles v)
include h hholes

variable {elems : List Name}

/-- Every path that led to a file leads to it still. -/
theorem walkOf_found (hn : ∀ n ∈ elems, NameOk n) (hg : Reach v g) {x : FilePtr}
    (hx : walkOf v g elems = .found x) : walkOf v' g elems = .found x := by
  induction elems generalizing g with
  | nil => exact hx
  | cons n rest ih =>
    obtain ⟨hlen, ht, _, hy, hrest⟩ := walkOf_cons_found hx
    have hname := hn n (by simp)
    have hne : ¬ (g = d ∧ n = name) := by
      rintro ⟨rfl, rfl⟩
      rw [h.absent] at hy
      cases hy
    have hy' := (h.others g n hg ht hname hlen hne).trans hy
    rw [walkOf_some hlen ((h.type g hg).trans ht) hy']
    exact ih (fun m hm => hn m (by simp [hm])) (hg.child (hholes.lookup_child hg ht hname hy)) hrest

/-- A path that does not lead to the new file has the result it had. -/
theorem result_other (hn : ∀ n ∈ elems, NameOk n) (hlen : ∀ n ∈ elems, n.length < MAXNAMELEN)
    (hg : Reach v g) (hne : walkOf v' g elems ≠ .found f) :
    (walkOf v' g elems).result = (walkOf v g elems).result := by
  induction elems generalizing g with
  | nil => rfl
  | cons n rest ih =>
    have hname := hn n (by simp)
    have hlen' := Nat.not_le.mpr (hlen n (by simp))
    unfold walkOf at hne ⊢
    rw [if_neg hlen', h.type g hg] at hne
    rw [if_neg hlen', if_neg hlen', h.type g hg]
    by_cases ht : g.type v = FTYPE_DIR
    · rw [if_neg (not_not.mpr ht)] at hne
      rw [if_neg (not_not.mpr ht), if_neg (not_not.mpr ht)]
      by_cases hnew : g = d ∧ n = name
      · obtain ⟨rfl, rfl⟩ := hnew
        rw [h.found] at hne
        rw [h.absent, h.found]
        -- the new file is not a directory, so the rest of the path is not found
        cases rest with
        | nil => exact absurd rfl hne
        | cons m =>
          dsimp only
          unfold walkOf
          rw [if_neg (Nat.not_le.mpr (hlen m (by simp))), if_pos h.regular]
          rfl
      · rw [h.others g n hg ht hname (hlen n (by simp)) hnew] at hne ⊢
        cases hlook : lookup v g n with
        | none => rfl
        | some =>
          rw [hlook] at hne
          exact ih (fun m hm => hn m (by simp [hm])) (fun m hm => hlen m (by simp [hm]))
            (hg.child (hholes.lookup_child hg ht hname hlook)) hne
    · rw [if_pos ht, if_pos ht]

/-- The directory has its old names and the new one. -/
theorem names_eq (hholes' : NoHoles v') (hd : Reach v d) (ht : d.type v = FTYPE_DIR)
    (hd' : Reach v' d) (hn : NameOk name) (hlen : name.length < MAXNAMELEN) :
    names v' d = insert name (names v d) := by
  ext n
  rw [Set.mem_insert_iff, hholes'.mem_names hd' ((h.type d hd).trans ht), hholes.mem_names hd ht]
  by_cases hnew : n = name
  · subst hnew
    rw [h.found]
    exact ⟨fun _ => .inl rfl, fun _ => ⟨hn, hlen, Option.some_ne_none f⟩⟩
  · constructor
    · rintro ⟨hok, hl, hlook⟩
      rw [h.others d n hd ht hok hl (fun hne => hnew hne.2)] at hlook
      exact .inr ⟨hok, hl, hlook⟩
    · rintro (heq | ⟨hok, hl, hlook⟩)
      · exact absurd heq hnew
      · rw [← h.others d n hd ht hok hl (fun hne => hnew hne.2)] at hlook
        exact ⟨hok, hl, hlook⟩

end Entry

/-! ### The code -/

theorem Allotted.extended (h : Allotted s t kept d f) (hholes : NoHoles s.view)
    (hd : Reach s.view d) (ht : d.type s.view = FTYPE_DIR) :
    ∃ extra, Extended s.view t.view d extra := by
  rcases h with hfill | ⟨_, hfill, hwide, _⟩
  · exact ⟨[], hfill.extended hholes hd ht⟩
  · obtain ⟨hdu, htu⟩ := hfill.kin.dirs d hd ht
    exact ⟨_, .of_fill hfill hholes hd ht (hwide.extended (hfill.noHoles hholes) hdu htu)⟩

/-- The state before `file_create` writes the name, and that name. -/
structure Creating (s t w : Server) (kept : Nat → Prop) (path : List Byte) (d f : FilePtr)
    (name : Name) : Prop where
  missing : walkOf s.view .root (elements path) = .missing d name
  extended : ∃ extra, Extended s.view w.view d extra
  sound : Sound w kept
  free : FreeSlot w d f
  eq : t = w.rename f name

theorem fileCreate_writes (hs : Sound s kept) (hmem : ∀ n, s.mem n = true)
    (hholes : NoHoles s.view) (hcan : CanCreate s) (hsmall : SmallDirs s.view)
    (path : List Byte) :
    wp (fileCreate path) E (fun _ _ => True)
      (fun f t => ∃ d name w, Creating s t w kept path d f name) s := by
  have hwalk := (walkPath_spec (E := E) hs (.inr hholes) path).and
    (walkPath_result (E := E) hs hholes path)
  refine wp_bind.mpr (hwalk.mono (fun _ hi => hi.1) (fun _ _ _ => trivial) ?_)
  rintro r t ⟨⟨hfill, hr⟩, _, hwalk⟩
  have hwalk : r = walkOf s.view .root (elements path) := by
    rcases hwalk with ⟨heq, _⟩ | ⟨_, hno⟩
    · exact heq
    · exact absurd hmem hno
  cases r with
  | found | failed => trivial
  | missing d n =>
    obtain ⟨hd, _, _⟩ := hr
    have hsize := hfill.smallDirs hsmall d hd.reach hd.type
    refine (dirAllocFile_spec hfill.sound hd
      (hfill.canCreate hcan) hsize).attempt (fun _ _ _ => trivial) ?_
    rintro f w ⟨⟨hlater, _, hfree⟩, hallot⟩
    have hslot : Slotted w.view f := .inr ⟨d, hfree.dir.reach, hfree.dir.type, hfree.slot⟩
    refine wp_bind.mpr (wp_storeString (hlater.sound.owned.blk_lt hslot) hfree.cached ?_)
    obtain ⟨extra, hext⟩ := hallot.extended (hfill.noHoles hholes) hd.reach hd.type
    have hds := (hfill.kin.reach d).mp hd.reach
    have hts := (hfill.kin.type d hds.slotted).symm.trans hd.type
    exact ⟨d, n, w, hwalk.symm, ⟨extra, .of_fill hfill hholes hds hts hext⟩, hlater.sound, hfree,
      rfl⟩

/-- The unused structures of the directories are cleared. -/
def FreshSlots (v : View) : Prop :=
  ∀ d f, Reach v d → d.type v = FTYPE_DIR → DirSlot v d f → ¬ f.live v →
    f.size v = 0 ∧ f.type v = FTYPE_REG

/-- The structure that gets the name is cleared. -/
theorem Extended.fresh {extra : List FilePtr} (h : Extended v v' d extra) (hholes : NoHoles v)
    (hfresh : FreshSlots v) (hd : Reach v d) (ht : d.type v = FTYPE_DIR)
    (hf : f ∈ entries v' d) (hfd : f ≠ d) (hdead : ¬ f.live v') :
    f.size v' = 0 ∧ f.type v' = FTYPE_REG := by
  rw [h.listed] at hf
  rcases List.mem_append.mp hf with hold | hnew
  · have hds := (hholes.dirSlot_iff hd ht).mpr hold
    have hslot : Slotted v f := .inr ⟨d, hd, ht, hds⟩
    have h0 := h.name f 0 hslot (by omega)
    rw [h.sizes f hslot hfd, h.type f hslot]
    apply hfresh d f hd ht hds
    rw [Nat.add_zero] at h0
    unfold live at hdead ⊢
    rwa [h0] at hdead
  · exact ⟨h.zeros f hnew _, h.zeros f hnew _⟩

/-- An empty regular file. -/
structure EmptyFile (v : View) (f : FilePtr) : Prop where
  size : f.size v = 0
  type : f.type v = FTYPE_REG
  direct : ∀ i, i < NDIRECT → f.direct v i = 0
  indirect : f.indirect v = 0

namespace Creating

variable {w : Server} (h : Creating s t w kept path d f name)
include h

section

variable (hholes : NoHoles s.view)
include hholes

/-- The directory that gets the name, and the name. -/
theorem parent : ∃ p, elements path = p ++ [name] ∧
    walkOf s.view .root p = .found d ∧ Reach s.view d ∧ d.type s.view = FTYPE_DIR ∧
    NameOk name ∧ name.length < MAXNAMELEN := by
  obtain ⟨p, hp, hfound, ht, hlen, _⟩ := walkOf_missing h.missing
  have hok := elements_ok path
  rw [hp] at hok
  have hreach := hholes.walkOf_reach (fun n hn => hok n (by simp [hn])) (reach_root _) hfound
  exact ⟨p, hp, hfound, hreach, ht, hok name (by simp), hlen⟩

theorem entry : Entry s.view t.view d f name := by
  obtain ⟨_, _, _, hd, ht, hn, hlen⟩ := h.parent hholes
  obtain ⟨_, _, _, _, _, habsent⟩ := walkOf_missing h.missing
  obtain ⟨_, hext⟩ := h.extended
  rw [h.eq]
  exact hext.entry h.sound h.free hn hlen hholes hd ht habsent

theorem later : Later w t kept ∧ NoHoles t.view := by
  obtain ⟨_, _, _, _, _, hn, hlen⟩ := h.parent hholes
  obtain ⟨_, hext⟩ := h.extended
  obtain ⟨hlater, _, hnoholes⟩ := h.sound.entered h.free hn hlen
  rw [h.eq]
  exact ⟨hlater, hnoholes hext.noHoles⟩

theorem emptyFile (hfresh : FreshSlots s.view) : EmptyFile t.view f := by
  obtain ⟨_, _, _, hd, ht, _, hlen⟩ := h.parent hholes
  obtain ⟨_, hext⟩ := h.extended
  have hfree := h.free
  have howned := h.sound.owned
  have hslot : Slotted w.view f := .inr ⟨d, hfree.dir.reach, hfree.dir.type, hfree.slot⟩
  have hblank := howned.unused d f hfree.dir.reach hfree.dir.type hfree.slot hfree.dead
  have hfd : f ≠ d := by
    rintro rfl
    exact howned.not_reach_of_dead hfree.dir.reach hfree.slot hfree.dead hfree.dir.reach
  have hmem := (hext.noHoles.dirSlot_iff hfree.dir.reach hfree.dir.type).mp hfree.slot
  obtain ⟨hsize, htype⟩ := hext.fresh hholes hfresh hd ht hmem hfd hfree.dead
  have hrw : Rewritten w.view (w.rename f name).view f := hfree.rewritten h.sound hlen
  rw [h.eq]
  refine ⟨?_, (hrw.type f hslot).trans htype, fun i hi => ?_, ?_⟩
  · rw [Server.view_rename]
    exact (size_rewriteName hlen).trans hsize
  · have hzero := (hrw.slot hslot i).trans (hblank.ref (.slot i))
    unfold slot at hzero
    rwa [if_pos hi] at hzero
  · exact (hrw.ref f .indirect hslot).trans (hblank.ref .indirect)

/-- The path of the new file leads to it, and to no other does another path. -/
theorem openOf_new : walkOf t.view .root (elements path) = .found f := by
  obtain ⟨_, hp, hfound, hd, ht, hn, hlen⟩ := h.parent hholes
  have hentry := h.entry hholes
  have hok := elements_ok path
  rw [hp] at hok ⊢
  have hfound' := hentry.walkOf_found hholes (fun n hn => hok n (by simp [hn])) (reach_root _)
    hfound
  rw [walkOf_append hfound', walkOf_some hlen ((hentry.type d hd).trans ht) hentry.found]
  rfl

theorem openOf_other {other : List Byte} (hne : elements other ≠ elements path)
    (hlen : ∀ n ∈ elements other, n.length < MAXNAMELEN) :
    openOf t.view other = openOf s.view other := by
  obtain ⟨hlater, hholes'⟩ := h.later hholes
  refine (h.entry hholes).result_other hholes (elements_ok other) hlen (reach_root _) ?_
  intro hfound
  exact hne (hlater.sound.owned.walkOf_inj hholes' (elements_ok other) (elements_ok path) hfound
    (h.openOf_new hholes))

end

end Creating

/-- With the directories whole, with memory for the pages and with cleared
structures to use, `file_create` adds an empty regular file and nothing else. -/
theorem fileCreate_adds (hreach : (server Formatted).ReachableUnder Legal s)
    (hmem : ∀ n, mem n = true) (hholes : NoHoles s.view) (hcan : CanCreate (s.entered mem))
    (hsmall : SmallDirs s.view) (hfresh : FreshSlots s.view)
    (hrun : fileCreate path (s.entered mem) = .ok (.ok f, t)) :
    (∃ dir p name, elements path = p ++ [name] ∧ walkOf s.view .root p = .found dir ∧
      names t.view dir = insert name (names s.view dir)) ∧
    EmptyFile t.view f ∧
    (∃ u, fileOpen path t = .ok (.ok f, u)) ∧
    ∀ other, elements other ≠ elements path → (∀ n ∈ elements other, n.length < MAXNAMELEN) →
      ∃ r u u', fileOpen other (s.entered mem) = .ok (r, u) ∧ fileOpen other t = .ok (r, u') := by
  have hsound := ((running_of_legal hreach).served mem).after.sound
  obtain ⟨d, name, _, hc⟩ := (fileCreate_writes (E := fun _ => True) hsound hmem hholes hcan hsmall
    path).value hrun
  obtain ⟨p, hp, hfound, hd, ht, hn, hlen⟩ := hc.parent hholes
  obtain ⟨hlater, hholes'⟩ := hc.later hholes
  obtain ⟨_, _⟩ := hc.extended
  have hd' := (hlater.moved.dirs d hc.free.dir.reach hc.free.dir.type).1
  have hmem' : t.mem = mem := ((closed_mem mem).fileCreate path (s.entered mem) rfl).value hrun
  have hopen := fileOpen_result hlater.sound (by rw [hmem']; exact hmem) hholes'
  refine ⟨⟨d, p, name, hp, hfound, (hc.entry hholes).names_eq hholes hholes' hd ht hd' hn hlen⟩,
    hc.emptyFile hholes hfresh, ?_, fun other hne hlens => ?_⟩
  · obtain ⟨u, hu⟩ := hopen path
    unfold openOf at hu
    rw [hc.openOf_new hholes] at hu
    exact ⟨u, hu⟩
  · obtain ⟨u, hu⟩ := fileOpen_result hsound hmem hholes other
    obtain ⟨u', hu'⟩ := hopen other
    rw [hc.openOf_other hholes hne hlens] at hu'
    exact ⟨_, u, u', hu, hu'⟩

/-- The first file on an empty disk. -/
theorem fileCreate_adds_first :
    ∃ t, fileCreate pathA (mounted.entered enough) = .ok (.ok fileA, t) ∧
      (∃ dir p name, elements pathA = p ++ [name] ∧ walkOf mounted.view .root p = .found dir ∧
        names t.view dir = insert name (names mounted.view dir)) ∧
      EmptyFile t.view fileA ∧ ∃ u, fileOpen pathA t = .ok (.ok fileA, u) := by
  have hroot : root.size mounted.view = 0 := by decide +kernel
  have hblocks : ∀ d i, Reach mounted.view d → ¬ i < d.nblock mounted.view := by
    intro d i hd hi
    unfold nblock at hi
    rw [reach_of_empty_root hroot hd, hroot] at hi
    exact absurd hi (Nat.not_lt_zero i)
  obtain ⟨hcan, hsmall⟩ := mounted_mayOpen.create (by decide)
  have hruns : (fileCreate pathA).yields (fun f _ => decide (f = fileA))
      (mounted.entered enough) = true := by decide +kernel
  obtain ⟨f, t, ht, hf⟩ := exists_of_yields hruns
  obtain rfl := of_decide_eq_true hf
  obtain ⟨hparent, hempty, hopen, _⟩ := fileCreate_adds (.init mounted_init) (fun _ => rfl)
    (fun d hd _ i hi => absurd hi (hblocks d i hd)) hcan hsmall
    (fun d _ hd _ ⟨i, _, hi, _⟩ => absurd hi (hblocks d i hd)) ht
  exact ⟨t, ht, hparent, hempty, hopen⟩

/-! ### A directory comes back -/

/-- Sixteen blocks; the root has one block, with the empty directory `/d`. -/
def imageD (b k : Nat) : Nat :=
  if b = 1 then
    if k = 0 then FS_MAGIC else if k = 1 then 16 else if k = 34 then BLOCK_SIZE
    else if k = 35 then FTYPE_DIR else if k = 36 then 3 else 0
  else if b = 2 ∧ k = 0 then 0xfff0
  else if b = 3 then (if k = 0 then 100 else if k = 33 then FTYPE_DIR else 0)
  else 0

/-- The root has one block, and in it only an empty directory. -/
structure OnlyD (v : View) : Prop where
  blocks : root.nblock v = 1
  first : root.slot v 0 = 3
  live : ∀ j, j < FILE2BLK → (inBlock 3 j).live v → j = 0
  empty : fileA.nblock v = 0

theorem OnlyD.reach (hv : OnlyD v) (h : Reach v f) : f = .root ∨ f = fileA := by
  induction h with
  | refl => exact .inl rfl
  | tail _ hc ih =>
    obtain ⟨_, ⟨i, j, hi, _, hj, rfl⟩, hlive⟩ := hc
    rcases ih with rfl | rfl
    · rw [hv.blocks] at hi
      obtain rfl : i = 0 := by omega
      rw [hv.first] at hlive ⊢
      rw [hv.live j hj hlive]
      exact .inr rfl
    · rw [hv.empty] at hi
      exact absurd hi (Nat.not_lt_zero i)

theorem OnlyD.noHoles (hv : OnlyD v) : NoHoles v := by
  intro d hd _ i hi
  rcases hv.reach hd with rfl | rfl
  · rw [hv.blocks] at hi
    obtain rfl : i = 0 := by omega
    rw [hv.first]
    decide
  · rw [hv.empty] at hi
    exact absurd hi (Nat.not_lt_zero i)

theorem onlyD_image : OnlyD imageD := ⟨rfl, rfl, by decide, rfl⟩

theorem root_slot_imageD (i : Nat) : root.slot imageD i = if i = 0 then 3 else 0 := by
  have hind : root.indirect imageD = 0 := rfl
  unfold slot
  by_cases hi : i < NDIRECT
  · rw [if_pos hi]
    have hall : ∀ i, i < NDIRECT → root.direct imageD i = if i = 0 then 3 else 0 := by
      decide
    exact hall i hi
  · have hi0 : i ≠ 0 := by
      rintro rfl
      exact hi (by decide)
    rw [if_neg hi, if_neg (fun hc => hc.2 hind), if_neg hi0]

theorem blank_refs_imageD {j : Nat} (hj : j < FILE2BLK) (p : Place) :
    (inBlock 3 j).ref imageD p = 0 := by
  have hall : ∀ j, j < FILE2BLK → (inBlock 3 j).indirect imageD = 0 ∧
      ∀ i, i < NDIRECT → (inBlock 3 j).direct imageD i = 0 := by decide
  obtain ⟨hind, hdirect⟩ := hall j hj
  cases p with
  | indirect => exact hind
  | slot i =>
    change (inBlock 3 j).slot imageD i = 0
    unfold slot
    by_cases hi : i < NDIRECT
    · rw [if_pos hi, hdirect i hi]
    · rw [if_neg hi, if_neg (fun hc => hc.2 hind)]

/-- Block 3 is all that the files hold. -/
theorem ref_imageD {p : Place} (h : Reach imageD f) (hne : f.ref imageD p ≠ 0) :
    f = .root ∧ p = .slot 0 ∧ f.ref imageD p = 3 := by
  rcases onlyD_image.reach h with rfl | rfl
  · cases p with
    | indirect => exact absurd rfl hne
    | slot i =>
      have heq : root.ref imageD (.slot i) = if i = 0 then 3 else 0 := root_slot_imageD i
      by_cases hi : i = 0
      · subst hi
        exact ⟨rfl, rfl, heq⟩
      · rw [heq, if_neg hi] at hne
        exact absurd rfl hne
  · exact absurd (blank_refs_imageD (j := 0) (by decide) p) hne

theorem used_imageD_iff (b : Nat) : Used imageD b ↔ b < 4 := by
  have hall : ∀ b, b < 16 →
      ((getAt imageD (bitmapWord b)).testBit (b % 32) = true ↔ 4 ≤ b) := by decide
  have hsize : diskSize imageD = 16 := rfl
  unfold Used
  rw [hsize]
  constructor
  · rintro ⟨hlt, hn⟩
    by_contra hb
    exact hn ((hall b hlt).mpr (Nat.not_lt.mp hb))
  · exact fun hb => ⟨by omega, fun hu => absurd ((hall b (by omega)).mp hu) (by omega)⟩

theorem owned_imageD : Owned imageD (Reserved imageD) := by
  have hres : ∀ b, Reserved imageD b ↔ b < 3 := fun _ => Iff.rfl
  exact {
    holding := {
      ref_used := by
        intro f p hf hne
        rw [(ref_imageD hf hne).2.2, used_imageD_iff]
        decide
      once := by
        intro f p g q hf hg hne heq
        obtain ⟨rfl, rfl, _⟩ := ref_imageD hf hne
        rw [heq] at hne
        obtain ⟨rfl, rfl, _⟩ := ref_imageD hg hne
        exact ⟨rfl, rfl⟩
      apart := by
        intro f p hf hne
        rw [(ref_imageD hf hne).2.2, hres]
        decide
      kept_used := by
        intro b hb
        rw [hres] at hb
        rw [used_imageD_iff]
        omega
      covered := by
        intro b hb
        rw [used_imageD_iff] at hb
        by_cases h3 : b < 3
        · exact .inl h3
        · obtain rfl : b = 3 := by omega
          exact .inr ⟨.root, .slot 0, reach_root _, by decide, rfl⟩ }
    reserved := fun _ hb => hb
    bound := by decide
    root := rfl
    within := by
      intro f i hf hi
      by_contra hne
      obtain ⟨rfl, hp, _⟩ := ref_imageD (p := .slot i) hf hne
      obtain rfl : i = 0 := Place.slot.inj hp
      exact absurd hi (by decide)
    regular := by
      intro f hf ht
      rcases onlyD_image.reach hf with rfl | rfl <;> exact absurd rfl ht
    whole := by
      intro f hf _
      rcases onlyD_image.reach hf with rfl | rfl
      · exact ⟨1, rfl⟩
      · exact ⟨0, rfl⟩
    unused := by
      rintro _ f hd _ ⟨i, j, hi, hne, hj, rfl⟩ hdead
      obtain ⟨rfl, _, hslot⟩ := ref_imageD (p := .slot i) hd hne
      have hslot : root.slot imageD i = 3 := hslot
      rw [hslot] at hdead ⊢
      have hall : ∀ j, j < FILE2BLK → ¬ (inBlock 3 j).live imageD →
          (inBlock 3 j).type imageD ≠ FTYPE_DIR ∧
            (inBlock 3 j).size imageD ≤ MAXFILESIZE := by decide
      obtain ⟨ht, hsize⟩ := hall j hj hdead
      exact ⟨blank_refs_imageD hj, ht, hsize⟩ }

def mountedD : Server :=
  (mount imageD enough).getD (powerOn imageD enough)

theorem mountD_init : (server Formatted).init mountedD := by
  refine ⟨imageD, enough, ⟨owned_imageD, fun _ => rfl⟩, ?_⟩
  have hsome : (mount imageD enough).isSome = true := by decide +kernel
  obtain ⟨_, hs⟩ := Option.isSome_iff_exists.mp hsome
  unfold mountedD
  rw [hs]
  rfl

theorem onlyD_mounted : OnlyD mountedD.view :=
  ⟨by decide +kernel, by decide +kernel, by decide +kernel, by decide +kernel⟩

/-- The directory `/d` is removed and `/a` is created: a directory. -/
theorem createdDirectory_reachable : ∃ s f t, (server Formatted).Reachable s ∧
      fileCreate pathA (s.entered enough) = .ok (.ok f, t) ∧ f.type t.view = FTYPE_DIR := by
  have hstart : (server Formatted).Reachable mountedD := .init mountD_init
  obtain ⟨s, hs, hruns⟩ := Machine.exists_reachableUnder_of_exec
    (P := fun s : Server => (fileCreate pathA).yields
      (fun f t => decide (f.type t.view = FTYPE_DIR)) (s.entered enough) = true)
    [.request 1 (.remove [47, 100]) enough] hstart (by decide +kernel)
  obtain ⟨f, t, hrun, ht⟩ := exists_of_yields hruns
  exact ⟨s, f, t, hs, hrun, of_decide_eq_true ht⟩

end MosSmp.Fs
