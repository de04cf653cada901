import MosSmp.Fs.Walk

/-!
A new name and a name that goes: `file_create` gives an unused structure a
name, `file_remove` truncates a file and takes its name away. `findFile` is the
part of `serve_open` that goes from a path to a file.
-/

namespace MosSmp.Fs

open Lib Prog Relation Server

variable {s t u : Server} {kept : Nat → Prop} {E : Stop → Prop} {X : FsErr → Server → Prop}
  {F d f : FilePtr} {name : Name} {path : List Byte}

/-- The state after `strcpy(F->f_name, str)`. -/
def Server.rename (s : Server) (F : FilePtr) (str : List Byte) : Server :=
  s.change F.blk ((s.view F.blk).setBytes (4 * F.off) (str ++ [0]))

theorem Server.view_rename (s : Server) (F : FilePtr) (str : List Byte) : (s.rename F str).view =
      Function.update s.view F.blk ((s.view F.blk).setBytes (4 * F.off) (str ++ [0])) :=
  s.view_change F.blk _

/-- No directory loses blocks when a regular file joins the tree. -/
theorem NoHoles.of_rewritten {v v' : View} (hn : NoHoles v) (h : Rewritten v v' F)
    (hF : Slotted v F) (ht : F.type v ≠ FTYPE_DIR)
    (hreach : ∀ f, Reach v' f → Reach v f ∨ f = F) : NoHoles v' := by
  intro d hd htd i hi
  rcases hreach d hd with hd | rfl
  · have hdF : d ≠ F := by
      rintro rfl
      exact ht ((h.type d hF).symm.trans htd)
    rw [h.type d hd.slotted] at htd
    unfold FilePtr.nblock at hi
    rw [h.size d hd.slotted hdF] at hi
    rw [h.slot hd.slotted]
    exact hn d hd htd i hi
  · exact absurd ((h.type d hF).symm.trans htd) ht

theorem Fill.canCreate (h : Fill s t kept) (hcan : CanCreate s) : CanCreate t :=
  hcan.imp h.clean (fun hn => ⟨h.noHoles hn.1, h.hasRoom hn.2⟩)

/-- The sizes of the directories are not close to wrapping. -/
def SmallDirs (v : View) : Prop :=
  ∀ d, Reach v d → d.type v = FTYPE_DIR → d.size v + BLOCK_SIZE < 2 ^ 32

theorem Fill.smallDirs (h : Fill s t kept) (hsmall : SmallDirs s.view) : SmallDirs t.view := by
  intro d hd ht
  have hd := (h.kin.reach d).mp hd
  rw [h.kin.type d hd.slotted] at ht
  rw [h.kin.size d hd.slotted]
  exact hsmall d hd ht

theorem CanCreate.noStale (h : CanCreate s) : NoStale s := h.imp_right And.left

theorem Owned.ne_root_of_regular {v : View} (ho : Owned v kept) (ht : f.type v ≠ FTYPE_DIR) :
    f ≠ .root := by
  rintro rfl
  exact ht ho.root

/-- The file that `file_remove` removes. -/
def Removes (s : Server) (path : List Byte) (f : FilePtr) : Prop :=
  ∃ t, fileOpen path s = .ok (.ok f, t)

section

variable (hs : Sound s kept)
include hs

/-- A change of a block in use leaves the free blocks as they are. -/
theorem Sound.cleanFree_rename (hF : Slotted s.view F)
    (h : Rewritten s.view (s.rename F name).view F) (hclean : CleanFree s) :
    CleanFree (s.rename F name) := by
  intro c hlt hun hcc
  rw [h.disk] at hlt
  have hun := (h.unused c hlt).mp hun
  have hne : c ≠ F.blk := by
    rintro rfl
    exact (hs.owned.blk_used hF).2 hun
  rw [view_rename, Function.update_of_ne hne]
  exact hclean c hlt hun (((s.cached_change _ _ c).mp hcc).resolve_left hne)

/-- A structure that is not in use gets a name. -/
theorem Sound.entered (hf : FreeSlot s d f) (hn : NameOk name) (hlen : name.length < MAXNAMELEN) :
    Later s (s.rename f name) kept ∧ (CleanFree s → CleanFree (s.rename f name)) ∧
      (NoHoles s.view → NoHoles (s.rename f name).view) := by
  have hslot : Slotted s.view f := .inr ⟨d, hf.dir.reach, hf.dir.type, hf.slot⟩
  have hrw : Rewritten s.view (s.rename f name).view f := by
    rw [view_rename]
    exact hs.owned.rewritten_name hslot hlen
  have hlive : f.live (s.rename f name).view := by
    rw [view_rename, live_rewriteName]
    cases name with
    | nil => exact absurd rfl hn.nonempty
    | cons c rest => exact ⟨c, rest, rfl, hn.bytes c (by simp)⟩
  have hsize : f.size (s.rename f name).view = f.size s.view := by
    rw [view_rename]
    exact size_rewriteName hlen
  obtain ⟨ho, hmoved, hreach⟩ : Owned (s.rename f name).view kept ∧
      Moved (s.rename f name).Cached s.view (s.rename f name).view ∧
      ∀ g, Reach (s.rename f name).view g ↔ Reach s.view g ∨ g = f :=
    hs.owned.enter hf.dir.reach hf.dir.type hf.slot hf.dead hrw hlive hsize
  have hgrown : Grown s (s.rename f name) := grown_change s _ _
  have hblank := hs.owned.unused d f hf.dir.reach hf.dir.type hf.slot hf.dead
  refine ⟨⟨hgrown, hs.of_grown hgrown hrw.disk ho, hmoved,
    fun g hg => .inr ((hreach g).mpr (.inl hg))⟩, hs.cleanFree_rename hslot hrw, fun hholes => ?_⟩
  exact hholes.of_rewritten hrw hslot hblank.type (fun g => (hreach g).mp)

theorem fileCreate_spec (hcan : CanCreate s) (hsmall : SmallDirs s.view) (path : List Byte) :
    wp (fileCreate path) E (fun e t => Later s t kept ∧ (e = .fileExists → NoStale t))
      (fun _ t => Later s t kept ∧ NoStale t) s := by
  refine (walkPath_spec hs hcan.noStale path).andThen (fun _ _ hx => hx.elim) ?_
  rintro r t ⟨hfill, hr⟩
  cases r with
  | found | failed => exact ⟨hfill.later, fun _ => hfill.noStale hcan.noStale⟩
  | missing d =>
    obtain ⟨hd, hn, hlen⟩ := hr
    have hsize := hfill.smallDirs hsmall d hd.reach hd.type
    refine (dirAllocFile_spec hfill.sound hd (hfill.canCreate hcan) hsize).attempt ?_ ?_
    · intro e u hlater
      exact ⟨hfill.later.trans hlater, fun he => by cases he⟩
    · rintro f u ⟨⟨hlater, hstale, hfree⟩, _⟩
      have hslot : Slotted u.view f := .inr ⟨d, hfree.dir.reach, hfree.dir.type, hfree.slot⟩
      obtain ⟨hlater', hclean, hholes⟩ := hlater.sound.entered hfree hn hlen
      refine wp_bind.mpr (wp_storeString (hlater.sound.owned.blk_lt hslot) hfree.cached ?_)
      exact ⟨(hfill.later.trans hlater).trans hlater', hstale.imp hclean hholes⟩

theorem findFile_spec (hstale : NoStale s) {omode : Nat}
    (hcreate : omode &&& O_CREAT ≠ 0 → CanCreate s ∧ SmallDirs s.view) (path : List Byte) :
    wp (findFile path omode) E (fun _ t => Later s t kept)
      (fun f t => Later s t kept ∧ OpenFile t f) s := by
  have hopen : ∀ t, Later s t kept → NoStale t →
      wp (fileOpen path) E (fun _ u => Later s u kept) (fun f u => Later s u kept ∧ OpenFile u f)
        t := by
    intro t ht hst
    exact (fileOpen_spec ht.sound hst path).imp
      (fun _ _ hx => ht.trans hx.later) (fun _ _ hq => ⟨ht.trans hq.1.later, hq.2⟩)
  by_cases hc : omode &&& O_CREAT = 0
  · exact wp_pos hc (hopen s (hs.later_of_calm (.refl s)) hstale)
  · obtain ⟨hcan, hsmall⟩ := hcreate hc
    refine wp_neg hc (wp_bind.mpr (wp_attempt.mpr
      ((fileCreate_spec hs hcan hsmall path).imp ?_ ?_)))
    · rintro e t ⟨ht, hst⟩
      by_cases he : e = .fileExists
      · exact wp_pos he (hopen t ht (hst he))
      · exact wp_neg he ht
    · rintro _ t ⟨ht, hst⟩
      exact hopen t ht hst

/-- A regular file without blocks loses its name. -/
theorem Sound.left (hF : Reach s.view F) (hroot : F ≠ .root) (ht : F.type s.view ≠ FTYPE_DIR)
    (hempty : ∀ p, F.ref s.view p = 0) : After s (s.rename F []) kept (· = F) := by
  have hrw : Rewritten s.view (s.rename F []).view F := by
    rw [view_rename]
    exact hs.owned.rewritten_name hF.slotted (by decide)
  have hdead : ¬ F.live (s.rename F []).view := by
    rw [view_rename, live_rewriteName]
    rintro ⟨_, _, h, _⟩
    cases h
  have hsize : F.size (s.rename F []).view = F.size s.view := by
    rw [view_rename]
    exact size_rewriteName (by decide)
  obtain ⟨ho, hmoved, hreach⟩ : Owned (s.rename F []).view kept ∧
      Moved (s.rename F []).Cached s.view (s.rename F []).view ∧
      ∀ g, Reach (s.rename F []).view g ↔ Reach s.view g ∧ g ≠ F :=
    hs.owned.leave hF hroot ht hempty hrw hdead hsize
  have hgrown : Grown s (s.rename F []) := grown_change s _ _
  refine ⟨hgrown, hs.of_grown hgrown hrw.disk ho, hmoved, fun g hg => ?_⟩
  by_cases hgF : g = F
  · exact .inl hgF
  · exact .inr ((hreach g).mpr ⟨hg, hgF⟩)

/-- The rest of `file_remove`, once the file is found. -/
theorem removeFound_spec (hf : OpenFile s f) (ht : f.type s.view ≠ FTYPE_DIR)
    (hE : (∀ e, E (.panicOn e)) ∨ Cuttable s f) :
    wp (do
        fileTruncate f 0
        storeString f.fName []
        fileFlush f
        flushDir f) E (fun _ _ => False) (fun _ t => After s t kept (· = f)) s := by
  have hroot := hs.owned.ne_root_of_regular ht
  refine (fileTruncate_spec hs hf.reach ht hf.cached
    (hE.imp_right Cuttable.truncatable) (Nat.zero_le _)).bind ?_
  rintro _ t ⟨hres, hsize, hind⟩
  have hreach := (hres.reach f).mpr hf.reach
  have hext : f.extent t.view = 0 := by
    unfold FilePtr.extent
    rw [hsize]
    decide
  have hempty : ∀ p, f.ref t.view p = 0 := by
    intro p
    cases p with
    | slot i => exact hres.sound.owned.within f i hreach (by omega)
    | indirect => exact hind (by omega)
  have hcached := hres.cached _ hf.cached
  have htype : f.type t.view ≠ FTYPE_DIR := by
    rw [hres.type]
    exact ht
  have hleft := hres.sound.left hreach hroot htype hempty
  refine wp_bind.mpr (wp_storeString (hres.sound.owned.blk_lt hreach.slotted) hcached ?_)
  have hslot := hleft.moved.slots f hreach.slotted
  have hcached := hleft.cached _ hcached
  have hsize : f.size (t.rename f []).view = 0 := by
    rw [view_rename]
    exact (size_rewriteName (by decide)).trans hsize
  have hfather := ((hf.fathered hroot).of_moved hf.reach.slotted hres.toGrown hres.moved).of_moved
    hreach.slotted hleft.toGrown hleft.moved
  refine (fileFlush_empty hleft.sound hslot hcached hsize).bind ?_
  rintro _ _ rfl
  exact (flushDir_spec hleft.sound hslot hcached hfather).post
    (fun _ _ hcalm => (After.of_later hres.later hleft).later (hleft.sound.later_of_calm hcalm))

theorem fileRemove_spec (hstale : NoStale s) (path : List Byte)
    (hreg : ∀ f t, fileOpen path s = .ok (.ok f, t) → f.type t.view ≠ FTYPE_DIR)
    (hE : (∀ e, E (.panicOn e)) ∨ ∀ f t, fileOpen path s = .ok (.ok f, t) → Cuttable t f) :
    wp (fileRemove path) E (fun _ t => Later s t kept)
      (fun _ t => After s t kept (Removes s path)) s := by
  refine (fileOpen_spec hs hstale path).ran.andThen (fun _ _ hx => hx.later) ?_
  rintro f t ⟨⟨hfill, hf⟩, hrun⟩
  refine (removeFound_spec hfill.sound hf (hreg f t hrun)
    (hE.imp_right (fun h => h f t hrun))).imp (fun _ _ hx => hx.elim) ?_
  intro _ u hu
  refine After.of_later hfill.later (hu.mono ?_)
  rintro _ rfl
  exact ⟨t, hrun⟩

end

end MosSmp.Fs
