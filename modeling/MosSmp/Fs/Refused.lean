import MosSmp.Fs.Create

/-!
A `file_create` that fails. Where the directories have all their blocks and the
parent has a structure to spare, all that can fail is the walk: nothing in the
tree or in the bitmap changes and the error is that of the walk. If the
directory has to grow and cannot, it keeps its new size without the block, and
`file_create` returns the error of the walk, -E_NOT_FOUND, for that of the step
that failed.
-/

namespace MosSmp.Fs

open Lib Prog Relation FilePtr

variable {s t : Server} {kept : Nat → Prop} {E : Stop → Prop} {d f : FilePtr}
  {path : List Byte} {mem : Nat → Bool} {e : FsErr}

theorem Loaded.calm (h : Loaded s d) (hcalm : Calm s t) : Loaded t d := by
  intro i hi
  rw [hcalm.view] at hi ⊢
  exact ⟨hcalm.cached _ (h i hi).1, hcalm.cached _ (h i hi).2⟩

section

variable (hs : Sound s kept) (hd : OpenDir s d) (hholes : NoHoles s.view) (hl : Loaded s d)
include hs hd hholes hl

/-- With its blocks read already, the search of a directory does not fail. -/
theorem searchUnused_loaded :
    wp (search (fun i => do
        let b ← fileGetBlock d i
        search (fun j => tryUnused (.inBlock b j)) (List.range FILE2BLK))
          (List.range (d.nblock s.view))) E (fun _ _ => False) (fun _ _ => True) s := by
  refine wp_search_range (I := fun _ t => Calm s t) (fun i t hi hcalm => ?_) (fun _ _ => trivial)
    (.refl s)
  have hne := hholes d hd.reach hd.type i hi
  have hget := fileGetBlock_filled (E := E) (F := d) (i := i) (hs.of_calm hcalm)
    (by rw [hcalm.view]; exact hd.reach) (hcalm.cached _ hd.cached) (by rw [hcalm.view]; exact hne)
  refine hget.andThen ?_ ?_
  · rintro _ u ⟨_, _, _, hno⟩
    exact hno (hl.calm hcalm i (by rw [hcalm.view]; exact hi))
  rintro b u ⟨hcalm', rfl, _, _, hcb⟩
  have hcalm'' := hcalm.trans hcalm'
  rw [hcalm.view] at hcb ⊢
  refine wp_search_range (I := fun _ t => t = u) (fun j w hj hw => ?_)
    (fun _ hw => hw ▸ hcalm'') rfl
  subst hw
  have hslot : Slotted w.view (.inBlock (d.slot s.view i) j) := by
    rw [hcalm''.view]
    exact .inr ⟨d, hd.reach, hd.type, dirSlot_inBlock hi hne hj⟩
  refine (tryUnused_spec (hs.of_calm hcalm'') hslot hcb).post (fun r w hr => ?_)
  cases r with
  | some => trivial
  | none => exact hr.1

/-- A directory with a structure to spare gives it out. -/
theorem dirAllocFile_loaded (hroom : ∃ f, DirSlot s.view d f ∧ ¬ f.live s.view) :
    wp (dirAllocFile d) E (fun _ _ => False) (fun f t => Fill s t kept ∧ FreeSlot t d f) s := by
  refine wp_bind.mpr (hs.wp_word hd.reach.slotted hd.cached (by decide) (wp_bind.mpr ?_))
  refine ((searchUnused_spec (E := E) hs hd (.inr hholes)).and
    (searchUnused_loaded (E := E) hs hd hholes hl)).mono (fun _ hi => hi.1) (fun _ _ hx => hx.2)
    (fun r t hr => ?_)
  cases r with
  | some => exact hr.1
  | none =>
      obtain ⟨⟨hfill, hall⟩, _⟩ := hr
      obtain ⟨f, hf, hdead⟩ := hroom
      have hslot : Slotted s.view f := .inr ⟨d, hd.reach, hd.type, hf⟩
      obtain ⟨i, j, hi, hne, hj, rfl⟩ := hf
      have heq : d.slot t.view i = d.slot s.view i := hfill.refs d (.slot i) hd.reach.slotted hne
      have hlive := hall i hi j hj
      rw [heq] at hlive
      exact absurd ((hfill.live _ hslot).mp hlive) hdead

end

/-- The error with which `file_create` ends after a walk; it goes on if only the
last element is missing. -/
def Walk.refusal : Walk → Option FsErr
  | .found _ => some .fileExists
  | .failed e => some e
  | .missing _ _ => none

/-- The directory in which the path is missing has a structure to spare. -/
def ParentHasRoom (v : View) (path : List Byte) : Prop :=
  ∀ d n, walkOf v .root (elements path) = .missing d n → ∃ f, DirSlot v d f ∧ ¬ f.live v

theorem fileCreate_error (hs : Sound s kept) (hholes : NoHoles s.view)
    (hroom : ParentHasRoom s.view path) :
    wp (fileCreate path) E (fun e t => Looked s t ∧ Fill s t kept ∧
        ((walkOf s.view .root (elements path)).refusal = some e ∨
          e = .noMem ∧ ¬ ∀ n, s.mem n = true)) (fun _ _ => True) s := by
  have hwalk := (walkPath_spec (E := E) hs (.inr hholes) path).and
    (walkPath_result (E := E) hs hholes path)
  refine wp_bind.mpr (hwalk.mono (fun _ hi => hi.1) (fun _ _ hx => hx.1.elim) ?_)
  rintro r t ⟨⟨hfill, hr⟩, hlooked, ⟨hwalk, hloaded⟩ | ⟨rfl, hno⟩⟩
  · cases r with
    | found | failed => exact ⟨hlooked, hfill, .inl (by rw [← hwalk]; rfl)⟩
    | missing d n =>
        obtain ⟨hd, _, _⟩ := hr
        have hroom : ∃ f, DirSlot t.view d f ∧ ¬ f.live t.view := by
          obtain ⟨f, hf, hdead⟩ := hroom d n hwalk.symm
          have hds := (hfill.kin.reach d).mp hd.reach
          have hts := (hfill.kin.type d hds.slotted).symm.trans hd.type
          have hlive := hfill.live f (.inr ⟨d, hds, hts, hf⟩)
          exact ⟨f, hfill.dirSlot hds hf, fun h => hdead (hlive.mp h)⟩
        refine (dirAllocFile_loaded hfill.sound hd
          (hfill.noHoles hholes) (hloaded d n rfl) hroom).attempt (fun _ _ hx => hx.elim) ?_
        rintro f w ⟨hfill', hfree⟩
        have hslot : Slotted w.view f := .inr ⟨d, hfree.dir.reach, hfree.dir.type, hfree.slot⟩
        exact wp_bind.mpr (wp_storeString (hfill'.sound.owned.blk_lt hslot) hfree.cached trivial)
  · exact ⟨hlooked, hfill, .inr ⟨rfl, hno⟩⟩

/-- With the directories whole and room in the parent, a `file_create` that fails
leaves the tree and the bitmap as they were, fails as the walk did or for want of
memory, and later lookups find what they found before. -/
theorem fileCreate_refused (hreach : (server Formatted).ReachableUnder Legal s)
    (hholes : NoHoles s.view) (hroom : ParentHasRoom s.view path)
    (hrun : fileCreate path (s.entered mem) = .ok (.error e, t)) :
    SameTree s.view t.view ∧
    (∀ b, b < diskSize s.view → t.view (bitmapWord b).blk = s.view (bitmapWord b).blk) ∧
    ((walkOf s.view .root (elements path)).refusal = some e ∨ e = .noMem ∧ ¬ ∀ n, mem n = true) ∧
    ∀ later other, (∀ n, later n = true) →
      ∃ u, fileOpen other (t.entered later) = .ok (openOf s.view other, u) := by
  have hsound := ((running_of_legal hreach).served mem).after.sound
  obtain ⟨hlooked, hfill, he⟩ :=
    (fileCreate_error (E := fun _ => True) hsound hholes hroom).error hrun
  refine ⟨hlooked.tree, hlooked.bitmap, he, fun later other hlater => ?_⟩
  have hcalm : Calm t (t.entered later) := calm_of_same rfl rfl rfl rfl
  obtain ⟨u, hu⟩ := fileOpen_result (hfill.sound.of_calm hcalm) hlater (hfill.noHoles hholes) other
  refine ⟨u, hu.trans ?_⟩
  have hwalk := hfill.walkOf hholes (elements other) (elements_ok other) (reach_root _)
  unfold openOf
  rw [hcalm.view, hwalk]
  rfl

/-- The memory of the kernel is exhausted. -/
def exhausted : Nat → Bool := fun _ => false

/-- With no page for the block of the root nothing is created beside `/d`, which is
found later. -/
theorem fileCreate_refused_noPage :
    ∃ t u, fileCreate pathA (mountedD.entered exhausted) = .ok (.error .noMem, t) ∧
      SameTree mountedD.view t.view ∧ fileOpen [100] (t.entered enough) = .ok (.ok fileA, u) := by
  have hmissing : walkOf mountedD.view .root (elements pathA) = .missing .root [97] := by
    decide +kernel
  have hroom : ParentHasRoom mountedD.view pathA := by
    intro d n hd
    cases hmissing.symm.trans hd
    refine ⟨.inBlock 3 1, ⟨0, 1, ?_, ?_, by decide, ?_⟩, by decide +kernel⟩ <;> decide +kernel
  have hruns : (fileCreate pathA).refuses (fun e _ => decide (e = .noMem))
      (mountedD.entered exhausted) = true := by decide +kernel
  obtain ⟨e, t, hrun, he⟩ := exists_of_refuses hruns
  obtain rfl := of_decide_eq_true he
  obtain ⟨htree, _, _, hlater⟩ :=
    fileCreate_refused (.init mountD_init) onlyD_mounted.noHoles hroom hrun
  obtain ⟨u, hu⟩ := hlater enough [100] (fun _ => rfl)
  have hopen : walkOf mountedD.view .root (elements [100]) = .found fileA := by decide +kernel
  rw [openOf, hopen] at hu
  exact ⟨t, u, hrun, htree, hu⟩

/-- With no memory for the first block of the root directory, `file_create`
leaves the root with the size of a block that it does not have, and returns
-E_NOT_FOUND where `dir_alloc_file` returned -E_NO_MEM. -/
theorem fileCreate_halfDone : ∃ t u, (server Formatted).Reachable mounted ∧
      fileCreate pathA (mounted.entered exhausted) = .ok (.error .notFound, t) ∧
      root.size mounted.view = 0 ∧ root.size t.view = BLOCK_SIZE ∧
      root.slot t.view 0 = 0 ∧
      dirAllocFile .root (mounted.entered exhausted) = .ok (.error .noMem, u) := by
  have hruns : (fileCreate pathA).refuses (fun e t => decide (e = .notFound ∧
      root.size t.view = BLOCK_SIZE ∧ root.slot t.view 0 = 0))
      (mounted.entered exhausted) = true := by decide +kernel
  have halloc : (dirAllocFile .root).refuses (fun e _ => decide (e = .noMem))
      (mounted.entered exhausted) = true := by decide +kernel
  obtain ⟨e, t, hrun, he⟩ := exists_of_refuses hruns
  obtain ⟨rfl, hsize, hslot⟩ := of_decide_eq_true he
  obtain ⟨e, u, hrun', he⟩ := exists_of_refuses halloc
  obtain rfl := of_decide_eq_true he
  exact ⟨t, u, .init mounted_init, hrun, by decide +kernel, hsize, hslot, hrun'⟩

end MosSmp.Fs
