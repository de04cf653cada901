import MosSmp.Fs.Serve

/-!
What the functions of `fs.c` can do to the server at all: they store into
cached pages, put pages of zeros or of disk contents into the cache, mark pages
dirty and write them. A property that survives these steps survives every
function, whatever its arguments are.
-/

namespace MosSmp.Fs

open Lib Prog Server

/-- `I` survives the steps of the functions of `fs.c`. -/
structure Closed (I : Server → Prop) : Prop where
  asks : ∀ s, I s → I { s with asked := s.asked + 1 }
  stores : ∀ s b data, I s → s.Cached b → I (s.change b data)
  zeroes : ∀ s b, I s → ¬ s.Cached b → I (s.change b Block.zero)
  reads : ∀ s b, I s → ¬ s.Cached b → I ((s.setPage b (some ⟨s.disk b, false⟩)).mark b false)
  dirties : ∀ s b p, I s → s.cache b = some p → I (s.setPage b (some ⟨p.data, true⟩))
  writes : ∀ s b p, I s → s.cache b = some p →
    I (({ s with disk := Function.update s.disk b p.data }).mark b false)

namespace Server

variable {s : Server} {b : Nat} {p : Page}

theorem cached_of_eq (hp : s.cache b = some p) : s.Cached b := by
  unfold Cached
  rw [hp]
  rfl

theorem not_cached_of_eq (hp : s.cache b = none) : ¬ s.Cached b := by
  unfold Cached
  simp [hp]

end Server

/-- A look at a page and what is done with it: a block outside the region ends
the server. -/
theorem keeps_blockIsMapped {I : Server → Prop} {α : Type} {b : Nat} {k : Option Page → FsProg α}
    (h : ∀ s, I s → wp (k (s.cache b)) (fun _ => True) (fun _ => I) (fun _ => I) s) :
    Keeps I (blockIsMapped b >>= k) := by
  intro s hs
  refine wp_bind.mpr ?_
  by_cases hb : DISKMAX / BLOCK_SIZE ≤ b
  · exact wp_pos hb trivial
  · exact wp_neg hb (h s hs)

namespace Closed

variable {I : Server → Prop} (hI : Closed I)
include hI

section Blocks

theorem wp_pageAt {X : FsErr → Server → Prop} {b : Nat} {s : Server} (hs : I s) :
    wp (Fs.pageAt b) (fun _ => True) X (fun p t => I t ∧ t.cache b = some p) s := by
  refine wp_bind.mpr ?_
  by_cases hb : DISKMAX / BLOCK_SIZE ≤ b
  · exact wp_pos hb trivial
  · refine wp_neg hb (wp_bind.mpr (wp_state.mpr ?_))
    cases hp : s.cache b with
    | some => exact ⟨hs, hp⟩
    | none =>
      refine wp_bind.mpr (wp_bind.mpr ?_)
      by_cases hm : s.mem s.asked = true
      · refine wp_pos hm ⟨hI.zeroes _ b (hI.asks s hs) (not_cached_of_eq hp), ?_⟩
        simp [change, setPage, mark, isDirty, hp]
      · exact wp_neg hm trivial

theorem pageAt {α : Type} {b : Nat} {k : Page → FsProg α} (h : ∀ s p, I s → s.cache b = some p →
      wp (k p) (fun _ => True) (fun _ => I) (fun _ => I) s) :
    Keeps I (Fs.pageAt b >>= k) :=
  fun _ hs => (hI.wp_pageAt hs).bind (fun p t ht => h t p ht.1 ht.2)

omit hI in
theorem orStop {α : Type} {m : FsProg α} {reason : FsErr → Stop} (h : Keeps I m) :
    Keeps I (Fs.orStop m reason) := by
  refine h.attempt.bind (fun r => ?_)
  cases r with
  | ok a => exact .pure a
  | error e => exact .stop (reason e)

theorem load (l : Loc) : Keeps I (Fs.load l) := .ite (.stop _) (hI.pageAt (fun _ _ hs _ => hs))

theorem nblocks : Keeps I Fs.nblocks := hI.load ⟨1, 1⟩

theorem stringAt (l : Loc) (str : List Byte) : Keeps I (Fs.stringAt l str) :=
  hI.pageAt (fun _ _ hs _ => hs)

theorem store (l : Loc) (w : Nat) : Keeps I (Fs.store l w) :=
  .ite (.stop _) (hI.pageAt (fun s _ hs hp => hI.stores s _ _ hs (cached_of_eq hp)))

theorem storeString (l : Loc) (str : List Byte) : Keeps I (Fs.storeString l str) :=
  hI.pageAt (fun s _ hs hp => hI.stores s _ _ hs (cached_of_eq hp))

theorem memAlloc {α : Type} {k : FsProg α} {s : Server} (hs : I s)
    (h : wp k (fun _ => True) (fun _ => I) (fun _ => I) { s with asked := s.asked + 1 }) :
    wp (Fs.memAlloc >>= fun _ => k) (fun _ => True) (fun _ => I) (fun _ => I) s := by
  refine wp_bind.mpr (wp_bind.mpr (wp_bind.mpr ?_))
  by_cases hm : s.mem s.asked = true
  · exact wp_pos hm h
  · exact wp_neg hm (hI.asks s hs)

theorem dirtyBlock (b : Nat) : Keeps I (Fs.dirtyBlock b) := by
  refine keeps_blockIsMapped (fun s hs => ?_)
  cases hp : s.cache b with
  | none => exact hs
  | some p =>
    by_cases hd : p.dirty = true
    · exact wp_pos hd hs
    · exact wp_neg hd (hI.dirties s b p hs hp)

theorem writeBlock (b : Nat) : Keeps I (Fs.writeBlock b) := by
  refine keeps_blockIsMapped (fun s hs => ?_)
  cases hp : s.cache b with
  | none => exact trivial
  | some p => exact hI.writes s b p hs hp

omit hI in
theorem blockIsDirty (b : Nat) : Keeps I (Fs.blockIsDirty b) := by
  refine keeps_blockIsMapped (fun s hs => ?_)
  cases s.cache b with
  | none | some p => exact hs

section

variable (b : Nat)

theorem blockIsFree : Keeps I (Fs.blockIsFree b) := by
  refine Keeps.state.bind (fun s => .ite (.pure _) (hI.nblocks.bind (fun n => .ite (.pure _) ?_)))
  exact (hI.load _).bind (fun w => .pure _)

theorem checkExists : Keeps I (Fs.checkExists b) :=
  Keeps.state.bind (fun _ => .ite (hI.nblocks.bind (fun _ => .ite (.stop _) (.pure _))) (.pure _))

theorem checkUsed : Keeps I (Fs.checkUsed b) := Keeps.state.bind (fun _ =>
    .ite ((hI.blockIsFree b).bind (fun _ => .ite (.stop _) (.pure _))) (.pure _))

theorem readBlock : Keeps I (Fs.readBlock b) := by
  refine (hI.checkExists b).bind (fun _ => (hI.checkUsed b).bind (fun _ => ?_))
  refine keeps_blockIsMapped (fun s hs => ?_)
  cases hp : s.cache b with
  | some => exact hs
  | none => exact hI.memAlloc hs (hI.reads _ b (hI.asks s hs) (not_cached_of_eq hp))

theorem mapBlock : Keeps I (Fs.mapBlock b) := by
  refine keeps_blockIsMapped (fun s hs => ?_)
  cases hp : s.cache b with
  | some => exact hs
  | none => exact hI.memAlloc hs (hI.zeroes _ b (hI.asks s hs) (not_cached_of_eq hp))

theorem freeBlock : Keeps I (Fs.freeBlock b) :=
  hI.nblocks.bind (fun _ => .ite (.pure _) ((hI.load _).bind (fun _ => hI.store _ _)))

end

theorem allocFrom (n b : Nat) : Keeps I (Fs.allocFrom n b) := by
  induction n generalizing b with
  | zero => exact .fail _
  | succ n ih =>
    refine (hI.load _).bind (fun w => .ite ?_ (ih (b + 1)))
    exact (hI.store _ _).bind (fun _ => (hI.writeBlock _).bind (fun _ => .pure _))

theorem allocBlock : Keeps I Fs.allocBlock := by
  refine (hI.nblocks.bind (fun n => hI.allocFrom (n - 3) 3)).bind (fun b => ?_)
  refine (hI.mapBlock b).attempt.bind (fun r => ?_)
  cases r with
  | ok => exact .pure b
  | error e => exact (hI.freeBlock b).bind (fun _ => .fail e)

end Blocks

section Files

section

variable (f : FilePtr)

theorem parentDir : Keeps I (Fs.parentDir f) := by
  refine (hI.load _).bind (fun a => .ite (.pure _) ?_)
  cases FilePtr.ofAddr a with
  | some d => exact .pure (some d)
  | none => exact .stop _

theorem indirectBlock (alloc : Bool) : Keeps I (Fs.indirectBlock f alloc) := by
  refine (hI.load _).bind (fun ind => .ite (.pure _) (.ite (.fail _) ?_))
  exact hI.allocBlock.bind (fun r => (hI.store _ _).bind (fun _ => .pure r))

theorem fileBlockWalk (i : Nat) (alloc : Bool) : Keeps I (Fs.fileBlockWalk f i alloc) := by
  refine .ite (.pure _) (.ite ?_ (.fail _))
  exact (hI.indirectBlock f alloc).bind (fun _ => (hI.readBlock _).bind (fun _ => .pure _))

theorem fileMapBlock (i : Nat) (alloc : Bool) : Keeps I (Fs.fileMapBlock f i alloc) := by
  refine (hI.fileBlockWalk f i alloc).bind (fun ptr => (hI.load ptr).bind (fun d => ?_))
  refine .ite (.pure d) (.ite (.fail _) ?_)
  exact hI.allocBlock.bind (fun r => (hI.store ptr r).bind (fun _ => .pure r))

theorem fileClearBlock (i : Nat) : Keeps I (Fs.fileClearBlock f i) := by
  refine (hI.fileBlockWalk f i false).bind (fun ptr => (hI.load ptr).bind (fun d => .when ?_))
  exact (hI.freeBlock d).bind (fun _ => hI.store ptr 0)

theorem fileGetBlock (i : Nat) : Keeps I (Fs.fileGetBlock f i) :=
  (hI.fileMapBlock f i true).bind (fun d => (hI.readBlock d).bind (fun _ => .pure d))

theorem fileDirty (offset : Nat) : Keeps I (Fs.fileDirty f offset) :=
  (hI.fileMapBlock f _ false).bind hI.dirtyBlock

end

theorem tryFile (dir : FilePtr) (name : Name) (f : FilePtr) : Keeps I (Fs.tryFile dir name f) := by
  refine (hI.stringAt _ _).bind (fun same => .ite ?_ (.pure none))
  exact (hI.store _ _).bind (fun _ => .pure _)

theorem dirLookup (dir : FilePtr) (name : Name) : Keeps I (Fs.dirLookup dir name) := by
  refine (hI.load _).bind (fun size => ?_)
  refine Keeps.bind (.search (fun i => ?_) _) (fun found => ?_)
  · exact (hI.fileGetBlock dir i).bind (fun b => .search (fun j => hI.tryFile _ _ _) _)
  · cases found with
    | some f => exact .pure f
    | none => exact .fail _

theorem tryUnused (f : FilePtr) : Keeps I (Fs.tryUnused f) :=
  (hI.stringAt _ _).bind (fun _ => .ite (.pure _) (.pure _))

theorem growDir (dir : FilePtr) (n : Nat) : Keeps I (Fs.growDir dir n) :=
  (hI.load _).bind (fun _ => (hI.store _ _).bind (fun _ =>
    (hI.fileGetBlock dir n).bind (fun _ => .pure _)))

theorem dirAllocFile (dir : FilePtr) : Keeps I (Fs.dirAllocFile dir) := by
  refine (hI.load _).bind (fun size => ?_)
  refine Keeps.bind (.search (fun i => ?_) _) (fun found => ?_)
  · exact (hI.fileGetBlock dir i).bind (fun b => .search (fun j => hI.tryUnused _) _)
  · cases found with
    | some f => exact .pure f
    | none => exact hI.growDir dir _

theorem walkFrom (f : FilePtr) (names : List Name) : Keeps I (Fs.walkFrom f names) := by
  induction names generalizing f with
  | nil => exact .pure _
  | cons name rest ih =>
    refine .ite (.pure _) ((hI.load _).bind (fun type => .ite (.pure _) ?_))
    refine (hI.dirLookup f name).attempt.bind (fun r => ?_)
    cases r with
    | ok g => exact ih g
    | error => exact .ite (.pure _) (.pure _)

theorem fileOpen (path : List Byte) : Keeps I (Fs.fileOpen path) := by
  refine (hI.walkFrom .root (elements path)).bind (fun w => ?_)
  cases w with
  | found f => exact .pure f
  | missing => exact .fail _
  | failed e => exact .fail e

theorem fileCreate (path : List Byte) : Keeps I (Fs.fileCreate path) := by
  refine (hI.walkFrom .root (elements path)).bind (fun w => ?_)
  cases w with
  | found => exact .fail _
  | failed e => exact .fail e
  | missing d =>
    refine (hI.dirAllocFile d).attempt.bind (fun r => ?_)
    cases r with
    | error => exact .fail _
    | ok f => exact (hI.storeString _ _).bind (fun _ => .pure f)

section

variable (f : FilePtr)

theorem clearBlocks (lo hi : Nat) : Keeps I (Fs.clearBlocks f lo hi) :=
  .each (fun bno => orStop (hI.fileClearBlock f bno)) _

theorem freeIndirect : Keeps I (Fs.freeIndirect f) :=
  (hI.load _).bind (fun ind => .when ((hI.freeBlock ind).bind (fun _ => hI.store _ 0)))

theorem fileTruncate (size : Nat) : Keeps I (Fs.fileTruncate f size) :=
  (hI.load _).bind (fun _ => (hI.clearBlocks f _ _).bind (fun _ =>
    (Keeps.when (hI.freeIndirect f)).bind (fun _ => hI.store _ size)))

theorem fileFlush : Keeps I (Fs.fileFlush f) := by
  refine (hI.load _).bind (fun size => .each (fun bno => ?_) _)
  refine (hI.fileMapBlock f bno false).attempt.bind (fun r => ?_)
  cases r with
  | error => exact .pure ()
  | ok d => exact (blockIsDirty d).bind (fun _ => .when (hI.writeBlock d))

theorem flushDir : Keeps I (Fs.flushDir f) := by
  refine (hI.parentDir f).bind (fun r => ?_)
  cases r with
  | some d => exact hI.fileFlush d
  | none => exact .pure ()

theorem fileSetSize (size : Nat) : Keeps I (Fs.fileSetSize f size) :=
  (hI.load _).bind (fun _ => (Keeps.when (hI.fileTruncate f size)).bind (fun _ =>
    (hI.store _ size).bind (fun _ => hI.flushDir f)))

end

theorem dirtyIfHolds (dir f : FilePtr) (i : Nat) : Keeps I (Fs.dirtyIfHolds dir f i) := by
  refine (hI.fileMapBlock dir i false).attempt.bind (fun r => ?_)
  cases r with
  | error => exact .pure _
  | ok d =>
    refine (hI.readBlock d).attempt.bind (fun r => ?_)
    cases r with
    | error => exact .pure _
    | ok _ => exact .ite ((hI.dirtyBlock d).attempt.bind (fun _ => .pure _)) (.pure _)

theorem fileClose (f : FilePtr) : Keeps I (Fs.fileClose f) := by
  refine (hI.fileFlush f).bind (fun _ => (hI.parentDir f).bind (fun r => ?_))
  cases r with
  | none => exact .pure ()
  | some d =>
    exact (hI.load _).bind (fun size =>
      (Keeps.search (fun i => hI.dirtyIfHolds d f i) _).bind (fun _ => hI.fileFlush d))

theorem fileRemove (path : List Byte) : Keeps I (Fs.fileRemove path) :=
  (hI.fileOpen path).bind (fun f => (hI.fileTruncate f 0).bind (fun _ =>
    (hI.storeString _ _).bind (fun _ => (hI.fileFlush f).bind (fun _ => hI.flushDir f))))

theorem findFile (path : List Byte) (omode : Nat) : Keeps I (Fs.findFile path omode) := by
  refine .ite (hI.fileOpen path) ((hI.fileCreate path).attempt.bind (fun r => ?_))
  cases r with
  | ok => exact hI.fileOpen path
  | error e => exact .ite (hI.fileOpen path) (.fail e)

end Files

end Closed

end MosSmp.Fs
