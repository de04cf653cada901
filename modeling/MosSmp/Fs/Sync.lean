import MosSmp.Fs.Service

/-!
`fs_sync` and the disk. A page of the cache that has not changed since it was
read or written has the contents of its block; this holds for every sequence of
operations, whatever their arguments are. `fs_sync` writes the pages with the
bit `PTE_DIRTY`, so the disk has the contents of the cache if every changed page
has the bit. The functions of `fs.c` set it for the data of a file and for the
block of a closed file's structure only: a file that has just been created is
not on the disk after `fs_sync`.
-/

namespace MosSmp.Fs

open Lib Prog Relation Server FilePtr

variable {s t u : Server} {v v' : View} {d f : FilePtr} {b : Nat}

/-- The operations of `fs.c` on an initialised file system. -/
inductive FsOp
  | create (path : List Byte)
  | remove (path : List Byte)
  | setSize (f : FilePtr) (size : Nat)
  | getBlock (f : FilePtr) (filebno : Nat)
  | dirty (f : FilePtr) (offset : Nat)
  | close (f : FilePtr)
  | sync

def FsOp.run : FsOp → FsProg Unit
  | .create path => do let _ ← fileCreate path
  | .remove path => fileRemove path
  | .setSize f size => fileSetSize f size
  | .getBlock f filebno => do let _ ← fileGetBlock f filebno
  | .dirty f offset => fileDirty f offset
  | .close f => fileClose f
  | .sync => fsSync

/-- An operation with the answers of the kernel to its allocations, or a store
into the page of a block by a client that maps it. -/
inductive FsCall
  | op (op : FsOp) (mem : Nat → Bool)
  | fill (l : Loc) (w : Nat)

def Server.call (s : Server) : FsCall → Option Server
  | .op op mem =>
    match op.run { s with mem := mem, asked := 0 } with
    | .ok (_, t) => some t
    | .error _ => none
  | .fill l w => s.step (.fill l w)

/-- The file system after `fs_init` on any disk. -/
def fileSystem : Machine Server FsCall where
  init s := ∃ disk mem, mount disk mem = some s
  step := call

/-! ### Pages and blocks -/

/-- A page that is not marked has the contents of its block. -/
def Saved (s : Server) : Prop :=
  ∀ b p, s.cache b = some p → s.unsaved b = false → p.data = s.disk b

namespace Saved

section

variable (h : Saved s)
include h

theorem change (b : Nat) (data : Block) : Saved (s.change b data) := by
  intro c p hp hu
  by_cases hc : c = b
  · simp [Server.change, Server.mark, hc] at hu
  · refine h c p ?_ ?_
    · simpa [Server.change, Server.setPage, Server.mark, hc] using hp
    · simpa [Server.change, Server.setPage, Server.mark, hc] using hu

theorem drop (b : Nat) : Saved (s.setPage b none) := by
  intro c p hp hu
  by_cases hc : c = b
  · simp [setPage, hc] at hp
  · exact h c p (by simpa [setPage, hc] using hp) hu

theorem read (b : Nat) : Saved ((s.setPage b (some ⟨s.disk b, false⟩)).mark b false) := by
  intro c p hp hu
  by_cases hc : c = b
  · subst hc
    simp [setPage, mark] at hp
    rw [← hp]
    rfl
  · refine h c p ?_ ?_
    · simpa [setPage, mark, hc] using hp
    · simpa [setPage, mark, hc] using hu

theorem dirty {p : Page} (hp : s.cache b = some p) : Saved (s.setPage b (some ⟨p.data, true⟩)) := by
  intro c q hq hu
  by_cases hc : c = b
  · subst hc
    simp [setPage] at hq
    rw [← hq]
    exact h c p hp hu
  · exact h c q (by simpa [setPage, hc] using hq) hu

theorem write {p : Page} (hp : s.cache b = some p) :
    Saved (({ s with disk := Function.update s.disk b p.data }).mark b false) := by
  intro c q hq hu
  by_cases hc : c = b
  · subst hc
    obtain rfl : p = q := Option.some.inj (hp.symm.trans hq)
    simp [mark]
  · have hu : s.unsaved c = false := by simpa [mark, hc] using hu
    simpa [mark, hc] using h c q hq hu

end

end Saved

theorem closed_saved : Closed Saved where
  asks _ h := h
  stores _ b data h _ := h.change b data
  zeroes _ b h _ := h.change b Block.zero
  reads _ b h _ := h.read b
  dirties _ _ _ h hp := h.dirty hp
  writes _ _ _ h hp := h.write hp

/-- The pages after `fs_init`: the super block has one for good. -/
structure Paged (s : Server) : Prop where
  saved : Saved s
  super : s.Cached 1

theorem cached_setPage {p : Page} (hs : s.Cached 1) : (s.setPage b (some p)).Cached 1 := by
  by_cases hb : 1 = b
  · simp [Server.Cached, setPage, hb]
  · simpa [Server.Cached, setPage, hb] using hs

theorem closed_paged : Closed Paged where
  asks _ h := ⟨h.saved, h.super⟩
  stores _ b data h _ := ⟨h.saved.change b data, cached_setPage h.super⟩
  zeroes _ b h _ := ⟨h.saved.change b Block.zero, cached_setPage h.super⟩
  reads _ b h _ := ⟨h.saved.read b, cached_setPage h.super⟩
  dirties _ _ _ h hp := ⟨h.saved.dirty hp, cached_setPage h.super⟩
  writes _ _ _ h hp := ⟨h.saved.write hp, h.super⟩

/-- Between two operations the lock is free. -/
structure Idle (s : Server) : Prop where
  paged : Paged s
  lock : s.lock = false

theorem closed_idle : Closed Idle where
  asks s h := ⟨closed_paged.asks s h.paged, h.lock⟩
  stores s b data h hc := ⟨closed_paged.stores s b data h.paged hc, h.lock⟩
  zeroes s b h hc := ⟨closed_paged.zeroes s b h.paged hc, h.lock⟩
  reads s b h hc := ⟨closed_paged.reads s b h.paged hc, h.lock⟩
  dirties s b p h hp := ⟨closed_paged.dirties s b p h.paged hp, h.lock⟩
  writes s b p h hp := ⟨closed_paged.writes s b p h.paged hp, h.lock⟩

/-! ### The start -/

variable {I : Server → Prop}

theorem keeps_userAssert (c : Bool) : Keeps I (userAssert c) := .ite (.pure _) (.stop _)

theorem keeps_isMapped (b : Nat) : Keeps I (blockIsMapped b) :=
  .ite (.stop _) (Keeps.state.bind (fun _ => .pure _))

theorem Closed.readBitmap (hI : Closed I) (hbitmap : ∀ s, I s → I { s with bitmapSet := true }) :
    Keeps I Fs.readBitmap := by
  refine hI.nblocks.bind (fun n => ?_)
  refine (Keeps.each (fun i => (hI.readBlock (i + 2)).attempt.bind (fun _ => .pure ())) _).bind
    (fun _ => (Keeps.update hbitmap).bind (fun _ => ?_))
  refine (hI.blockIsFree 0).bind (fun _ => (keeps_userAssert _).bind (fun _ => ?_))
  refine (hI.blockIsFree 1).bind (fun _ => (keeps_userAssert _).bind (fun _ => ?_))
  exact .each (fun i => (hI.blockIsFree (i + 2)).bind (fun _ => keeps_userAssert _)) _

/-- `super` is set and reset while the block is tested. -/
theorem keeps_saved_superSet (f : Bool) :
    Keeps Saved (update (fun s : Server => { s with superSet := f }) : FsProg Unit) :=
  .update (fun _ h => h)

theorem keeps_saved_readSuper : Keeps Saved readSuper := by
  refine (Closed.orStop (closed_saved.readBlock 1)).bind (fun _ => ?_)
  refine (keeps_saved_superSet true).bind (fun _ => (closed_saved.load _).bind (fun _ => ?_))
  exact .ite (.stop _) (closed_saved.nblocks.bind (fun _ => .ite (.stop _) (.pure _)))

/-- The destination of a copy has a page. -/
theorem copyBlock_saved (dst src : Nat) (hs : Saved s) :
    wp (copyBlock dst src) (fun _ => True) (fun _ => Saved)
      (fun _ t => Saved t ∧ t.Cached dst) s := by
  refine (closed_saved.wp_pageAt hs).bind (fun p t ht => ?_)
  refine (closed_saved.wp_pageAt ht.1).bind (fun q u hu => ⟨hu.1.change dst p.data, ?_⟩)
  simp [Server.Cached, change, setPage, mark]

theorem keeps_saved_copyBlock (dst src : Nat) : Keeps Saved (copyBlock dst src) :=
  fun _ hs => (copyBlock_saved dst src hs).post (fun _ _ h => h.1)

theorem checkWriteBlock_paged (hs : Saved s) :
    wp checkWriteBlock (fun _ => True) (fun _ => Saved) (fun _ => Paged) s := by
  refine (keeps_saved_superSet false s hs).bind (fun _ s hs => ?_)
  refine (Closed.orStop (closed_saved.readBlock 0) s hs).bind (fun _ s hs => ?_)
  refine (keeps_saved_copyBlock 0 1 s hs).bind (fun _ s hs => ?_)
  refine (closed_saved.storeString _ _ s hs).bind (fun _ s hs => ?_)
  refine (closed_saved.writeBlock 1 s hs).bind (fun _ s hs => ?_)
  refine (keeps_isMapped 1 s hs).bind (fun _ s hs => ?_)
  refine (keeps_userAssert _ s hs).bind (fun _ s hs => ?_)
  refine (Keeps.update (fun s (h : Saved s) => h.drop 1) s hs).bind (fun _ s hs => ?_)
  refine (keeps_isMapped 1 s hs).bind (fun _ s hs => ?_)
  refine (keeps_userAssert _ s hs).bind (fun _ s hs => ?_)
  refine (Closed.orStop (closed_saved.readBlock 1) s hs).bind (fun _ s hs => ?_)
  refine (closed_saved.stringAt _ _ s hs).bind (fun _ s hs => ?_)
  refine (keeps_userAssert _ s hs).bind (fun _ s hs => ?_)
  refine (copyBlock_saved 1 0 hs).bind (fun _ s hs => ?_)
  have hwrite := closed_paged.writeBlock 1 s ⟨hs.1, hs.2⟩
  exact (hwrite.imp (fun _ _ hx => hx.saved) (fun _ _ h => h)).bind
    (fun _ t ht => ⟨ht.saved, ht.super⟩)

theorem fsInit_idle (hs : Saved s) :
    wp fsInit (fun _ => True) (fun _ => Saved) (fun _ => Idle) s := by
  have hlock : Keeps Saved userSpinLock :=
    Keeps.state.bind (fun _ => .ite (.stop _) (.update (fun _ h => h)))
  refine (hlock s hs).bind (fun _ s hs => ?_)
  refine (keeps_saved_readSuper s hs).bind (fun _ s hs => ?_)
  refine (checkWriteBlock_paged hs).bind (fun _ s hs => ?_)
  have hbitmap := closed_paged.readBitmap (fun s h => ⟨h.saved, h.super⟩) s hs
  exact (hbitmap.imp (fun _ _ hx => hx.saved) (fun _ _ h => h)).bind
    (fun _ t ht => ⟨⟨ht.saved, ht.super⟩, rfl⟩)

theorem idle_mount {disk : Nat → Block} {mem : Nat → Bool} (h : mount disk mem = some s) :
    Idle s := by
  have hstart : Saved (powerOn disk mem) := fun _ _ hp _ => nomatch hp
  have hwp := fsInit_idle hstart
  unfold mount at h
  split at h
  next t hrun =>
    cases h
    exact hwp.value hrun
  all_goals cases h

/-! ### `fs_sync` -/

/-- The loop of `fs_sync` with the blocks `rest` still to be done, from `s`. -/
structure Syncing (s : Server) (rest : List Nat) (t : Server) : Prop where
  cache : t.cache = s.cache
  saved : Saved t
  lock : t.lock = s.lock
  disk : ∀ b, s.cache b = none → t.disk b = s.disk b
  marks : ∀ b, t.unsaved b = true → s.unsaved b = true
  done : ∀ b, b < diskSize s.view → s.isDirty b = true → b ∉ rest → t.unsaved b = false

variable {X : FsErr → Server → Prop}

theorem Syncing.step {i : Nat} {rest : List Nat} (h : Syncing s (i :: rest) t) :
    wp (do let dirty ← blockIsDirty i; when (dirty = true) (writeBlock i)) (fun _ => True) X
      (fun _ => Syncing s rest) t := by
  refine wp_bind.mpr ?_
  by_cases hi : DISKMAX / BLOCK_SIZE ≤ i
  · exact wp_bind.mpr (wp_pos hi trivial)
  refine wp_bind.mpr (wp_blockIsMapped (Nat.not_le.mp hi) ?_)
  have hskip : s.isDirty i = false → Syncing s rest t := by
    intro hclean
    refine ⟨h.cache, h.saved, h.lock, h.disk, h.marks, fun b hb hd hrest => ?_⟩
    have hbi : b ≠ i := by
      rintro rfl
      rw [hclean] at hd
      cases hd
    exact h.done b hb hd (by simp [hbi, hrest])
  cases hp : t.cache i with
  | none =>
    have hclean : s.isDirty i = false := by simp [isDirty, ← h.cache, hp]
    exact hskip hclean
  | some =>
    refine wp_when (fun _ => ?_) (fun hc => hskip ?_)
    · refine wp_bind.mpr (wp_blockIsMapped (Nat.not_le.mp hi) ?_)
      rw [hp]
      refine ⟨h.cache, h.saved.write hp, h.lock, fun b hb => ?_, fun b hb => ?_,
        fun b hb hd hrest => ?_⟩
      · have hbi : b ≠ i := by
          rintro rfl
          rw [← h.cache, hp] at hb
          cases hb
        simpa [mark, hbi] using h.disk b hb
      · by_cases hbi : b = i
        · simp [mark, hbi] at hb
        · exact h.marks b (by simpa [mark, hbi] using hb)
      · by_cases hbi : b = i
        · simp [mark, hbi]
        · simpa [mark, hbi] using h.done b hb hd (by simp [hbi, hrest])
    · simpa [isDirty, ← h.cache, hp] using hc

theorem fsSync_spec (h : Idle s) : wp fsSync (fun _ => True) X (fun _ t => Syncing s [] t) s := by
  refine wp_bind.mpr (wp_userSpinLock h.lock (wp_bind.mpr ?_))
  refine wp_load (l := ⟨1, 1⟩) (by decide) h.paged.super (by decide) ?_
  have hstart : Syncing { s with lock := true } (List.range (diskSize s.view))
      { s with lock := true } :=
    ⟨rfl, h.paged.saved, rfl, fun _ _ => rfl, fun _ hb => hb,
      fun b hb _ hn => absurd (List.mem_range.mpr hb) hn⟩
  refine (wp_each (I := Syncing { s with lock := true }) (fun _ _ _ ht => ht.step) _ hstart).bind ?_
  intro _ t ht
  exact ⟨ht.cache, ht.saved, h.lock.symm, ht.disk, ht.marks, ht.done⟩

theorem Syncing.view (h : Syncing s [] t) : t.view = s.view := by
  funext b
  unfold Server.view
  rw [h.cache]
  cases hp : s.cache b with
  | some => rfl
  | none => exact h.disk b hp

theorem Syncing.idle (h : Syncing s [] t) (hs : Idle s) : Idle t := by
  refine ⟨⟨h.saved, ?_⟩, h.lock.trans hs.lock⟩
  unfold Server.Cached
  rw [h.cache]
  exact hs.paged.super

/-- A block whose page has the bit `PTE_DIRTY` or no change is on the disk. -/
theorem Syncing.onDisk (h : Syncing s [] t) (hb : b < diskSize s.view)
    (hmark : s.unsaved b = true → s.isDirty b = true) : t.disk b = t.view b := by
  have hclean : t.unsaved b = false := by
    by_contra hu
    have hu : t.unsaved b = true := Bool.not_eq_false _ ▸ hu
    rw [h.done b hb (hmark (h.marks b hu)) (by simp)] at hu
    cases hu
  unfold Server.view
  cases hp : t.cache b with
  | some p => exact (h.saved b p hp hclean).symm
  | none => rfl

theorem FsOp.keeps_idle (op : FsOp) : Keeps Idle op.run := by
  cases op with
  | create path => exact (closed_idle.fileCreate path).bind (fun _ => .pure ())
  | remove path => exact closed_idle.fileRemove path
  | setSize f size => exact closed_idle.fileSetSize f size
  | getBlock f i => exact (closed_idle.fileGetBlock f i).bind (fun _ => .pure ())
  | dirty f offset => exact closed_idle.fileDirty f offset
  | close f => exact closed_idle.fileClose f
  | sync =>
    intro s hs
    exact (fsSync_spec hs).post (fun _ t ht => ht.idle hs)

theorem Idle.call {c : FsCall} (h : Idle s) (hstep : s.call c = some t) : Idle t := by
  cases c with
  | fill =>
    rw [step_fill hstep]
    exact ⟨⟨h.paged.saved.change _ _, cached_setPage h.paged.super⟩, h.lock⟩
  | op op mem =>
    simp only [Server.call] at hstep
    split at hstep <;> cases hstep
    next r _ hrun =>
    have hstart : Idle { s with mem := mem, asked := 0 } := ⟨⟨h.paged.saved, h.paged.super⟩, h.lock⟩
    exact op.keeps_idle.result hstart hrun

theorem idle_of_reachable (h : fileSystem.Reachable s) : Idle s := by
  induction h with
  | init h =>
    obtain ⟨_, _, hmount⟩ := h
    exact idle_mount hmount
  | step _ _ _ hstep ih => exact ih.call hstep

/-! ### The disk mounted again -/

/-- The super block is on the disk and the files name blocks of the disk only. -/
structure InRange (v : View) : Prop where
  super : 1 < diskSize v
  ref : ∀ f p, Reach v f → f.ref v p < diskSize v

/-- The same directory tree, sizes, block lists and bitmap. -/
structure SameFiles (v v' : View) : Prop where
  disk : diskSize v' = diskSize v
  reach : ∀ f, Reach v' f ↔ Reach v f
  words : ∀ f, Reach v f → ∀ k, v' f.blk (f.off + k) = v f.blk (f.off + k)
  ref : ∀ f p, Reach v f → f.ref v' p = f.ref v p
  unused : ∀ b, b < diskSize v → (Unused v' b ↔ Unused v b)

namespace InRange

variable (h : InRange v) (hsame : ∀ b, b ≠ 0 → b < diskSize v → v' b = v b)
include h

theorem file (hf : Reach v f) : f.blk ≠ 0 ∧ f.blk < diskSize v := by
  rcases hf.root_or with rfl | ⟨d, hd, _, ⟨i, _, _, hne, _, rfl⟩, _⟩
  · exact ⟨by decide, h.super⟩
  · exact ⟨hne, h.ref d (.slot i) hd⟩

include hsame

theorem words (hf : Reach v f) (k : Nat) : v' f.blk (f.off + k) = v f.blk (f.off + k) := by
  rw [hsame f.blk (h.file hf).1 (h.file hf).2]

theorem ref_eq (hf : Reach v f) (p : Place) : f.ref v' p = f.ref v p := by
  have hind : f.indirect v' = f.indirect v := h.words hsame hf 44
  cases p with
  | indirect => exact hind
  | slot i =>
    have hdirect : f.direct v' i = f.direct v i := h.words hsame hf (34 + i)
    change f.slot v' i = f.slot v i
    unfold slot
    rw [hdirect, hind]
    by_cases hi : i < NDIRECT
    · rw [if_pos hi, if_pos hi]
    · rw [if_neg hi, if_neg hi]
      by_cases hc : i < NINDIRECT ∧ f.indirect v ≠ 0
      · rw [if_pos hc, if_pos hc, hsame _ hc.2 (h.ref f .indirect hf)]
      · rw [if_neg hc, if_neg hc]

theorem child (hd : Reach v d) (f : FilePtr) : Child v' d f ↔ Child v d f := by
  have htype : d.type v' = d.type v := h.words hsame hd 33
  have hsize : d.nblock v' = d.nblock v := by
    unfold nblock
    rw [show d.size v' = d.size v from h.words hsame hd 32]
  have hslot : ∀ i, d.slot v' i = d.slot v i := fun i => h.ref_eq hsame hd (.slot i)
  have hdir : DirSlot v' d f ↔ DirSlot v d f := by
    unfold DirSlot
    simp only [hsize, hslot]
  have hlive : DirSlot v d f → (f.live v' ↔ f.live v) := by
    rintro ⟨i, j, _, hne, _, rfl⟩
    unfold live
    rw [show v' (inBlock (d.slot v i) j).blk = v (inBlock (d.slot v i) j).blk from
      hsame _ hne (h.ref d (.slot i) hd)]
  unfold Child
  rw [htype, hdir]
  constructor
  · rintro ⟨ht, hs, hl⟩
    exact ⟨ht, hs, (hlive hs).mp hl⟩
  · rintro ⟨ht, hs, hl⟩
    exact ⟨ht, hs, (hlive hs).mpr hl⟩

theorem sameFiles (hbitmap : ∀ b, b < diskSize v → (bitmapWord b).blk < diskSize v) :
    SameFiles v v' where
  disk := congrFun (hsame 1 (by decide) h.super) 1
  reach := reflTransGen_congr (fun _ hd f => h.child hsame hd f)
  words _ hf := h.words hsame hf
  ref _ p hf := h.ref_eq hsame hf p
  unused b hb := by
    have hne : (bitmapWord b).blk ≠ 0 :=
      Nat.ne_of_gt (Nat.lt_of_lt_of_le Nat.two_pos (Nat.le_add_right _ _))
    unfold Unused getAt
    rw [hsame _ hne (hbitmap b hb)]

end InRange

/-- A disk that agrees with `v` on all blocks but the boot block has the files of
`v` again when it is mounted. -/
theorem sameFiles_mount {disk : Nat → Block} {mem : Nat → Bool} (h : InRange v)
    (hsame : ∀ b, b ≠ 0 → b < diskSize v → disk b = v b) (hmem : ∀ n, mem n = true)
    (hmount : mount disk mem = some u) : SameFiles v u.view := by
  have hwp := fsInit_view (E := fun _ => True) (X := fun _ _ => True) (D := disk) hmem
    (fun _ => trivial)
  unfold mount at hmount
  split at hmount
  next w hrun =>
    cases hmount
    obtain ⟨_, _, _, hbitmap, hview⟩ := hwp.value hrun
    have hagree : ∀ b, b ≠ 0 → b < diskSize v → u.view b = v b :=
      fun b hb hlt => (hview b hb).trans (hsame b hb hlt)
    have hdisk : diskSize u.view = diskSize v := congrFun (hagree 1 (by decide) h.super) 1
    rw [hdisk] at hbitmap
    exact h.sameFiles hagree (fun b hb => (hbitmap b hb).1)
  all_goals cases hmount

/-- If every changed page of a block of the disk, the copy of the super block in
the page of the boot block apart, has the bit `PTE_DIRTY` when `fs_sync` runs,
the disk has the contents of the cache after it. -/
theorem sync_saves {mem : Nat → Bool} (hreach : fileSystem.Reachable s)
    (hmarked : ∀ b, b ≠ 0 → b < diskSize s.view → s.unsaved b = true → s.isDirty b = true)
    (hsync : s.call (.op .sync mem) = some t) :
    t.view = s.view ∧ (∀ b, b ≠ 0 → b < diskSize t.view → t.disk b = t.view b) ∧
      ∀ u mem', InRange t.view → (∀ n, mem' n = true) → mount t.disk mem' = some u →
        SameFiles t.view u.view := by
  have hidle := idle_of_reachable hreach
  have hstart : Idle { s with mem := mem, asked := 0 } :=
    ⟨⟨hidle.paged.saved, hidle.paged.super⟩, hidle.lock⟩
  have hspec := fsSync_spec (X := fun _ _ => False) hstart
  simp only [call] at hsync
  split at hsync
  · next r w hrun =>
    cases hsync
    cases r with
    | error => exact (hspec.error hrun).elim
    | ok =>
      have ht := hspec.value hrun
      have hview : t.view = s.view := ht.view
      have hdisk : ∀ b, b ≠ 0 → b < diskSize t.view → t.disk b = t.view b := by
        intro b hb hlt
        rw [hview] at hlt
        exact ht.onDisk hlt (hmarked b hb hlt)
      exact ⟨hview, hdisk, fun u mem' hrange hmem hmount =>
        sameFiles_mount hrange hdisk hmem hmount⟩
  · cases hsync

/-- Sixteen blocks with the empty file `/a`. -/
def imageA (b k : Nat) : Nat :=
  if b = 1 then
    if k = 0 then FS_MAGIC
    else if k = 1 then 16
    else if k = 34 then BLOCK_SIZE
    else if k = 35 then FTYPE_DIR
    else if k = 36 then 3
    else 0
  else if b = 2 ∧ k = 0 then 0xfff0
  else if b = 3 ∧ k = 0 then 97
  else 0

/-- The first block of the file is given to it and marked, as is the block with
its structure. -/
theorem sync_saves_block : ∃ s t, fileSystem.Reachable s ∧ s.unsaved 3 = true ∧ s.unsaved 4 = true ∧
      s.call (.op .sync enough) = some t ∧ t.view = s.view ∧
      ∀ b, b ≠ 0 → b < diskSize t.view → t.disk b = t.view b := by
  have hsome : (mount imageA enough).isSome = true := by decide +kernel
  obtain ⟨s₀, hs₀⟩ := Option.isSome_iff_exists.mp hsome
  have hrun : ((mount imageA enough).bind (fun s₀ => fileSystem.exec (fun _ _ => True) s₀
      [.op (.create pathA) enough, .op (.close ⟨3, 0⟩) enough, .op (.getBlock ⟨3, 0⟩ 0) enough,
        .op (.dirty ⟨3, 0⟩ 0) enough])).any (fun s : Server => decide ((s.unsaved 3 = true ∧
          s.unsaved 4 = true ∧ diskSize s.view = 16 ∧ (s.call (.op .sync enough)).isSome = true) ∧
          ∀ b : Nat, b < 16 → b ≠ 0 → (!s.unsaved b || s.isDirty b) = true)) = true := by
    decide +kernel
  rw [hs₀] at hrun
  have hstart : fileSystem.Reachable s₀ := .init ⟨imageA, enough, hs₀⟩
  obtain ⟨s, hs, ⟨h3, h4, hsize, hsync⟩, hall⟩ :=
    Machine.exists_reachableUnder_of_exec _ hstart hrun
  have hmarked : ∀ b, b ≠ 0 → b < diskSize s.view → s.unsaved b = true → s.isDirty b = true := by
    intro b hb hlt hu
    simpa [hu] using hall b (hsize ▸ hlt) hb
  obtain ⟨t, ht⟩ := Option.isSome_iff_exists.mp hsync
  obtain ⟨hview, hdisk, _⟩ := sync_saves hs hmarked ht
  exact ⟨s, t, hs, h3, h4, ht, hview, hdisk⟩

/-- A file is created and the file system synced: on the disk the root directory
is still empty. -/
theorem createdFile_unsaved : ∃ s t u, fileSystem.Reachable s ∧ s.call (.op .sync enough) = some t ∧
      t.disk 1 ≠ t.view 1 ∧ mount t.disk enough = some u ∧
      root.size t.view = BLOCK_SIZE ∧ root.size u.view = 0 := by
  have hstart : fileSystem.Reachable mounted := .init ⟨image, enough, mount_image⟩
  obtain ⟨s, hs, h⟩ := Machine.exists_reachableUnder_of_exec
    (P := fun s : Server => (s.call (.op .sync enough)).any (fun t =>
      decide (t.disk 1 34 ≠ t.view 1 34 ∧ root.size t.view = BLOCK_SIZE) &&
      (mount t.disk enough).any (fun u => decide (root.size u.view = 0))) = true)
    [.op (.create pathA) enough] hstart (by decide +kernel)
  obtain ⟨t, ht, hall⟩ := (Option.any_eq_true ..).mp h
  obtain ⟨hview, hmount⟩ := Bool.and_eq_true_iff.mp hall
  obtain ⟨hne, hsize⟩ := of_decide_eq_true hview
  obtain ⟨u, hu, hzero⟩ := (Option.any_eq_true ..).mp hmount
  exact ⟨s, t, u, hs, ht, fun heq => hne (congrFun heq 34), hu, hsize, of_decide_eq_true hzero⟩

end MosSmp.Fs
