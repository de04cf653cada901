import MosSmp.Fs.Block

/-!
The files of the file server (`fs/fs.c`, from `file_block_walk` on). A
`struct File *` is a block with a word offset in it; the structure itself is the
64 words from there. The field `f_dir` holds an address of the server, so it is
turned into a pointer where the code follows it.
-/

namespace MosSmp.Fs

open Lib Prog List

abbrev NDIRECT : Nat := 10
abbrev NINDIRECT : Nat := BLOCK_SIZE / 4
abbrev MAXFILESIZE : Nat := NINDIRECT * BLOCK_SIZE
abbrev MAXNAMELEN : Nat := 128
abbrev FILE2BLK : Nat := 16
abbrev FTYPE_REG : Nat := 0
abbrev FTYPE_DIR : Nat := 1

namespace FilePtr

/-- Word `k` of the structure. -/
def word (f : FilePtr) (k : Nat) : Loc :=
  ⟨f.blk, f.off + k⟩

/-- The structure of index `j` in a block of a directory. -/
def inBlock (b j : Nat) : FilePtr :=
  ⟨b, 64 * j⟩

/-- `&super->s_root`. -/
def root : FilePtr :=
  ⟨1, 2⟩

def fName (f : FilePtr) : Loc := f.word 0
def fSize (f : FilePtr) : Loc := f.word 32
def fType (f : FilePtr) : Loc := f.word 33
def fDirect (f : FilePtr) (i : Nat) : Loc := f.word (34 + i)
def fIndirect (f : FilePtr) : Loc := f.word 44
def fDir (f : FilePtr) : Loc := f.word 45

def addr (f : FilePtr) : Nat :=
  DISKMAP + f.blk * BLOCK_SIZE + f.off * 4

/-- The structure at an address of the block region. -/
def ofAddr (a : Nat) : Option FilePtr :=
  if DISKMAP ≤ a ∧ a % 4 = 0 then
    some ⟨(a - DISKMAP) / BLOCK_SIZE, (a - DISKMAP) % BLOCK_SIZE / 4⟩
  else none

end FilePtr

/-- `ROUND(size, BLOCK_SIZE) / BLOCK_SIZE`, where the sum of `ROUND` wraps. -/
def roundBlocks (size : Nat) : Nat :=
  (size + (BLOCK_SIZE - 1)) % 2 ^ 32 / BLOCK_SIZE

/-- The pointer in `f_dir`, `none` for the null pointer. -/
def parentDir (f : FilePtr) : FsProg (Option FilePtr) := do
  let a ← load f.fDir
  if a = 0 then pure none
  else
    match FilePtr.ofAddr a with
    | some d => pure (some d)
    | none => stop .outside

/-- Step 2 of `file_block_walk`: the indirect block of `f`. -/
def indirectBlock (f : FilePtr) (alloc : Bool) : FsProg Nat := do
  let ind ← load f.fIndirect
  if ind ≠ 0 then pure ind
  else if alloc = false then fail .notFound
  else
    let r ← allocBlock
    store f.fIndirect r
    pure r

def fileBlockWalk (f : FilePtr) (filebno : Nat) (alloc : Bool) : FsProg Loc := do
  if filebno < NDIRECT then pure (f.fDirect filebno)
  else if filebno < NINDIRECT then
    let ind ← indirectBlock f alloc
    readBlock ind
    pure ⟨ind, filebno⟩
  else fail .inval

def fileMapBlock (f : FilePtr) (filebno : Nat) (alloc : Bool) : FsProg Nat := do
  let ptr ← fileBlockWalk f filebno alloc
  let d ← load ptr
  if d ≠ 0 then pure d
  else if alloc = false then fail .notFound
  else
    let r ← allocBlock
    store ptr r
    pure r

def fileClearBlock (f : FilePtr) (filebno : Nat) : FsProg Unit := do
  let ptr ← fileBlockWalk f filebno false
  let d ← load ptr
  when (d ≠ 0) do
    freeBlock d
    store ptr 0

def fileGetBlock (f : FilePtr) (filebno : Nat) : FsProg Nat := do
  let d ← fileMapBlock f filebno true
  readBlock d
  pure d

def fileDirty (f : FilePtr) (offset : Nat) : FsProg Unit := do
  let d ← fileMapBlock f (offset / BLOCK_SIZE) false
  dirtyBlock d

abbrev Name := List Byte

/-- One step of the inner loop of `dir_lookup`. -/
def tryFile (dir : FilePtr) (name : Name) (f : FilePtr) : FsProg (Option FilePtr) := do
  let same ← stringAt f.fName name
  if same then
    store f.fDir dir.addr
    pure (some f)
  else pure none

def dirLookup (dir : FilePtr) (name : Name) : FsProg FilePtr := do
  let size ← load dir.fSize
  let found ← search (fun i => do
    let b ← fileGetBlock dir i
    search (fun j => tryFile dir name (.inBlock b j)) (range FILE2BLK))
      (range (size / BLOCK_SIZE))
  match found with
  | some f => pure f
  | none => fail .notFound

/-- One step of the inner loop of `dir_alloc_file`. -/
def tryUnused (f : FilePtr) : FsProg (Option FilePtr) := do
  let unused ← stringAt f.fName []
  if unused then pure (some f) else pure none

/-- The last part of `dir_alloc_file`. The size grows before the block is
taken, and stays so if there is none. -/
def growDir (dir : FilePtr) (nblock : Nat) : FsProg FilePtr := do
  let size ← load dir.fSize
  store dir.fSize ((size + BLOCK_SIZE) % 2 ^ 32)
  let b ← fileGetBlock dir nblock
  pure (.inBlock b 0)

def dirAllocFile (dir : FilePtr) : FsProg FilePtr := do
  let size ← load dir.fSize
  let found ← search (fun i => do
    let b ← fileGetBlock dir i
    search (fun j => tryUnused (.inBlock b j)) (range FILE2BLK))
      (range (size / BLOCK_SIZE))
  match found with
  | some f => pure f
  | none => growDir dir (size / BLOCK_SIZE)

/-- What `walk_path` returns: a file, the directory and the last element of a
path whose file is missing, or an error with `*pdir = 0`. -/
inductive Walk
  | found (file : FilePtr)
  | missing (dir : FilePtr) (lastelem : Name)
  | failed (e : FsErr)
  deriving DecidableEq

/-- The elements of a path, as `walk_path` splits it: the bytes before the NUL,
with any number of slashes around the elements. -/
def elements (path : List Byte) : List Name :=
  ((path.takeWhile (· ≠ 0)).splitOn 47).filter (· ≠ [])

/-- The loop of `walk_path`, from `file` on. -/
def walkFrom (file : FilePtr) : List Name → FsProg Walk
  | [] => pure (.found file)
  | name :: rest => do
      if MAXNAMELEN ≤ name.length then pure (.failed .badPath)
      else
        let type ← load file.fType
        if type ≠ FTYPE_DIR then pure (.failed .notFound)
        else
          match ← attempt (dirLookup file name) with
          | .ok f => walkFrom f rest
          | .error e =>
            if e = .notFound ∧ rest = [] then pure (.missing file name)
            else pure (.failed e)

def walkPath (path : List Byte) : FsProg Walk :=
  walkFrom .root (elements path)

/-- `walk_path` for callers that want the file only. -/
def fileOpen (path : List Byte) : FsProg FilePtr := do
  match ← walkPath path with
  | .found f => pure f
  | .missing _ _ => fail .notFound
  | .failed e => fail e

/-- The name is all that `file_create` stores: the type, the size and the
blocks of the structure stay as they were. -/
def fileCreate (path : List Byte) : FsProg FilePtr := do
  match ← walkPath path with
  | .found _ => fail .fileExists
  | .failed e => fail e
  | .missing dir name =>
    match ← attempt (dirAllocFile dir) with
    | .error _ => fail .notFound
    | .ok f =>
      storeString f.fName name
      pure f

/-- The loop of `file_truncate`. -/
def clearBlocks (f : FilePtr) (lo hi : Nat) : FsProg Unit :=
  each (fun bno => panicOn (fileClearBlock f bno)) (range' lo (hi - lo))

def freeIndirect (f : FilePtr) : FsProg Unit := do
  let ind ← load f.fIndirect
  when (ind ≠ 0) do
    freeBlock ind
    store f.fIndirect 0

def fileTruncate (f : FilePtr) (newsize : Nat) : FsProg Unit := do
  let size ← load f.fSize
  let hi := roundBlocks size
  let lo := if newsize = 0 then 0 else roundBlocks newsize
  clearBlocks f lo hi
  when (lo ≤ NDIRECT) (freeIndirect f)
  store f.fSize newsize

def fileFlush (f : FilePtr) : FsProg Unit := do
  let size ← load f.fSize
  each (fun bno => do
    match ← attempt (fileMapBlock f bno false) with
    | .error _ => pure ()
    | .ok d =>
      let dirty ← blockIsDirty d
      when (dirty = true) (writeBlock d)) (range (roundBlocks size))

/-- `file_flush` of the directory of `f`, if `f_dir` is set. -/
def flushDir (f : FilePtr) : FsProg Unit := do
  match ← parentDir f with
  | some d => fileFlush d
  | none => pure ()

def fileSetSize (f : FilePtr) (newsize : Nat) : FsProg Unit := do
  let size ← load f.fSize
  when (newsize < size) (fileTruncate f newsize)
  store f.fSize newsize
  flushDir f

def fsSync : FsProg Unit := do
  userSpinLock
  let n ← nblocks
  each (fun i => do
    let dirty ← blockIsDirty i
    when (dirty = true) (writeBlock i)) (range n)
  userSpinUnlock

/-- The body of the loop of `file_close`; `some ()` leaves the loop. -/
def dirtyIfHolds (dir f : FilePtr) (i : Nat) : FsProg (Option Unit) := do
  match ← attempt (fileMapBlock dir i false) with
  | .error _ => pure (some ())
  | .ok d =>
    match ← attempt (readBlock d) with
    | .error _ => pure (some ())
    | .ok _ =>
      if d = f.blk then
        let _ ← attempt (dirtyBlock d)
        pure (some ())
      else pure none

def fileClose (f : FilePtr) : FsProg Unit := do
  fileFlush f
  match ← parentDir f with
  | none => pure ()
  | some dir =>
    let size ← load dir.fSize
    let _ ← search (dirtyIfHolds dir f) (range (size / BLOCK_SIZE))
    fileFlush dir

def fileRemove (path : List Byte) : FsProg Unit := do
  let f ← fileOpen path
  fileTruncate f 0
  storeString f.fName []
  fileFlush f
  flushDir f

end MosSmp.Fs
