import MosSmp.Word
import MosSmp.Lib.Prog

/-!
The block cache of the file server (`fs/fs.c`, up to `fs_init`). A block is its
1024 words; the cache is the region `DISKMAP` of the server's address space,
where block `b` has a page or has none. The system calls the server makes on
these pages are part of the model: an allocation is answered by `mem`, the
other calls succeed. An access to a page that is not mapped makes the kernel map
a page of zeros. A block number past the region and an index past the end of a
block have no result.
-/

namespace MosSmp.Fs

open Lib

abbrev BLOCK_SIZE : Nat := 4096
abbrev BLOCK_SIZE_BIT : Nat := BLOCK_SIZE * 8
abbrev DISKMAP : Nat := 0x10000000
abbrev DISKMAX : Nat := 0x40000000
abbrev FS_MAGIC : Nat := 0x68286097

inductive FsErr
  | inval
  | noMem
  | noDisk
  | maxOpen
  | notFound
  | badPath
  | fileExists
  deriving DecidableEq

/-- Why the server does not get any further. -/
inductive Stop
  | writeUnmapped
  | readNonexistent
  | readFree
  | cannotReadSuper
  | badMagic
  | tooLarge
  | userAssert
  | panicOn (e : FsErr)
  /-- `user_spin_lock` on a lock that its only user holds. -/
  | spin
  /-- `passive_alloc` finds no page and the kernel panics. -/
  | unmapped
  | outside
  deriving DecidableEq

abbrev Byte := Fin 256

abbrev Block := Nat → Nat

namespace Block

def zero : Block := fun _ => 0

/-- The byte at address `a` of the block, in little-endian words. -/
def byte (p : Block) (a : Nat) : Nat :=
  p (a / 4) / 256 ^ (a % 4) % 256

def setByte (p : Block) (a : Nat) (c : Byte) : Block :=
  Function.update p (a / 4)
    (p (a / 4) - p.byte a * 256 ^ (a % 4) + c.val * 256 ^ (a % 4))

def setBytes (p : Block) (a : Nat) : List Byte → Block
  | [] => p
  | c :: rest => setBytes (p.setByte a c) (a + 1) rest

def hasBytes (p : Block) (a : Nat) : List Byte → Bool
  | [] => true
  | c :: rest => p.byte a == c.val && hasBytes p (a + 1) rest

end Block

/-- A page of the cache with its bit `PTE_DIRTY`. -/
structure Page where
  data : Block
  dirty : Bool

structure FilePtr where
  blk : Nat
  off : Nat
  deriving DecidableEq

/-- A word of a block. -/
structure Loc where
  blk : Nat
  idx : Nat
  deriving DecidableEq

/-- An entry of `opentab`. `pageref` is the number of mappings of the page
`o_ff`: 0 before the server allocates it, 1 when only the server maps it. -/
structure Open where
  file : Option FilePtr
  mode : Nat
  pageref : Nat

/-- What a reply shows its client: nothing, the `Filefd` page of an entry of
`opentab`, or the page of a block. -/
inductive Shown
  | nothing
  | filefd (fileid : Nat)
  | block (b : Nat)
  deriving DecidableEq

structure Reply where
  whom : Nat
  value : Except FsErr Unit
  page : Shown

/-- The state of the server and of its disk. `unsaved` marks the blocks whose
page has changed since it was last written or read; no function reads it. -/
structure Server where
  disk : Nat → Block
  cache : Nat → Option Page
  superSet : Bool
  bitmapSet : Bool
  mem : Nat → Bool
  asked : Nat
  lock : Bool
  reqva : Bool
  opentab : Nat → Open
  replies : List Reply
  unsaved : Nat → Bool

abbrev FsProg := Prog Stop FsErr Server

namespace Server

/-- A block as the server sees it: its page if it has one, else the disk. -/
def view (s : Server) (b : Nat) : Block :=
  match s.cache b with
  | some p => p.data
  | none => s.disk b

def Cached (s : Server) (b : Nat) : Prop :=
  (s.cache b).isSome = true

instance decidableCached (s : Server) (b : Nat) : Decidable (s.Cached b) :=
  inferInstanceAs (Decidable (_ = true))

def isDirty (s : Server) (b : Nat) : Bool :=
  (s.cache b).any (·.dirty)

def setPage (s : Server) (b : Nat) (p : Option Page) : Server :=
  { s with cache := Function.update s.cache b p }

def mark (s : Server) (b : Nat) (changed : Bool) : Server :=
  { s with unsaved := Function.update s.unsaved b changed }

/-- The contents of the page of block `b` become `data`. -/
def change (s : Server) (b : Nat) (data : Block) : Server :=
  (s.setPage b (some ⟨data, s.isDirty b⟩)).mark b true

end Server

open Prog

/-- The value of `m`; an error ends the server. -/
def orStop {α : Type} (m : FsProg α) (reason : FsErr → Stop) : FsProg α := do
  match ← attempt m with
  | .ok a => pure a
  | .error e => stop (reason e)

def panicOn {α : Type} (m : FsProg α) : FsProg α :=
  orStop m .panicOn

def userAssert (c : Bool) : FsProg Unit :=
  if c then pure () else stop .userAssert

def userSpinLock : FsProg Unit := do
  let s ← state
  if s.lock then stop .spin else update (fun s => { s with lock := true })

def userSpinUnlock : FsProg Unit :=
  update (fun s => { s with lock := false })

/-- The answer of the kernel to `syscall_mem_alloc`. -/
def memAlloc : FsProg Unit := do
  let s ← state
  update (fun s => { s with asked := s.asked + 1 })
  if s.mem s.asked then pure () else fail .noMem

/-- The page of block `b` at `disk_addr(b)`, if it is mapped. -/
def blockIsMapped (b : Nat) : FsProg (Option Page) := do
  if DISKMAX / BLOCK_SIZE ≤ b then stop .outside
  else
    let s ← state
    pure (s.cache b)

/-- The TLB refill for a page that is not mapped. -/
def passiveAlloc (b : Nat) : FsProg Page := do
  let s ← state
  update (fun s => { s with asked := s.asked + 1 })
  if s.mem s.asked then
    update (fun s => s.change b Block.zero)
    pure ⟨Block.zero, false⟩
  else stop .unmapped

/-- The page of block `b`, for an access to it. -/
def pageAt (b : Nat) : FsProg Page := do
  match ← blockIsMapped b with
  | some p => pure p
  | none => passiveAlloc b

def load (l : Loc) : FsProg Nat := do
  if BLOCK_SIZE / 4 ≤ l.idx then stop .outside
  else
    let p ← pageAt l.blk
    pure (p.data l.idx)

def store (l : Loc) (w : Nat) : FsProg Unit := do
  if BLOCK_SIZE / 4 ≤ l.idx then stop .outside
  else
    let p ← pageAt l.blk
    update (fun s => s.change l.blk (Function.update p.data l.idx w))

/-- `strcpy` to word `l` of a block. -/
def storeString (l : Loc) (str : List Byte) : FsProg Unit := do
  let p ← pageAt l.blk
  update (fun s => s.change l.blk (p.data.setBytes (4 * l.idx) (str ++ [0])))

/-- `strcmp` of `str` with the bytes at word `l` of a block. -/
def stringAt (l : Loc) (str : List Byte) : FsProg Bool := do
  let p ← pageAt l.blk
  pure (p.data.hasBytes (4 * l.idx) (str ++ [0]))

/-- `memcpy` of a whole block. -/
def copyBlock (dst src : Nat) : FsProg Unit := do
  let p ← pageAt src
  let _ ← pageAt dst
  update (fun s => s.change dst p.data)

def ideRead (b : Nat) : FsProg Unit :=
  update (fun s => (s.setPage b (some ⟨s.disk b, false⟩)).mark b false)

def ideWrite (b : Nat) (data : Block) : FsProg Unit :=
  update (fun s => ({ s with disk := Function.update s.disk b data }).mark b false)

def blockIsDirty (b : Nat) : FsProg Bool := do
  match ← blockIsMapped b with
  | some p => pure p.dirty
  | none => pure false

def dirtyBlock (b : Nat) : FsProg Unit := do
  match ← blockIsMapped b with
  | none => fail .notFound
  | some p =>
    if p.dirty then pure ()
    else update (fun s => s.setPage b (some ⟨p.data, true⟩))

/-- The bit `PTE_DIRTY` stays set: nothing maps the page without it again. -/
def writeBlock (b : Nat) : FsProg Unit := do
  match ← blockIsMapped b with
  | none => stop .writeUnmapped
  | some p => ideWrite b p.data

def nblocks : FsProg Nat :=
  load ⟨1, 1⟩

/-- The word of the bitmap with the bit of block `b`; the bitmap starts at
block 2. -/
def bitmapWord (b : Nat) : Loc :=
  ⟨2 + b / 32 / (BLOCK_SIZE / 4), b / 32 % (BLOCK_SIZE / 4)⟩

def blockIsFree (b : Nat) : FsProg Bool := do
  let s ← state
  if s.superSet = false then pure false
  else
    let n ← nblocks
    if n ≤ b then pure false
    else
      let w ← load (bitmapWord b)
      pure (w.testBit (b % 32))

/-- Step 1 of `read_block`. -/
def checkExists (b : Nat) : FsProg Unit := do
  let s ← state
  if s.superSet then
    let n ← nblocks
    if n ≤ b then stop .readNonexistent else pure ()
  else pure ()

/-- Step 2 of `read_block`. -/
def checkUsed (b : Nat) : FsProg Unit := do
  let s ← state
  if s.bitmapSet then
    let free ← blockIsFree b
    if free then stop .readFree else pure ()
  else pure ()

def readBlock (b : Nat) : FsProg Unit := do
  checkExists b
  checkUsed b
  match ← blockIsMapped b with
  | some _ => pure ()
  | none =>
    memAlloc
    ideRead b

/-- A page that is already mapped is kept with its contents; a new one holds
zeros, whatever the disk has. -/
def mapBlock (b : Nat) : FsProg Unit := do
  match ← blockIsMapped b with
  | some _ => pure ()
  | none =>
    memAlloc
    update (fun s => s.change b Block.zero)

def freeBlock (b : Nat) : FsProg Unit := do
  let n ← nblocks
  if b = 0 ∨ n ≤ b then pure ()
  else
    let w ← load (bitmapWord b)
    store (bitmapWord b) (w ||| 1 <<< (b % 32))

/-- The loop of `alloc_block_num` over the `n` blocks from `b` on. -/
def allocFrom : Nat → Nat → FsProg Nat
  | 0, _ => fail .noDisk
  | n + 1, b => do
      let w ← load (bitmapWord b)
      if w.testBit (b % 32) then
        store (bitmapWord b) (w &&& (0xffffffff ^^^ 1 <<< (b % 32)))
        writeBlock (b / BLOCK_SIZE_BIT + 2)
        pure b
      else allocFrom n (b + 1)

def allocBlockNum : FsProg Nat := do
  let n ← nblocks
  allocFrom (n - 3) 3

def allocBlock : FsProg Nat := do
  let b ← allocBlockNum
  match ← attempt (mapBlock b) with
  | .ok _ => pure b
  | .error e =>
    freeBlock b
    fail e

def readSuper : FsProg Unit := do
  orStop (readBlock 1) (fun _ => .cannotReadSuper)
  update (fun s => { s with superSet := true })
  let magic ← load ⟨1, 0⟩
  if magic ≠ FS_MAGIC then stop .badMagic
  else
    let n ← nblocks
    if DISKMAX / BLOCK_SIZE < n then stop .tooLarge else pure ()

/-- `"OOPS!\n"`. -/
def oops : List Byte := [79, 79, 80, 83, 33, 10]

def checkWriteBlock : FsProg Unit := do
  update (fun s => { s with superSet := false })
  panicOn (readBlock 0)
  copyBlock 0 1
  storeString ⟨1, 0⟩ oops
  writeBlock 1
  userAssert (← blockIsMapped 1).isSome
  update (fun s => s.setPage 1 none)
  userAssert (← blockIsMapped 1).isNone
  panicOn (readBlock 1)
  userAssert (← stringAt ⟨1, 0⟩ oops)
  copyBlock 1 0
  writeBlock 1
  update (fun s => { s with superSet := true })

def readBitmap : FsProg Unit := do
  let n ← nblocks
  let nbitmap := n / BLOCK_SIZE_BIT + 1
  -- the result of `read_block` is not looked at
  each (fun i => do let _ ← attempt (readBlock (i + 2))) (List.range nbitmap)
  update (fun s => { s with bitmapSet := true })
  userAssert (!(← blockIsFree 0))
  userAssert (!(← blockIsFree 1))
  each (fun i => do userAssert (!(← blockIsFree (i + 2)))) (List.range nbitmap)

def fsInit : FsProg Unit := do
  userSpinLock
  readSuper
  checkWriteBlock
  readBitmap
  userSpinUnlock

end MosSmp.Fs
