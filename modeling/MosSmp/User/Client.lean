import MosSmp.Fs.File
import MosSmp.Tlb.Entry

/-!
The descriptors of an environment: the fd table, the window of 4 MB that each
descriptor has for its data, and the library functions on them. The address
space is what `vpt` shows. The file server is what the environment sees of it:
it answers each request with an error code or grants it. Which answers come is
part of the state, so that nothing is assumed about them.
-/

namespace MosSmp.Client

open Lib Lib.Prog Fs

abbrev MAXFD : Nat := 32
abbrev PTMAP : Nat := 4096
def PTE_LIBRARY : Word := 2

def FILEBASE : Word := 0x60000000
def FDTABLE : Word := FILEBASE - PDMAP

def index2fd (i : Word) : Word := FDTABLE + i * 4096

def index2data (i : Word) : Word := FILEBASE + i * PDMAP

def fd2num (fd : Word) : Word := (fd - FDTABLE) / 4096

def fd2data (fd : Word) : Word := index2data (fd2num fd)

def vpn (va : Word) : Nat := va.toNat / PTMAP

/-- `va + i * PTMAP`. -/
def pageOf (va : Word) (i : Nat) : Word := va + BitVec.ofNat 32 (i * PTMAP)

/-- What a page is: the `Filefd` of an entry of the server's open table, a block
of the open file, or a page of another device. -/
inductive Page
  | filefd (fileid : Word)
  | block (fileid : Word) (filebno : Nat)
  | other (k : Nat)
  deriving DecidableEq

structure Pte where
  page : Page
  perm : Word
  deriving DecidableEq

/-- The fields of `struct Filefd` that the library reads. -/
structure Filefd where
  fdDevId : Word
  fdOffset : Word
  fdOmode : Word
  fFileid : Word
  fSize : Word
  deriving DecidableEq

structure Proc where
  vpt : Nat → Option Pte
  /-- What the descriptor pages hold. -/
  contents : Page → Filefd
  /-- The server's `f_size` of the open files. -/
  fileSize : Word → Word
  /-- The error codes with which the server answers; `none` is a granted request. -/
  answers : List (Option FsErr)

/-- Why a call does not return. -/
inductive Fault
  | panicked
  | unmapped
  | loops
  deriving DecidableEq

abbrev ProcProg := Prog Fault FsErr Proc

namespace Proc

def setPte (s : Proc) (p : Nat) (pte : Option Pte) : Proc :=
  { s with vpt := Function.update s.vpt p pte }

def setFd (s : Proc) (page : Page) (f : Filefd) : Proc :=
  { s with contents := Function.update s.contents page f }

end Proc

/-! ### System calls and requests -/

def isIllegalVa (va : Word) : Prop :=
  va.toNat < UTEMP.toNat ∨ UTOP.toNat ≤ va.toNat

instance decidableIllegalVa (va : Word) : Decidable (isIllegalVa va) :=
  inferInstanceAs (Decidable (_ ∨ _))

def memUnmap (va : Word) : ProcProg Unit :=
  if isIllegalVa va then fail .inval else update (·.setPte (vpn va) none)

def panicOn (m : ProcProg Unit) : ProcProg Unit := do
  match ← attempt m with
  | .ok () => pure ()
  | .error _ => stop .panicked

/-- A request, with what it does if it is granted. -/
def fsipc (grant : Proc → Proc) : ProcProg Unit := do
  let s ← state
  update (fun s => { s with answers := s.answers.tail })
  match s.answers.headD none with
  | some e => fail e
  | none => update grant

/-- The page of the block is mapped at `dstva`. -/
def fsipcMap (fileid : Word) (i : Nat) (dstva : Word) : ProcProg Unit :=
  fsipc (·.setPte (vpn dstva) (some ⟨.block fileid i, PTE_D ||| PTE_LIBRARY⟩))

def fsipcSetSize (fileid size : Word) : ProcProg Unit :=
  fsipc (fun s => { s with fileSize := Function.update s.fileSize fileid size })

/-- The number is compared as an `int`. -/
def fdLookup (fdnum : Word) : ProcProg Word := do
  let s ← state
  if (MAXFD : Int) ≤ fdnum.toInt then fail .inval
  else if s.vpt (vpn (index2fd fdnum)) = none then fail .inval
  else pure (index2fd fdnum)

/-- `*fd`. -/
def deref (fd : Word) : ProcProg Filefd := do
  let s ← state
  match s.vpt (vpn fd) with
  | some pte => pure (s.contents pte.page)
  | none => stop .unmapped

/-- A store to a field of `*fd`. -/
def modify (fd : Word) (f : Filefd → Filefd) : ProcProg Unit := do
  let s ← state
  match s.vpt (vpn fd) with
  | some pte => update (·.setFd pte.page (f (s.contents pte.page)))
  | none => stop .unmapped

inductive Dev
  | file
  | cons
  | pipe
  deriving DecidableEq

/-- `dev_lookup`; the ids are the letters f, c and p. -/
def devLookup (id : Word) : Option Dev :=
  if id = 102 then some .file else if id = 99 then some .cons
  else if id = 112 then some .pipe else none

/-- `for (i = 0; i < size; i += PTMAP)`. With a size in the last page the index
wraps around and the loop goes on for ever. -/
def forPages (size : Word) (body : Nat → ProcProg Unit) : ProcProg Unit := do
  each body (List.range ((size.toNat + 4095) / PTMAP))
  when (2 ^ 32 - PTMAP < size.toNat) (stop .loops)

def fileClose (fd : Word) : ProcProg Unit := do
  let f ← deref fd
  forPages f.fSize (fun _ => fsipc id)
  fsipc id
  forPages f.fSize (fun i => memUnmap (pageOf (fd2data fd) i))

def devClose (fd : Word) : Dev → ProcProg Unit
  | .file => fileClose fd
  | .cons => pure ()
  | .pipe => do
    let _ ← attempt (memUnmap fd)
    let _ ← attempt (memUnmap (fd2data fd))
    pure ()

def close (fdnum : Word) : ProcProg Unit := do
  let fd ← fdLookup fdnum
  let f ← deref fd
  match devLookup f.fdDevId with
  | none => fail .inval
  | some dev =>
    let r ← attempt (devClose fd dev)
    panicOn (memUnmap fd)
    match r with
    | .ok () => pure ()
    | .error e => fail e

/-! ### Files -/

def round (a : Word) : Nat :=
  (a + 4095).toNat / PTMAP

/-- The first loop of `ftruncate`: a page that cannot be mapped takes the server's
size back. -/
def growPage (fd fileid oldsize : Word) (i : Nat) : ProcProg Unit := do
  match ← attempt (fsipcMap fileid i (pageOf (fd2data fd) i)) with
  | .ok () => pure ()
  | .error e =>
    fsipcSetSize fileid oldsize
    fail e

def ftruncate (fdnum size : Word) : ProcProg Unit := do
  if MAXFILESIZE < size.toNat then fail .noDisk
  else
    let fd ← fdLookup fdnum
    let f ← deref fd
    if devLookup f.fdDevId ≠ some .file then fail .inval
    else
      modify fd ({ · with fSize := size })
      fsipcSetSize f.fFileid size
      each (growPage fd f.fFileid f.fSize)
        (List.range' (round f.fSize) (round size - round f.fSize))
      each (fun i => panicOn (memUnmap (pageOf (fd2data fd) i)))
        (List.range' (round size) (round f.fSize - round size))

/-- The bytes that a `memcpy` reads or writes in a window. -/
structure Region where
  start : Word
  len : Word

def Region.Has (r : Region) (a : Word) : Prop :=
  ∃ k, k < r.len.toNat ∧ a = r.start + BitVec.ofNat 32 k

/-- The region is the source of the copy, its length the result. -/
def fileRead (fd n offset : Word) : ProcProg Region := do
  let f ← deref fd
  if f.fSize.toNat < offset.toNat then pure ⟨fd2data fd + offset, 0⟩
  else if f.fSize.toNat < (offset + n).toNat then
    pure ⟨fd2data fd + offset, f.fSize - offset⟩
  else pure ⟨fd2data fd + offset, n⟩

/-- The region is the target of the copy, its length the result. -/
def fileWrite (fd n offset : Word) : ProcProg Region := do
  let f ← deref fd
  let tot := offset + n
  if MAXFILESIZE < tot.toNat then fail .noDisk
  else
    when (f.fSize.toNat < tot.toNat) (ftruncate (fd2num fd) tot)
    pure ⟨fd2data fd + offset, n⟩

def seek (fdnum offset : Word) : ProcProg Unit := do
  let fd ← fdLookup fdnum
  modify fd ({ · with fdOffset := offset })

end MosSmp.Client
