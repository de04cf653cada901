import MosSmp.Fs.File
import MosSmp.Lib.Transition

/-!
The requests of the file server (`fs/serv.c`). One pass of the loop of `serve`
is the program `serve`; between two passes clients store into the pages they
have received and map or unmap the `Filefd` pages. A reply counts as sent when
`ipc_send` returns; what happens while the client does not receive is the
subject of another module.
-/

namespace MosSmp.Fs

open Lib Prog

abbrev MAXOPEN : Nat := 1024
abbrev O_CREAT : Nat := 0x100
abbrev O_TRUNC : Nat := 0x200

/-- A request with the contents of its argument page that the handler reads. -/
inductive Request
  | open (path : List Byte) (omode : Nat)
  | map (fileid offset : Nat)
  | setSize (fileid size : Nat)
  | close (fileid : Nat)
  | dirty (fileid offset : Nat)
  | remove (path : List Byte)
  | sync
  deriving DecidableEq

namespace Server

def setOpen (s : Server) (i : Nat) (o : Open) : Server :=
  { s with opentab := Function.update s.opentab i o }

/-- `ipc_recv` has mapped the argument page of a request at `REQVA`; `mem` are
the answers of the kernel to the allocations of this pass. -/
def receive (s : Server) (mem : Nat → Bool) : Server :=
  { s with reqva := true, mem := mem, asked := 0 }

end Server

/-- One step of the loop of `open_alloc`. -/
def tryOpen (i : Nat) : FsProg (Option Nat) := do
  let s ← state
  if (s.opentab i).pageref = 0 then
    memAlloc
    update (fun s => s.setOpen i { s.opentab i with pageref := 1 })
    pure (some i)
  else if (s.opentab i).pageref = 1 then pure (some i)
  else pure none

@[irreducible]
def openAlloc : FsProg Nat := do
  match ← search tryOpen (List.range MAXOPEN) with
  | some i => pure i
  | none => fail .maxOpen

/-- The file of an open entry; a null `o_file` has no result. -/
def openLookup (fileid : Nat) : FsProg FilePtr := do
  if MAXOPEN ≤ fileid then fail .inval
  else
    let s ← state
    if (s.opentab fileid).pageref ≤ 1 then fail .inval
    else
      match (s.opentab fileid).file with
      | some f => pure f
      | none => stop .outside

/-- The client maps the page of a reply; only the mappings of `Filefd` pages are
counted. -/
def Server.share (s : Server) : Shown → Server
  | .filefd i => s.setOpen i { s.opentab i with pageref := (s.opentab i).pageref + 1 }
  | _ => s

def ipcSend (whom : Nat) (value : Except FsErr Unit) (page : Shown) : FsProg Unit := do
  update (fun s => s.share page)
  update (fun s => { s with replies := s.replies ++ [⟨whom, value, page⟩] })

/-- The file that `serve_open` opens, created first if `O_CREAT` is given. -/
def findFile (path : List Byte) (omode : Nat) : FsProg FilePtr := do
  if omode &&& O_CREAT = 0 then fileOpen path
  else
    match ← attempt (fileCreate path) with
    | .ok _ => fileOpen path
    | .error e => if e = .fileExists then fileOpen path else fail e

/-- `serve_open` sends the error of `file_set_size` and goes on. -/
def truncateOpened (whom : Nat) (f : FilePtr) : FsProg Unit := do
  match ← attempt (fileSetSize f 0) with
  | .ok _ => pure ()
  | .error e => ipcSend whom (.error e) .nothing

def serveOpen (whom : Nat) (path : List Byte) (omode : Nat) : FsProg Unit := do
  match ← attempt openAlloc with
  | .error e => ipcSend whom (.error e) .nothing
  | .ok o =>
    match ← attempt (findFile path omode) with
    | .error e => ipcSend whom (.error e) .nothing
    | .ok f =>
      update (fun s => s.setOpen o { s.opentab o with file := some f })
      when (omode &&& O_TRUNC ≠ 0) (truncateOpened whom f)
      -- `ff->f_file = *f`
      let _ ← pageAt f.blk
      update (fun s => s.setOpen o { s.opentab o with mode := omode })
      ipcSend whom (.ok ()) (.filefd o)

/-- The handlers that look up a file, run one function of `fs.c` on it and
reply with its result. -/
def answer {α : Type} (whom fileid : Nat) (op : FilePtr → FsProg α) (page : α → Shown) :
    FsProg Unit := do
  match ← attempt (openLookup fileid) with
  | .error e => ipcSend whom (.error e) .nothing
  | .ok f =>
    match ← attempt (op f) with
    | .error e => ipcSend whom (.error e) .nothing
    | .ok a => ipcSend whom (.ok ()) (page a)

def serveMap (whom fileid offset : Nat) : FsProg Unit :=
  answer whom fileid (fun f => fileGetBlock f (offset / BLOCK_SIZE)) .block

def serveSetSize (whom fileid size : Nat) : FsProg Unit :=
  answer whom fileid (fun f => fileSetSize f size) (fun _ => .nothing)

def serveClose (whom fileid : Nat) : FsProg Unit :=
  answer whom fileid fileClose (fun _ => .nothing)

def serveDirty (whom fileid offset : Nat) : FsProg Unit :=
  answer whom fileid (fun f => fileDirty f offset) (fun _ => .nothing)

def serveRemove (whom : Nat) (path : List Byte) : FsProg Unit := do
  let r ← attempt (fileRemove path)
  ipcSend whom r .nothing

def serveSync (whom : Nat) : FsProg Unit := do
  fsSync
  ipcSend whom (.ok ()) .nothing

/-- `serve_table`. -/
def serveTable (whom : Nat) : Request → FsProg Unit
  | .open path omode => serveOpen whom path omode
  | .map fileid offset => serveMap whom fileid offset
  | .setSize fileid size => serveSetSize whom fileid size
  | .close fileid => serveClose whom fileid
  | .dirty fileid offset => serveDirty whom fileid offset
  | .remove path => serveRemove whom path
  | .sync => serveSync whom

/-- One pass of the loop of `serve`, for a request that has an argument page and
a valid number. -/
def serve (whom : Nat) (req : Request) : FsProg Unit := do
  userSpinLock
  serveTable whom req
  update (fun s => { s with reqva := false })
  userSpinUnlock

/-- The server before `main`, on a disk. -/
def powerOn (disk : Nat → Block) (mem : Nat → Bool) : Server where
  disk := disk
  cache := fun _ => none
  superSet := false
  bitmapSet := false
  mem := mem
  asked := 0
  lock := false
  reqva := false
  opentab := fun _ => ⟨none, 0, 0⟩
  replies := []
  unsaved := fun _ => false

/-- What happens to a running server: a pass of its loop, a store of a client
into the page of a block, and a change of the number of mappings of a `Filefd`
page by clients that map it; the server keeps its own mapping. -/
inductive Event
  | request (whom : Nat) (req : Request) (mem : Nat → Bool)
  | fill (l : Loc) (w : Nat)
  | filefd (fileid mappings : Nat)

/-- A panic or an endless loop in the handler leaves no state. A `Filefd` page
that only the server maps is out of the reach of clients. -/
def Server.step (s : Server) : Event → Option Server
  | .request whom req mem =>
    match serve whom req (s.receive mem) with
    | .ok (_, t) => some t
    | .error _ => none
  | .fill l w =>
    if s.Cached l.blk ∧ l.idx < BLOCK_SIZE / 4 then
      some (s.change l.blk (Function.update (s.view l.blk) l.idx w))
    else none
  | .filefd i n =>
    if (s.opentab i).pageref ≤ 1 ∨ n = 0 then none
    else some (s.setOpen i { s.opentab i with pageref := n })

/-- The server after `fs_init` on the disk. -/
def mount (disk : Nat → Block) (mem : Nat → Bool) : Option Server :=
  match fsInit (powerOn disk mem) with
  | .ok (.ok _, s) => some s
  | _ => none

/-- The server after it has mounted a disk, with the answers of the kernel to
the allocations of `fs_init`. -/
def server (starts : (Nat → Block) → (Nat → Bool) → Prop) : Machine Server Event where
  init s := ∃ disk mem, starts disk mem ∧ mount disk mem = some s
  step := Server.step

end MosSmp.Fs
