import MosSmp.Env.Alloc
import MosSmp.Ipi.Machine
import MosSmp.Pmap.Refine
import MosSmp.Tlb.Entry

/-!
Two CPUs at work on address spaces. A step is a section under `pmap_lock` or
`asid_lock`, or a stretch of code between sections: the lookup of
`sys_mem_map` and of `sys_ipc_try_send`, the lookup of a refill with the two
reads, `tlbwr`, and the two halves of `tlb_invalidate`. The other CPU may take
any number of steps between two of them.

An address space is a page directory with an ASID. `env_setup_vm` makes the
directory, `asid_alloc` gives it its ASID, and `env_free` takes it apart, table
by table and page by page. Directories share the tables of `base_pgdir`
between `UTOP` and `UVPT`, and at `UVPT` each directory is its own table, so
that a refill there reads the directory and `passive_alloc` hangs tables into
it. The contents of user pages are left out.

Three entries of the state are not kernel state: `own`, the references that
are not table entries, `allocs`, which counts how often each page was handed
out, and the note on a TLB entry, the two counts of its target pages at the
time its words were read.
-/

namespace MosSmp

open Lib Function

abbrev Asid := Fin NASID

def asidWord (a : Asid) : Word := BitVec.ofNat 32 a.val

structure Space (n : Nat) where
  pgdir : Page n
  asid : Asid

/-- The address that a directory index and a table index make up. -/
def vaOf (i j : Idx) : Word := (BitVec.ofNat 32 i.val <<< 22) ||| (BitVec.ofNat 32 j.val <<< 12)

/-- The address of table `i` in the window at `UVPT`. -/
def uvptVa (i : Idx) : Word := UVPT + (BitVec.ofNat 32 i.val <<< 12)

/-- The first valid entry among the `count` entries from `lo` on. -/
def nextValid (w : Idx → Word) (lo : Nat) : Nat → Option Idx
  | 0 => none
  | count + 1 =>
    if pteValid (w (Fin.ofNat 1024 lo)) then some (Fin.ofNat 1024 lo)
    else nextValid w (lo + 1) count

/-- Where a CPU stands. -/
inductive MmuPc (n : Nat)
  | rest
  /-- `_do_tlb_refill` before its lookup. -/
  | refill (sp : Space n) (va : Word)
  /-- `passive_alloc` with the page it got, before `page_insert`. -/
  | fill (sp : Space n) (va : Word) (p : Page n)
  /-- The words are read, `tlbwr` comes next. -/
  | install (sp : Space n) (va lo0 lo1 : Word) (born : Nat × Nat)
  /-- A system call before `page_insert`. The page is a new one, or it was
  looked up at an address of a directory. -/
  | insert (src : Option (Page n × Word)) (dst : Space n) (pp : Page n) (va perm : Word)
  /-- `env_alloc` between `env_setup_vm` and `asid_alloc`. -/
  | built (p : Page n)
  /-- `tlb_invalidate` before the local flush. The directory is the one in use;
  the last flush of `env_free` has none. -/
  | flush (d : Option (Page n)) (asid : Asid) (va : Word) (next : MmuPc n)
  /-- `tlb_invalidate` while it waits for the other CPU. -/
  | await (d : Option (Page n)) (asid : Asid) (va : Word) (acked : Bool) (next : MmuPc n)
  /-- `env_free` before it looks at `pdeno`. -/
  | scan (sp : Space n) (pdeno : Nat)
  /-- `env_free` in the table `t`, before it looks at `pteno`. -/
  | strip (sp : Space n) (pdeno : Idx) (t : Page n) (pteno : Nat)
  | dropDir (sp : Space n)
  | dropAsid (asid : Asid)

structure MmuCpu (n : Nat) where
  tlb : List (TlbEntry (Nat × Nat))
  pc : MmuPc n

structure Mmu (n : Nat) where
  pm : Pmap n
  basePgdir : Page n
  /-- Directories that belong to no environment. -/
  sysDirs : Page n → Bool
  dirs : Page n → Bool
  asidOf : Page n → Option Asid
  asidBitmap : Asid → Bool
  own : Page n → Nat
  allocs : Page n → Nat
  cpu : CpuId → MmuCpu n

inductive MmuLabel (n : Nat)
  | step (c : CpuId)
  /-- An access in the address space of directory `d` that misses the TLB. -/
  | touch (c : CpuId) (d : Page n) (va : Word)
  | memAlloc (c : CpuId) (d : Page n) (va perm : Word)
  /-- `sys_mem_map`, or the page transfer of `sys_ipc_try_send`. -/
  | share (c : CpuId) (src : Page n) (srcva : Word) (dst : Page n) (dstva perm : Word)
  | unmap (c : CpuId) (d : Page n) (va : Word)
  | envFree (c : CpuId) (d : Page n)
  | setupVm (c : CpuId)
  /-- A CPU in user mode or in a wait answers the other one. -/
  | serve (c : CpuId)
  | evict (c : CpuId) (i : Nat)

/-- The page that a word of the TLB translates to. -/
def loPage {n : Nat} (lo : Word) : Option (Page n) :=
  if lo &&& 0x2 ≠ 0 then
    if h : (lo >>> 6).toNat < n then some ⟨(lo >>> 6).toNat, h⟩ else none
  else none

def loGlobal (lo : Word) : Bool := lo &&& 0x1 ≠ 0

/-- The words of a TLB entry that matches every ASID. -/
def TlbEntry.isGlobal {ν : Type} (e : TlbEntry ν) : Bool := loGlobal e.lo0 && loGlobal e.lo1

/-- The contents that `env_setup_vm` gives a new directory. -/
def newDirectory {n : Nat} (m : Pmap n) (base p : Page n) (i : Idx) : Word :=
  if pdx UTOP ≤ i ∧ i < pdx UVPT then m.mem base i
  else if i = pdx UVPT then page2pa p ||| PTE_V
  else 0

namespace MmuPc

variable {n : Nat}

/-- Interprocessor interrupts are served in user mode and in the wait. -/
def polling : MmuPc n → Bool
  | .rest | .await _ _ _ _ _ => true
  | _ => false

/-- The directories that a CPU is working on. -/
def uses : MmuPc n → List (Page n)
  | .rest | .built _ | .dropAsid _ => []
  | .refill sp _ | .fill sp _ _ | .install sp _ _ _ _ | .scan sp _ | .strip sp _ _ _
  | .dropDir sp => [sp.pgdir]
  | .insert src dst _ _ _ => dst.pgdir :: (src.map Prod.fst).toList
  | .flush d _ _ _ | .await d _ _ _ _ => d.toList

/-- The directory that `env_free` is taking apart. -/
def alone : MmuPc n → Option (Page n)
  | .scan sp _ | .strip sp _ _ _ | .dropDir sp => some sp.pgdir
  | .flush _ _ _ next | .await _ _ _ _ next => next.alone
  | _ => none

/-- The mapping that a page was looked up at and has to outlive. -/
def source : MmuPc n → Option (Page n × Idx × Idx)
  | .insert src _ _ _ _ => src.map (fun x => (x.1, pdx x.2, ptx x.2))
  | _ => none

/-- The mapping that `page_insert` is about to change. -/
def target : MmuPc n → Option (Page n × Idx × Idx)
  | .fill sp va _ => some (sp.pgdir, pdx va, ptx va)
  | .insert _ dst _ va _ => some (dst.pgdir, pdx va, ptx va)
  | _ => none

end MmuPc

namespace Mmu

variable {n : Nat}

def upd (s : Mmu n) (c : CpuId) (f : MmuCpu n → MmuCpu n) : Mmu n :=
  { s with cpu := update s.cpu c (f (s.cpu c)) }

def goto (s : Mmu n) (c : CpuId) (pc : MmuPc n) : Mmu n :=
  s.upd c (fun x => { x with pc := pc })

def flushLocal (s : Mmu n) (c : CpuId) (asid : Asid) (va : Word) : Mmu n :=
  s.upd c (fun x => { x with tlb := tlbOut (entryHi (asidWord asid) va) x.tlb })

/-- The page layer changes. What is no longer on the free list has been handed
out. -/
def setPm (s : Mmu n) (m : Pmap n) : Mmu n :=
  { s with
    pm := m
    allocs := fun p => if s.pm.Free p ∧ ¬ m.Free p then s.allocs p + 1 else s.allocs p }

/-- The count of the page behind a word of the TLB. -/
def bornOf (s : Mmu n) (lo : Word) : Nat :=
  ((loPage lo : Option (Page n)).map s.allocs).getD 0

/-- The directory entries that are used by one directory only. -/
def user (s : Mmu n) (d : Page n) (i : Idx) : Bool :=
  s.sysDirs d || (s.dirs d && decide (i < pdx UTOP))

def tableAt (s : Mmu n) (d : Page n) (i : Idx) : Option (Page n) :=
  s.pm.tableAt s.user d i

def pageAt (s : Mmu n) (d : Page n) (i j : Idx) : Option (Page n) :=
  s.pm.pageAt s.user d i j

/-- The lookup of a refill, up to the two reads or up to the page that
`passive_alloc` gets. -/
def refillStep (s : Mmu n) (c : CpuId) (sp : Space n) (va : Word) : Option (Mmu n) :=
  match s.pm.pageLookup sp.pgdir va with
  | none => none
  | some none =>
    if passiveAllocRefuses va then none
    else
      match s.pm.pageAlloc with
      | .error _ => none
      | .ok (p, m) => some ((s.setPm m).goto c (.fill sp va p))
  | some (some (_, pte)) =>
    let lo0 := entryLo (s.pm.read (pte.1, evenIdx pte.2))
    let lo1 := entryLo (s.pm.read (pte.1, oddIdx pte.2))
    some (s.goto c (.install sp va lo0 lo1 (s.bornOf lo0, s.bornOf lo1)))

/-- The section of `page_remove`, with the flush that follows it. -/
def removeStep (s : Mmu n) (c : CpuId) (sp : Space n) (va : Word) (next : MmuPc n) :
    Option (Mmu n) :=
  match s.pm.pageLookup sp.pgdir va with
  | none => none
  | some none => some (s.goto c next)
  | some (some _) => (s.pm.pageRemove sp.pgdir va).map (fun m =>
    (s.setPm m).goto c (.flush (some sp.pgdir) sp.asid va next))

/-- `env_free` in a table: the next valid entry is removed, or the table is
taken out of the directory and released. -/
def stripStep (s : Mmu n) (c : CpuId) (sp : Space n) (i : Idx) (t : Page n) (j : Nat) :
    Option (Mmu n) :=
  match nextValid (s.pm.mem t) j (1024 - j) with
  | some j => s.removeStep c sp (vaOf i j) (.strip sp i t (j.val + 1))
  | none => ((s.pm.write (sp.pgdir, i) 0).pageDecref t).map (fun m =>
    (s.setPm m).goto c (.flush (some sp.pgdir) sp.asid (uvptVa i) (.scan sp (i.val + 1))))

def scanStep (s : Mmu n) (c : CpuId) (sp : Space n) (i : Nat) : Option (Mmu n) :=
  match nextValid (s.pm.mem sp.pgdir) i ((pdx UTOP).val - i) with
  | none => some (s.goto c (.dropDir sp))
  | some i =>
    match (pa2page (pteAddr (s.pm.mem sp.pgdir i)) : Option (Page n)) with
    | none => none
    | some t => some (s.goto c (.strip sp i t 0))

def pcStep (s : Mmu n) (c : CpuId) : MmuPc n → Option (Mmu n)
  | .rest => none
  | .refill sp va => s.refillStep c sp va
  | .fill sp va p =>
    match s.pm.pageInsert sp.pgdir p (pteAddr va) (passiveAllocPerm va) with
    | some (.ok _, m) =>
      some ((if pdx va = pdx UVPT ∧ pdx UVPT < ptx va then
          { s.setPm m with own := update s.own p (s.own p + 1) } else s.setPm m).goto c
        (.flush (some sp.pgdir) sp.asid (pteAddr va) (.refill sp va)))
    | _ => none
  | .install sp va lo0 lo1 born =>
    some ((s.upd c (fun x => { x with
      tlb := ⟨entryHi (asidWord sp.asid) va, lo0, lo1, born⟩ :: x.tlb })).goto c .rest)
  | .insert _ dst pp va perm =>
    match s.pm.pageInsert dst.pgdir pp va perm with
    | none => none
    | some (.error _, m) => some ((s.setPm m).goto c .rest)
    | some (.ok _, m) =>
      some ((s.setPm m).goto c (.flush (some dst.pgdir) dst.asid va .rest))
  | .built p =>
    match asidAlloc s.asidBitmap with
    | none => some (s.goto c .rest)
    | some (a, bitmap) => some ({ s with
        asidBitmap := bitmap
        asidOf := update s.asidOf p (some a) }.goto c .rest)
  | .flush d asid va next => some ((s.flushLocal c asid va).goto c (.await d asid va false next))
  | .await _ _ _ acked next => if acked then some (s.goto c next) else none
  | .scan sp i => s.scanStep c sp i
  | .strip sp i t j => s.stripStep c sp i t j
  | .dropDir sp => (s.pm.pageDecref sp.pgdir).map (fun m => { s.setPm m with
      dirs := update s.dirs sp.pgdir false
      asidOf := update s.asidOf sp.pgdir none
      own := update s.own sp.pgdir (s.own sp.pgdir - 1) }.goto c (.dropAsid sp.asid))
  | .dropAsid a => some ({ s with asidBitmap := update s.asidBitmap a false }.goto c
      (.flush none a (uvptVa (pdx UVPT)) .rest))

/-- The local half of a shootdown on the other CPU. -/
def serveStep (s : Mmu n) (c : CpuId) : Option (Mmu n) :=
  match (s.cpu c).pc.polling, (s.cpu (other c)).pc with
  | true, .await d asid va false next =>
    some ((s.flushLocal c asid va).goto (other c) (.await d asid va true next))
  | _, _ => none

def exec (s : Mmu n) : MmuLabel n → Option (Mmu n)
  | .step c => s.pcStep c (s.cpu c).pc
  | .touch c d va =>
    match (s.cpu c).pc, s.asidOf d with
    | .rest, some a =>
      -- above `ULIM` user accesses do not reach the TLB
      if va < ULIM then some ((s.flushLocal c a va).goto c (.refill ⟨d, a⟩ va)) else none
    | _, _ => none
  | .memAlloc c d va perm =>
    match (s.cpu c).pc, s.asidOf d with
    | .rest, some a =>
      if isIllegalVa va then none
      else
        match s.pm.pageAlloc with
        | .error _ => some s
        | .ok (p, m) => some ((s.setPm m).goto c (.insert none ⟨d, a⟩ p va perm))
    | _, _ => none
  | .share c src srcva dst dstva perm =>
    match (s.cpu c).pc, s.asidOf src, s.asidOf dst with
    | .rest, some _, some a =>
      if isIllegalVa srcva ∨ dstva ≠ 0 ∧ isIllegalVa dstva = true then none
      else
        match s.pm.pageLookup src srcva with
        | none => none
        | some none => some s
        | some (some (pp, _)) =>
          some (s.goto c (.insert (some (src, srcva)) ⟨dst, a⟩ pp dstva perm))
    | _, _, _ => none
  | .unmap c d va =>
    match (s.cpu c).pc, s.asidOf d with
    | .rest, some a => if isIllegalVa va then none else s.removeStep c ⟨d, a⟩ va .rest
    | _, _ => none
  | .envFree c d =>
    match (s.cpu c).pc, s.asidOf d with
    | .rest, some a => some (s.goto c (.scan ⟨d, a⟩ 0))
    | _, _ => none
  | .setupVm c =>
    match (s.cpu c).pc, s.pm.pageAlloc with
    | .rest, .ok (p, m) => some ({ s.setPm { m.incref p with
          mem := update m.mem p (newDirectory s.pm s.basePgdir p) } with
        dirs := update s.dirs p true
        own := update s.own p (s.own p + 1) }.goto c (.built p))
    | _, _ => none
  | .serve c => s.serveStep c
  | .evict c i => some (s.upd c (fun x => { x with tlb := x.tlb.eraseIdx i }))

/-- What `page_insert` is held to. -/
def InsertOrderly (s : Mmu n) : MmuPc n → Prop
  | .insert _ _ pp _ _ => (s.pm.ppRef pp).toNat < 65535
  | .fill sp va _ => pdx va = pdx UVPT → pteValid (s.pm.mem sp.pgdir (ptx va)) = false
  | _ => True

/-- What keeps the accounts of the pages in order. A call passes permission
bits only and no counter overflows. While `sys_mem_map` or `sys_ipc_try_send`
is between lookup and insertion, the other CPU neither removes nor replaces the
mapping that was looked up. `env_free` has its address space for itself, and
`passive_alloc` finds the directory entry that it fills at `UVPT` still
empty. -/
def Orderly (s : Mmu n) : MmuLabel n → Prop
  | .step c => s.InsertOrderly (s.cpu c).pc
  | .touch c d _ => (s.cpu (other c)).pc.alone ≠ some d
  | .unmap c d va =>
    (s.cpu (other c)).pc.alone ≠ some d ∧
      (s.cpu (other c)).pc.source ≠ some (d, pdx va, ptx va)
  | .envFree c d => d ∉ (s.cpu (other c)).pc.uses
  | .memAlloc c d va perm =>
    perm < 0x1000#32 ∧ (s.cpu (other c)).pc.alone ≠ some d ∧
      (s.cpu (other c)).pc.source ≠ some (d, pdx va, ptx va)
  | .share c src srcva dst dstva perm =>
    perm < 0x1000#32 ∧ (s.cpu (other c)).pc.alone ≠ some src ∧
      (s.cpu (other c)).pc.alone ≠ some dst ∧
      (s.cpu (other c)).pc.target ≠ some (src, pdx srcva, ptx srcva) ∧
      (s.cpu (other c)).pc.source ≠ some (dst, pdx dstva, ptx dstva)
  | .setupVm _ | .serve _ | .evict _ _ => True

instance decidableInsertOrderly (s : Mmu n) : (pc : MmuPc n) → Decidable (s.InsertOrderly pc)
  | .insert _ _ _ _ _ => inferInstanceAs (Decidable (_ < _))
  | .fill _ _ _ => inferInstanceAs (Decidable (_ → _))
  | .rest | .refill _ _ | .install _ _ _ _ _ | .built _ | .flush _ _ _ _ | .await _ _ _ _ _
  | .scan _ _ | .strip _ _ _ _ | .dropDir _ | .dropAsid _ => inferInstanceAs (Decidable True)

instance decidableOrderly (s : Mmu n) : (l : MmuLabel n) → Decidable (s.Orderly l)
  | .step c => s.decidableInsertOrderly (s.cpu c).pc
  | .touch _ _ _ => inferInstanceAs (Decidable (_ ≠ _))
  | .envFree _ _ => inferInstanceAs (Decidable (¬ _))
  | .unmap _ _ _ => inferInstanceAs (Decidable (_ ∧ _))
  | .memAlloc _ _ _ _ => inferInstanceAs (Decidable (_ ∧ _ ∧ _))
  | .share _ _ _ _ _ _ => inferInstanceAs (Decidable (_ ∧ _ ∧ _ ∧ _ ∧ _))
  | .setupVm _ | .serve _ | .evict _ _ => inferInstanceAs (Decidable True)

end Mmu

/-- Two CPUs in user mode with empty TLBs, before any environment has an
address space, over any state in which `env_init` has left the page layer:
`base_pgdir` has its tables for `UENVS` and for `UPAGES`. -/
def mmu (memsize : Word) : Machine (Mmu (npage memsize)) (MmuLabel (npage memsize)) where
  init s := ∃ f : Frames (npage memsize), (frames memsize).ReachableUnder Frames.Allowed f ∧
    s.pm = f.pm ∧ s.sysDirs = f.dirs ∧ s.own = f.own ∧ s.sysDirs s.basePgdir = true ∧
    (∀ i, pdx UTOP ≤ i → i < pdx UVPT → pteValid (s.pm.mem s.basePgdir i) = true) ∧
    (∀ d, s.dirs d = false ∧ s.asidOf d = none) ∧ (∀ a, s.asidBitmap a = false) ∧
    ∀ c, s.cpu c = ⟨[], .rest⟩
  step := Mmu.exec

/-- A page of a machine with sixteen. -/
def bootPage (k : Nat) : Page (npage 0x10000) := Fin.ofNat 16 k

/-- Sixteen pages, of which the kernel has two. The last one becomes
`base_pgdir`, and its windows show the pages of the kernel. -/
def bootFrames : Frames (npage 0x10000) :=
  ((frames 0x10000).exec Frames.Allowed (Frames.start _ 2 (fun _ _ => 0))
    [.newDir, .insert (bootPage 15) (bootPage 0) UENVS PTE_G,
      .insert (bootPage 15) (bootPage 1) UPAGES PTE_G]).getD
    (Frames.start _ 2 (fun _ _ => 0))

def bootMmu : Mmu (npage 0x10000) where
  pm := bootFrames.pm
  basePgdir := bootPage 15
  sysDirs := bootFrames.dirs
  dirs := fun _ => false
  asidOf := fun _ => none
  asidBitmap := fun _ => false
  own := bootFrames.own
  allocs := fun _ => 0
  cpu := fun _ => ⟨[], .rest⟩

theorem bootFrames_reachable : (frames 0x10000).ReachableUnder Frames.Allowed bootFrames := by
  have hstart : (frames 0x10000).ReachableUnder Frames.Allowed
      (Frames.start _ 2 (fun _ _ => 0)) := .init ⟨2, fun _ _ => 0, rfl⟩
  unfold bootFrames
  cases hrun : (frames 0x10000).exec Frames.Allowed (Frames.start _ 2 (fun _ _ => 0))
    [.newDir, .insert (bootPage 15) (bootPage 0) UENVS PTE_G,
      .insert (bootPage 15) (bootPage 1) UPAGES PTE_G] with
  | none => exact hstart
  | some f => exact Machine.reachableUnder_of_exec _ hstart hrun

theorem bootMmu_init : (mmu 0x10000).init bootMmu := by
  refine ⟨bootFrames, bootFrames_reachable, rfl, rfl, rfl, ?_, ?_, fun _ => ⟨rfl, rfl⟩,
    fun _ => rfl, fun _ => rfl⟩
  · decide +kernel
  · decide +kernel

end MosSmp
