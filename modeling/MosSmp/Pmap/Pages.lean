import MosSmp.Word
import MosSmp.Lib.Queue
import Mathlib.Data.List.FinRange

/-!
Physical pages and two-level page tables, as in `kern/pmap.c`. A page is the
index of its `struct Page`. Its contents are 1024 words, and a pointer to a
table entry is a page with an index. The kernel reaches every page through
kseg0, so page directories and page tables live in the same memory as
everything else. A failed assertion, and an address beyond the last page in
`pa2page` or `KADDR`, is a kernel panic: the functions then have no result.

Each function that takes `pmap_lock` is one step here. The lock is held from
its first to its last access. TLB maintenance changes none of this state.
-/

namespace MosSmp

open Lib Function BitVec

/-- The number of pages that `mips_detect_memory` finds. -/
def npage (memsize : Word) : Nat :=
  (memsize >>> 12).toNat

theorem npage_le (memsize : Word) : npage memsize ≤ 2 ^ 20 := by
  unfold npage
  rw [toNat_ushiftRight, Nat.shiftRight_eq_div_pow]
  omega

abbrev Page (n : Nat) := Fin n

/-- An index into a directory or a table. -/
abbrev Idx := Fin 1024

/-- A pointer to a directory or table entry. -/
abbrev EntryPtr (n : Nat) := Page n × Idx

def lowTen (w : Word) : Idx :=
  ⟨(w &&& 0x3ff#32).toNat, by
    rw [toNat_and]
    exact Nat.lt_of_le_of_lt Nat.and_le_right (by decide)⟩

def pdx (va : Word) : Idx := lowTen (va >>> 22)

def ptx (va : Word) : Idx := lowTen (va >>> 12)

def ppn (pa : Word) : Nat := (pa >>> 12).toNat

def pteAddr (pte : Word) : Word := pte &&& ~~~0xfff#32

def pteValid (pte : Word) : Bool := pte &&& PTE_V ≠ 0

def page2pa {n : Nat} (pp : Page n) : Word := BitVec.ofNat 32 pp.val <<< 12

def pa2page {n : Nat} (pa : Word) : Option (Page n) :=
  if h : ppn pa < n then some ⟨ppn pa, h⟩ else none

/-- The entry that `page_insert` stores. -/
def mapEntry {n : Nat} (pp : Page n) (perm : Word) : Word :=
  page2pa pp ||| perm ||| PTE_C_CACHEABLE ||| PTE_V

/-- The entry that `pgdir_walk` stores for a new table. -/
def tableEntry {n : Nat} (pp : Page n) : Word :=
  page2pa pp ||| PTE_C_CACHEABLE ||| PTE_V

theorem getLsbD_pteAddr (w : Word) (i : Nat) :
    (pteAddr w).getLsbD i = (w.getLsbD i && decide (12 ≤ i)) := by
  have hmask : ∀ i : Fin 32, (~~~0xfff#32).getLsbD i = decide (12 ≤ i.val) := by decide
  unfold pteAddr
  rw [getLsbD_and]
  by_cases hi : i < 32
  · rw [hmask ⟨i, hi⟩]
  · rw [getLsbD_of_ge w i (by omega), Bool.false_and, Bool.false_and]

theorem pteAddr_or (a b : Word) : pteAddr (a ||| b) = pteAddr a ||| pteAddr b := by
  exact and_or_distrib_right ..

theorem ppn_pteAddr (w : Word) : ppn (pteAddr w) = ppn w := by
  unfold ppn
  congr 1
  apply eq_of_getLsbD_eq
  intro i hi
  rw [getLsbD_ushiftRight, getLsbD_ushiftRight, getLsbD_pteAddr]
  simp

variable {n : Nat}

theorem pteAddr_page2pa (pp : Page n) : pteAddr (page2pa pp) = page2pa pp := by
  apply eq_of_getLsbD_eq
  intro i hi
  rw [getLsbD_pteAddr]
  unfold page2pa
  rw [getLsbD_shiftLeft]
  by_cases h : 12 ≤ i
  · simp [h]
  · have hlt : i < 12 := by omega
    simp [h, hlt]

theorem ppn_page2pa (hn : n ≤ 2 ^ 20) (pp : Page n) : ppn (page2pa pp) = pp.val := by
  unfold ppn page2pa
  rw [toNat_ushiftRight, toNat_shiftLeft, toNat_ofNat, Nat.shiftRight_eq_div_pow, Nat.shiftLeft_eq]
  omega

theorem pteValid_or (w : Word) : pteValid (w ||| PTE_V) = true := by
  unfold pteValid PTE_V
  simp only [ne_eq, decide_not, Bool.not_eq_true', decide_eq_false_iff_not]
  intro h
  have hbit := congrArg (fun b => b.getLsbD 7) h
  simp at hbit

theorem pteValid_mapEntry (pp : Page n) (perm : Word) : pteValid (mapEntry pp perm) = true :=
  pteValid_or _

theorem pteValid_tableEntry (pp : Page n) : pteValid (tableEntry pp) = true := pteValid_or _

theorem pteAddr_flags : pteAddr PTE_C_CACHEABLE = 0 ∧ pteAddr PTE_V = 0 := by decide

/-- The address in a stored entry is that of the page, with the high bits of
`perm` added to it. -/
theorem pteAddr_mapEntry (pp : Page n) (perm : Word) :
    pteAddr (mapEntry pp perm) = page2pa pp ||| pteAddr perm := by
  unfold mapEntry
  rw [pteAddr_or, pteAddr_or, pteAddr_or, pteAddr_page2pa, pteAddr_flags.1, pteAddr_flags.2]
  simp

theorem pteAddr_tableEntry (pp : Page n) : pteAddr (tableEntry pp) = page2pa pp := by
  unfold tableEntry
  rw [pteAddr_or, pteAddr_or, pteAddr_page2pa, pteAddr_flags.1, pteAddr_flags.2]
  simp

theorem pteAddr_of_lt {perm : Word} (h : perm < 0x1000#32) : pteAddr perm = 0#32 := by
  apply eq_of_getLsbD_eq
  intro i hi
  rw [getLsbD_pteAddr, getLsbD_zero]
  by_cases h12 : 12 ≤ i
  · have hlt : perm.toNat < 2 ^ i := by
      have h4096 : perm.toNat < 2 ^ 12 := by simpa [lt_def] using h
      exact Nat.lt_of_lt_of_le h4096 (Nat.pow_le_pow_right (by omega) h12)
    simp [getLsbD, Nat.testBit_lt_two_pow hlt]
  · simp [h12]

theorem pteAddr_mapEntry_of_lt (pp : Page n) {perm : Word} (hperm : perm < 0x1000#32) :
    pteAddr (mapEntry pp perm) = page2pa pp := by
  rw [pteAddr_mapEntry, pteAddr_of_lt hperm, or_zero]

theorem pa2page_pteAddr (w : Word) : (pa2page (pteAddr w) : Option (Page n)) = pa2page w := by
  unfold pa2page
  simp only [ppn_pteAddr]

theorem pa2page_of_addr (hn : n ≤ 2 ^ 20) {w : Word} {pp : Page n} (h : pteAddr w = page2pa pp) :
    pa2page w = some pp := by
  have hval := ppn_page2pa hn pp
  rw [← pa2page_pteAddr, h]
  unfold pa2page
  simp [hval]

structure Pmap (n : Nat) where
  ppRef : Page n → BitVec 16
  pageFreeList : Links (Page n)
  mem : Page n → Idx → Word

namespace Pmap

variable {n : Nat}

/-- `page_init`. The first `size` pages lie below `freemem`; the others are
inserted at the head of the free list one after the other. -/
def pageInit (n size : Nat) (mem : Page n → Idx → Word) : Pmap n where
  ppRef := fun pp => if pp.val < size then 1 else 0
  pageFreeList := ((List.finRange n).filter (fun pp => size ≤ pp.val)).foldl
    (fun q pp => q.insertHead pp) Links.empty
  mem := mem

def read (m : Pmap n) (p : EntryPtr n) : Word := m.mem p.1 p.2

def write (m : Pmap n) (p : EntryPtr n) (w : Word) : Pmap n :=
  { m with mem := update m.mem p.1 (update (m.mem p.1) p.2 w) }

/-- `pp->pp_ref++` on the 16-bit counter. -/
def incref (m : Pmap n) (pp : Page n) : Pmap n :=
  { m with ppRef := update m.ppRef pp (m.ppRef pp + 1) }

def pageAlloc (m : Pmap n) : Except Err (Page n × Pmap n) :=
  match m.pageFreeList.first with
  | none => .error .noMem
  | some pp => .ok (pp, { m with
      pageFreeList := m.pageFreeList.remove pp
      mem := update m.mem pp (fun _ => 0) })

def pageFree (m : Pmap n) (pp : Page n) : Option (Pmap n) :=
  if m.ppRef pp = 0 then
    some { m with pageFreeList := m.pageFreeList.insertHead pp }
  else none

/-- `page_decref`; `page_insert` and `page_remove` contain the same code. -/
def pageDecref (m : Pmap n) (pp : Page n) : Option (Pmap n) :=
  if m.ppRef pp = 0 then none
  else
    let m := { m with ppRef := update m.ppRef pp (m.ppRef pp - 1) }
    if m.ppRef pp = 0 then
      some { m with pageFreeList := m.pageFreeList.insertHead pp }
    else some m

/-- The pointer to the table entry for `va`, given the directory entry. -/
def entryOf (pde va : Word) : Option (EntryPtr n) :=
  (pa2page (pteAddr pde)).map (fun table => (table, ptx va))

/-- `pgdir_walk`. The result is the error, or the pointer stored in `*ppte`. -/
def pgdirWalk (m : Pmap n) (pgdir : Page n) (va : Word) (create : Bool) :
    Option (Except Err (Option (EntryPtr n)) × Pmap n) :=
  if pteValid (m.read (pgdir, pdx va)) then
    (entryOf (m.read (pgdir, pdx va)) va).map (fun p => (.ok (some p), m))
  else if create then
    match m.pageAlloc with
    | .error err => some (.error err, m)
    | .ok (pp, m) =>
      let m := (m.write (pgdir, pdx va) (tableEntry pp)).incref pp
      (entryOf (m.read (pgdir, pdx va)) va).map (fun p => (.ok (some p), m))
  else some (.ok none, m)

/-- The part of `page_insert` after an old mapping is gone. -/
def mapPage (m : Pmap n) (pgdir pp : Page n) (va perm : Word) :
    Option (Except Err Unit × Pmap n) :=
  match m.pgdirWalk pgdir va true with
  | some (.ok (some pte), m) => some (.ok (), (m.write pte (mapEntry pp perm)).incref pp)
  | some (.error err, m) => some (.error err, m)
  | _ => none

def pageInsert (m : Pmap n) (pgdir pp : Page n) (va perm : Word) :
    Option (Except Err Unit × Pmap n) :=
  match m.pgdirWalk pgdir va false with
  | some (.ok (some pte), m) =>
    if pteValid (m.read pte) then
      match pa2page (m.read pte) with
      | none => none
      | some old =>
        if old ≠ pp then
          (m.pageDecref old).bind (fun m => (m.write pte 0).mapPage pgdir pp va perm)
        else some (.ok (), m.write pte (mapEntry pp perm))
    else m.mapPage pgdir pp va perm
  | some (.ok none, m) => m.mapPage pgdir pp va perm
  | _ => none

/-- `page_lookup`: the page mapped at `va`, with the pointer to its entry. -/
def pageLookup (m : Pmap n) (pgdir : Page n) (va : Word) :
    Option (Option (Page n × EntryPtr n)) :=
  match m.pgdirWalk pgdir va false with
  | some (.ok (some pte), m) =>
    if pteValid (m.read pte) then (pa2page (m.read pte)).map (fun pp => some (pp, pte))
    else some none
  | some (.ok none, _) => some none
  | _ => none

def pageRemove (m : Pmap n) (pgdir : Page n) (va : Word) : Option (Pmap n) :=
  match m.pageLookup pgdir va with
  | none => none
  | some none => some m
  | some (some (pp, pte)) => (m.pageDecref pp).map (fun m => m.write pte 0)

end Pmap

end MosSmp
