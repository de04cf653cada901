import MosSmp.Pmap.Pages

/-!
The entries of a TLB. An entry is tagged with the word that `tlb_out` and
`tlbwr` find in `EntryHi`: the number of a pair of pages together with the
ASID. It holds the two words that `_do_tlb_refill` has read from the page table
and shifted. A TLB is a list of entries, of which the order means nothing.

`note` is not hardware state. It records what a proof wants to know about the
moment at which the words of the entry were read.
-/

namespace MosSmp

def PTE_G : Word := 0x40
def PTE_D : Word := 0x100

/-- The argument of `tlb_out` in `tlb_invalidate_local`. -/
def entryHi (asid va : Word) : Word := (va &&& ~~~0x1fff#32) ||| (asid &&& 0xff#32)

structure TlbEntry (ν : Type) where
  hi : Word
  lo0 : Word
  lo1 : Word
  note : ν

variable {ν : Type}

/-- `tlb_out`. -/
def tlbOut (hi : Word) (tlb : List (TlbEntry ν)) : List (TlbEntry ν) :=
  tlb.filter (fun e => e.hi ≠ hi)

theorem mem_tlbOut {hi : Word} {tlb : List (TlbEntry ν)} {e : TlbEntry ν} :
    e ∈ tlbOut hi tlb ↔ e ∈ tlb ∧ e.hi ≠ hi := by
  unfold tlbOut
  rw [List.mem_filter, decide_eq_true_iff]

/-- The pointer to a table entry with its low three bits cleared. -/
def evenIdx (j : Idx) : Idx := Fin.ofNat 1024 (j.val / 2 * 2)

/-- The entry after that. -/
def oddIdx (j : Idx) : Idx := Fin.ofNat 1024 (j.val / 2 * 2 + 1)

/-- The word that the refill hands to the TLB for a table entry. -/
def entryLo (pte : Word) : Word := pte >>> 6

/-- The panics of `passive_alloc`. -/
def passiveAllocRefuses (va : Word) : Bool :=
  va < UTEMP || (USTACKTOP ≤ va && va < USTACKTOP + 4096) || (UENVS ≤ va && va < UPAGES) ||
    (UPAGES ≤ va && va < UVPT) || ULIM ≤ va

/-- The permission that `passive_alloc` gives a new page. -/
def passiveAllocPerm (va : Word) : Word :=
  if UVPT ≤ va && va < ULIM then 0 else PTE_D

end MosSmp
