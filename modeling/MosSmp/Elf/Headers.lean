import MosSmp.Elf.Load
import Mathlib.Data.List.GetD

/-!
The loop of `spawn` over the program headers. `ehdr` points into `elfbuf`, and the
program headers are read to the start of the same buffer, so that an entry longer
than 42 bytes replaces `e_phentsize` and `e_phnum` while the loop still reads them.
-/

namespace MosSmp.Elf

open List Nat

/-- The stack from `elfbuf` on. -/
abbrev Buf := Nat → BitVec 8

namespace Buf

def half (b : Buf) (o : Nat) : Nat := (b o).toNat + 2 ^ 8 * (b (o + 1)).toNat

def word (b : Buf) (o : Nat) : Nat := b.half o + 2 ^ 16 * b.half (o + 2)

end Buf

/-- A `readn` into `elfbuf`: where it reads in the file, how many bytes it asks for,
and the fields of `ehdr` after it. -/
structure Request where
  off : Nat
  len : Nat
  phnum : Nat
  phentsize : Nat
deriving DecidableEq

structure Reader where
  buf : Buf
  requests : List Request

section Source

variable (file : List (BitVec 8)) (load : Nat → Buf → Bool)

end Source

variable {file : List (BitVec 8)} {load : Nat → Buf → Bool}

/-- The requests for `k` entries of `E` bytes from `off` on. -/
def entries (off E P k : Nat) : List Request :=
  (range k).map (fun j => ⟨(off + j * E) % 2 ^ 32, E, P, E⟩)

/-- A loop over `n` entries asks for one after the other: for all of them where it
ends normally, which it does where they lie in the file and can be loaded. -/
def Examines (file : List (BitVec 8)) (load : Nat → Buf → Bool) (off E P n : Nat)
    (before : List Request) (run : Bool × Reader) : Prop :=
  ∃ k ≤ n, run.2.requests = before ++ entries off E P k ∧ (run.1 = true → k = n) ∧
    ((∀ j < n, (off + j * E) % 2 ^ 32 + E ≤ file.length) → (∀ j b, load j b = true) →
      run.1 = true)

theorem Examines.none {off E P n : Nat} (hn : n = 0) (s : Reader) :
    Examines file load off E P n s.requests (true, s) :=
  ⟨0, zero_le n, (append_nil _).symm, fun _ => hn.symm, fun _ _ => rfl⟩

section

variable {stack : Buf} {size num : BitVec 16}

end

end MosSmp.Elf
