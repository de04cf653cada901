import Mathlib.Data.Nat.ModEq
import Mathlib.Logic.Function.Basic

/-!
A ring buffer with two counters that wrap. `rpos` and `wpos` count the items
that went out and in, modulo `2 ^ w`, and the item with number `i` lies in the
cell `i % size`. `Holds` says which sequence the ring is a window of. The number
of cells divides `2 ^ w`, so that the cell of an item does not depend on the
wraps, and is less than `2 ^ w`, so that a full ring is not taken for an empty
one.
-/

namespace MosSmp.Lib

structure Ring (α : Type) (w size : Nat) where
  rpos : BitVec w
  wpos : BitVec w
  buf : Fin size → α

namespace Ring

variable {α : Type} {w size : Nat} [NeZero size]

/-- The cell for a counter. -/
def cell (pos : BitVec w) : Fin size :=
  Fin.ofNat size pos.toNat

/-- The number of items in the ring, by the counters. -/
def count (r : Ring α w size) : Nat :=
  (r.wpos - r.rpos).toNat

def put (r : Ring α w size) (a : α) : Ring α w size :=
  { r with buf := Function.update r.buf (cell r.wpos) a }

def advance (r : Ring α w size) : Ring α w size :=
  { r with wpos := r.wpos + 1 }

def drop (r : Ring α w size) : Ring α w size :=
  { r with rpos := r.rpos + 1 }

/-- The items `written` went in one after the other, and `taken` of them have
been taken out. -/
structure Holds (r : Ring α w size) (written : List α) (taken : Nat) : Prop where
  wpos : r.wpos = BitVec.ofNat w written.length
  rpos : r.rpos = BitVec.ofNat w taken
  le : taken ≤ written.length
  fits : written.length - taken ≤ size
  buf : ∀ i a, taken ≤ i → written[i]? = some a → r.buf (Fin.ofNat size i) = a

variable {r : Ring α w size} {written : List α} {taken : Nat} {a : α}

theorem cell_ofNat (hdvd : size ∣ 2 ^ w) (i : Nat) :
    (cell (BitVec.ofNat w i) : Fin size) = Fin.ofNat size i := by
  unfold cell
  apply Fin.ext
  exact Nat.mod_mod_of_dvd i hdvd

/-- Two items that are less than `size` apart have different cells. -/
theorem cell_ne {i j : Nat} (hlt : i < j) (hnear : j - i < size) :
    Fin.ofNat size i ≠ Fin.ofNat size j := by
  intro h
  have hmod : i % size = j % size := congrArg Fin.val h
  have hdvd : size ∣ j - i := (Nat.modEq_iff_dvd' (Nat.le_of_lt hlt)).mp hmod
  exact absurd (Nat.le_of_dvd (by omega) hdvd) (by omega)

theorem holds_nil (buf : Fin size → α) : (⟨0, 0, buf⟩ : Ring α w size).Holds [] 0 :=
  ⟨rfl, rfl, Nat.le_refl 0, Nat.zero_le size, fun _ _ _ h => nomatch h⟩

namespace Holds

section

variable (h : r.Holds written taken)
include h

theorem count_eq (hw : size < 2 ^ w) : r.count = written.length - taken := by
  have hle := h.le
  have hlt : written.length - taken < 2 ^ w := Nat.lt_of_le_of_lt h.fits hw
  have hsum : r.wpos = BitVec.ofNat w (written.length - taken) + r.rpos := by
    rw [h.wpos, h.rpos, ← BitVec.ofNat_add]
    congr 1
    omega
  unfold count
  rw [hsum, BitVec.add_sub_cancel, BitVec.toNat_ofNat]
  exact Nat.mod_eq_of_lt hlt

theorem count_le (hw : size < 2 ^ w) : r.count ≤ size := by
  rw [h.count_eq hw]
  exact h.fits

theorem empty_iff (hw : size < 2 ^ w) : r.rpos = r.wpos ↔ taken = written.length := by
  have hcount := h.count_eq hw
  have hle := h.le
  unfold count at hcount
  constructor
  · intro heq
    rw [heq, BitVec.sub_self, BitVec.toNat_zero] at hcount
    omega
  · intro heq
    rw [h.rpos, h.wpos, heq]

/-- The item at the read position is the next one. -/
theorem head (hdvd : size ∣ 2 ^ w) (ha : written[taken]? = some a) : r.buf (cell r.rpos) = a := by
  rw [h.rpos, cell_ofNat hdvd]
  exact h.buf taken a (Nat.le_refl taken) ha

/-- A store to the cell behind the last item changes no item, if there is room. -/
theorem put (hdvd : size ∣ 2 ^ w) (hroom : written.length - taken < size) (a : α) :
    (r.put a).Holds written taken := by
  refine ⟨h.wpos, h.rpos, h.le, h.fits, fun i b hi hb => ?_⟩
  have hlt : i < written.length := (List.getElem?_eq_some_iff.mp hb).1
  have hne : Fin.ofNat size i ≠ cell r.wpos := by
    rw [h.wpos, cell_ofNat hdvd]
    exact cell_ne hlt (by omega)
  exact (Function.update_of_ne hne _ _).trans (h.buf i b hi hb)

/-- The item behind the last one becomes visible. -/
theorem advance (hdvd : size ∣ 2 ^ w) (hroom : written.length - taken < size)
    (ha : r.buf (cell r.wpos) = a) : r.advance.Holds (written ++ [a]) taken := by
  have hle := h.le
  have hlen : (written ++ [a]).length = written.length + 1 := List.length_append ..
  refine ⟨?_, h.rpos, ?_, ?_, fun i b hi hb => ?_⟩
  · change r.wpos + 1 = _
    rw [h.wpos, hlen, BitVec.ofNat_add]
    rfl
  · omega
  · omega
  · by_cases hlast : i < written.length
    · rw [List.getElem?_append_left hlast] at hb
      exact h.buf i b hi hb
    · have hlt := (List.getElem?_eq_some_iff.mp hb).1
      obtain rfl : i = written.length := by omega
      rw [List.getElem?_concat_length] at hb
      rw [← Option.some.inj hb, ← ha, h.wpos, cell_ofNat hdvd]
      rfl

theorem drop (hlt : taken < written.length) : r.drop.Holds written (taken + 1) := by
  have hfits := h.fits
  refine ⟨h.wpos, ?_, hlt, by omega, fun i a hi ha => h.buf i a (by omega) ha⟩
  change r.rpos + 1 = _
  rw [h.rpos, BitVec.ofNat_add]
  rfl

end

end Holds

end Ring

end MosSmp.Lib
