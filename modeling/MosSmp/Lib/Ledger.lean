import Mathlib.Data.Fintype.BigOperators
import Mathlib.Data.Fintype.Sum
import Mathlib.Algebra.Order.BigOperators.Group.Finset

/-!
Reference counting over a finite set of slots. A slot refers to at most one
object, and every object may have owners that hold references outside the
slots. The count of an object is the number of its references of both kinds.
`Counts r L` says that the counters `r` are exact for the ledger `L`; each
operation on the ledger comes with the update of one counter that keeps them
exact, and the theorems say so.
-/

namespace MosSmp.Lib

open Function

structure Ledger (σ α : Type) where
  /-- What each slot refers to. -/
  slots : σ → Option α
  /-- References held outside the slots. -/
  own : α → Nat

namespace Ledger

variable {σ τ α : Type} [Fintype σ] [Fintype τ] [DecidableEq α]

/-- The number of slots that refer to `a`. -/
def refs (slots : σ → Option α) (a : α) : Nat :=
  ∑ s, if slots s = some a then 1 else 0

/-- The number of references to `a`. -/
def count (L : Ledger σ α) (a : α) : Nat :=
  L.own a + refs L.slots a

/-- The counters are exact. -/
def Counts (r : α → Nat) (L : Ledger σ α) : Prop :=
  ∀ a, r a = L.count a

theorem refs_sum (slots : σ ⊕ τ → Option α) (a : α) :
    refs slots a = refs (fun s => slots (.inl s)) a + refs (fun t => slots (.inr t)) a := by
  exact Fintype.sum_sum_type _

variable {slots : σ → Option α}

variable {a : α}

theorem refs_pos {s : σ} (h : slots s = some a) : 0 < refs slots a := by
  have hle : (if slots s = some a then 1 else 0) ≤ refs slots a :=
    Finset.single_le_sum (f := fun t => if slots t = some a then 1 else 0)
      (fun t _ => Nat.zero_le _) (Finset.mem_univ s)
  rw [if_pos h] at hle
  omega

theorem Counts.pos {L : Ledger σ α} {r : α → Nat} {s : σ} (h : Counts r L)
    (hs : L.slots s = some a) : 0 < r a := by
  have hpos := refs_pos hs
  have ha := h a
  unfold count at ha
  omega

theorem refs_eq_zero (h : ∀ s, slots s ≠ some a) : refs slots a = 0 := by
  exact Finset.sum_eq_zero (fun s _ => if_neg (h s))

/-- With all references to `a` in one slot there is at most one. -/
theorem refs_le_one {s : σ} (h : ∀ t, slots t = some a → t = s) : refs slots a ≤ 1 := by
  unfold refs
  rw [← Finset.card_filter, Finset.card_le_one]
  intro t ht u hu
  rw [h t (Finset.mem_filter.mp ht).2, h u (Finset.mem_filter.mp hu).2]

theorem refs_none (a : α) : refs (fun _ : σ => none) a = 0 := by
  simp [refs]

/-- The slots that satisfy `P` and the others together. -/
theorem refs_split (slots : σ → Option α) (P : σ → Prop) [DecidablePred P] (a : α) :
    refs slots a = refs (fun s => if P s then none else slots s) a +
      refs (fun s => if P s then slots s else none) a := by
  unfold refs
  rw [← Finset.sum_add_distrib]
  apply Finset.sum_congr rfl
  intro s _
  by_cases hs : P s <;> simp [hs]

/-- The slots with first coordinate `s`. -/
theorem refs_fiber [DecidableEq σ] (slots : σ × τ → Option α) (s : σ) (a : α) :
    refs (fun x => if x.1 = s then slots x else none) a = refs (fun t => slots (s, t)) a := by
  unfold refs
  rw [Fintype.sum_prod_type, Finset.sum_eq_single s]
  · simp
  · intro s' _ hne
    simp [hne]
  · exact fun hs => absurd (Finset.mem_univ s) hs

variable [DecidableEq σ] {L : Ledger σ α} {r : α → Nat} {s : σ} {a : α}

/-- Redirecting one slot moves one reference. -/
theorem refs_update (slots : σ → Option α) (s : σ) (o : Option α) (a : α) :
    refs (update slots s o) a + (if slots s = some a then 1 else 0) =
      refs slots a + (if o = some a then 1 else 0) := by
  unfold refs
  have hnew := Finset.add_sum_erase Finset.univ
    (fun t => if update slots s o t = some a then 1 else 0) (Finset.mem_univ s)
  have hold := Finset.add_sum_erase Finset.univ
    (fun t => if slots t = some a then 1 else 0) (Finset.mem_univ s)
  have hrest : ∀ t ∈ Finset.univ.erase s, (if update slots s o t = some a then 1 else 0) =
        if slots t = some a then 1 else 0 := by
    intro t ht
    rw [update_of_ne (Finset.ne_of_mem_erase ht)]
  rw [Finset.sum_congr rfl hrest] at hnew
  simp only [update_self] at hnew
  omega

def setSlot (L : Ledger σ α) (s : σ) (o : Option α) : Ledger σ α :=
  { L with slots := update L.slots s o }

/-- A new reference from an empty slot. -/
theorem Counts.assign (h : Counts r L) (hs : L.slots s = none) :
    Counts (update r a (r a + 1)) (L.setSlot s (some a)) := by
  intro b
  have hb := h b
  have hmove := refs_update L.slots s (some a) b
  unfold count at hb ⊢
  rw [hs] at hmove
  rw [update_apply]
  simp only [setSlot, reduceCtorEq, if_false, Option.some.injEq, eq_comm (b := b)] at hmove ⊢
  split_ifs at hmove ⊢ with hab
  · rw [hab] at hb hmove ⊢
    omega
  · omega

/-- A slot gives up its reference. -/
theorem Counts.clear (h : Counts r L) (hs : L.slots s = some a) :
    Counts (update r a (r a - 1)) (L.setSlot s none) := by
  intro b
  have hb := h b
  have hmove := refs_update L.slots s none b
  unfold count at hb ⊢
  rw [hs] at hmove
  rw [update_apply]
  simp only [setSlot, reduceCtorEq, if_false, Option.some.injEq, eq_comm (b := b)] at hmove ⊢
  split_ifs at hmove ⊢ with hab
  · rw [hab] at hb hmove ⊢
    omega
  · omega

def setOwn (L : Ledger σ α) (a : α) (k : Nat) : Ledger σ α :=
  { L with own := update L.own a k }

omit [DecidableEq σ] in
/-- An owner takes a reference. -/
theorem Counts.acquire (h : Counts r L) :
    Counts (update r a (r a + 1)) (L.setOwn a (L.own a + 1)) := by
  intro b
  have hb := h b
  unfold count setOwn at *
  simp only [update_apply]
  split_ifs with hab
  · rw [hab] at hb ⊢
    omega
  · omega

omit [DecidableEq σ] in
/-- An owner gives a reference back. -/
theorem Counts.release (h : Counts r L) (ha : 0 < L.own a) :
    Counts (update r a (r a - 1)) (L.setOwn a (L.own a - 1)) := by
  intro b
  have hb := h b
  unfold count setOwn at *
  simp only [update_apply]
  split_ifs with hab
  · rw [hab] at hb ⊢
    omega
  · omega

end Ledger

end MosSmp.Lib
