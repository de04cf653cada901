import Mathlib.Data.List.Rotate

/-!
Taking turns. Every element of a list gets a number of turns in a row, and
after the last element the first one is next again. `slots` is one period of
the sequence and `cycle` the sequence itself. Giving the first element its
turns and moving it to the end of the list does not change what comes next.
-/

namespace MosSmp.Lib

open List Nat

namespace Turns

variable {α : Type}

/-- The elements of `l` over and over again. -/
def cycle (l : List α) (k : Nat) : Option α :=
  l[k % l.length]?

/-- One period: `x` gets `turns x` turns. -/
def slots (turns : α → Nat) (xs : List α) : List α :=
  xs.flatMap (fun x => replicate (turns x) x)

theorem cycle_append (l l' : List α) (k : Nat) :
    cycle (l ++ l') (l.length + k) = cycle (l' ++ l) k := by
  unfold cycle
  rw [← rotate_append_length_eq l l']
  rcases Nat.eq_zero_or_pos (l ++ l').length with hnil | hpos
  · rw [eq_nil_of_length_eq_zero hnil]
    simp
  · have hlt : k % (l ++ l').length < (l ++ l').length := mod_lt _ hpos
    rw [List.length_rotate, List.getElem?_rotate hlt, Nat.mod_add_mod, Nat.add_comm]

variable {turns : α → Nat} {x : α} {xs : List α}

theorem slots_cons : slots turns (x :: xs) = replicate (turns x) x ++ slots turns xs :=
  flatMap_cons

theorem slots_snoc : slots turns (xs ++ [x]) = slots turns xs ++ replicate (turns x) x := by
  unfold slots
  rw [flatMap_append, flatMap_singleton]

/-- The first element has its turns, and then the rest of the list is next. -/
theorem cycle_slots_cons (k : Nat) : cycle (slots turns (x :: xs)) k =
      if k < turns x then some x else cycle (slots turns (xs ++ [x])) (k - turns x) := by
  rw [slots_cons, slots_snoc]
  by_cases hlt : k < turns x
  · have hlen : k < (replicate (turns x) x ++ slots turns xs).length := by
      rw [length_append, length_replicate]
      omega
    rw [if_pos hlt]
    unfold cycle
    rw [mod_eq_of_lt hlen, getElem?_append_left (by rwa [length_replicate]),
      getElem?_replicate, if_pos hlt]
  · obtain ⟨j, rfl⟩ : ∃ j, k = (replicate (turns x) x).length + j := by
      rw [length_replicate]
      exact ⟨k - turns x, by omega⟩
    rw [if_neg hlt, cycle_append, List.length_replicate, Nat.add_sub_cancel_left]

/-- What is still to come when `x` has `left` turns left and `xs` is after it. -/
def upcoming (turns : α → Nat) (x : α) (left : Nat) (xs : List α) (k : Nat) : Option α :=
  if k < left then some x else cycle (slots turns (xs ++ [x])) (k - left)

theorem upcoming_succ (left k : Nat) :
    upcoming turns x (left + 1) xs (k + 1) = upcoming turns x left xs k := by
  unfold upcoming
  simp only [Nat.add_lt_add_iff_right, Nat.add_sub_add_right]

theorem upcoming_zero (k : Nat) : upcoming turns x 0 xs k = cycle (slots turns (xs ++ [x])) k := by
  unfold upcoming
  rw [if_neg (Nat.not_lt_zero k), Nat.sub_zero]

end Turns

end MosSmp.Lib
