import Mathlib.Logic.Basic

/-!
Resources with one owner each. `Exclusive owner res free` says that the
owners hold pairwise different resources and that no held resource is free.
A step may take resources away from owners, give a free one to a new owner,
or let an owner return its resource; each rule compares the state after the
step with the state before it.
-/

namespace MosSmp.Lib

variable {α ρ : Type}

structure Exclusive (owner : α → Prop) (res : α → ρ) (free : ρ → Prop) : Prop where
  inj : ∀ a b, owner a → owner b → res a = res b → a = b
  held : ∀ a, owner a → ¬ free (res a)

variable {owner owner' : α → Prop} {res res' : α → ρ} {free free' : ρ → Prop} {x : α}

section

variable (h : Exclusive owner res free)
include h

/-- Owners may vanish and free resources may be lost. -/
theorem Exclusive.shrink (howner : ∀ a, owner' a → owner a ∧ res' a = res a)
    (hfree : ∀ r, free' r → free r) : Exclusive owner' res' free' where
  inj := by
    intro a b ha hb hab
    rw [(howner a ha).2, (howner b hb).2] at hab
    exact h.inj a b (howner a ha).1 (howner b hb).1 hab
  held := by
    intro a ha hfr
    rw [(howner a ha).2] at hfr
    exact h.held a (howner a ha).1 (hfree _ hfr)

/-- A free resource is given to `x`. -/
theorem Exclusive.give (howner : ∀ a, owner' a → a = x ∨ (owner a ∧ res' a = res a))
    (hx : free (res' x)) (hfree : ∀ r, free' r → free r ∧ r ≠ res' x) :
    Exclusive owner' res' free' where
  inj := by
    intro a b ha hb hab
    rcases howner a ha with rfl | ⟨ha, hra⟩
    · rcases howner b hb with rfl | ⟨hb, hrb⟩
      · rfl
      · rw [hab, hrb] at hx
        exact absurd hx (h.held b hb)
    · rcases howner b hb with rfl | ⟨hb, hrb⟩
      · rw [← hab, hra] at hx
        exact absurd hx (h.held a ha)
      · exact h.inj a b ha hb (by rw [← hra, ← hrb, hab])
  held := by
    intro a ha hfr
    obtain ⟨hold, hne⟩ := hfree _ hfr
    rcases howner a ha with rfl | ⟨ha, hra⟩
    · exact hne rfl
    · rw [hra] at hold
      exact h.held a ha hold

/-- The owner `x` returns its resource. -/
theorem Exclusive.giveBack (hx : owner x)
    (howner : ∀ a, owner' a → a ≠ x ∧ owner a ∧ res' a = res a)
    (hfree : ∀ r, free' r → free r ∨ r = res x) : Exclusive owner' res' free' where
  inj := by
    intro a b ha hb hab
    obtain ⟨_, hoa, hra⟩ := howner a ha
    obtain ⟨_, hob, hrb⟩ := howner b hb
    exact h.inj a b hoa hob (by rw [← hra, ← hrb, hab])
  held := by
    intro a ha hfr
    obtain ⟨hne, hoa, hra⟩ := howner a ha
    rw [hra] at hfr
    rcases hfree _ hfr with hold | heq
    · exact h.held a hoa hold
    · exact hne (h.inj a x hoa hx heq)

end

end MosSmp.Lib
