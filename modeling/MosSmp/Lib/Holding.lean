import Mathlib.Logic.Relation

/-!
Cells stored in places. Every member `a` of a changing family has places `p`,
and `ref a p` is the cell stored there or the empty value `z`. `Holding` says
that the cells in use are exactly those that are kept aside and those stored
in some place, each in one place only. The rules follow a cell from the moment
it is taken into use until it is dropped, and a member from the moment it joins
until it leaves; each compares the situation after a step with the one before.
-/

namespace MosSmp.Lib

variable {α ρ β : Type}

structure Holding (member : α → Prop) (ref : α → ρ → β) (z : β) (used kept : β → Prop) :
    Prop where
  ref_used : ∀ a p, member a → ref a p ≠ z → used (ref a p)
  once : ∀ a p a' p', member a → member a' → ref a p ≠ z → ref a p = ref a' p' →
    a = a' ∧ p = p'
  apart : ∀ a p, member a → ref a p ≠ z → ¬ kept (ref a p)
  kept_used : ∀ b, kept b → used b
  covered : ∀ b, used b → kept b ∨ ∃ a p, member a ∧ ref a p ≠ z ∧ ref a p = b

namespace Holding

variable {member member' : α → Prop} {ref ref' : α → ρ → β} {z b : β}
  {used used' kept kept' : β → Prop} {a a' x : α} {p p' q : ρ}

/-- Cell `b` is stored in place `p` of the member `a`. -/
def Stores (member : α → Prop) (ref : α → ρ → β) (z : β) (a : α) (p : ρ) (b : β) : Prop :=
  member a ∧ ref a p ≠ z ∧ ref a p = b

theorem of_stores (hstored : ∀ a p b, Stores member ref z a p b → used b ∧ ¬ kept b)
    (halone : ∀ a p a' p' b, Stores member ref z a p b → Stores member ref z a' p' b →
      a = a' ∧ p = p') (hkept : ∀ b, kept b → used b)
    (hcovered : ∀ b, used b → kept b ∨ ∃ a p, Stores member ref z a p b) :
    Holding member ref z used kept where
  ref_used := fun a p ha hne => (hstored a p _ ⟨ha, hne, rfl⟩).1
  once := fun a p a' p' ha ha' hne heq =>
    halone a p a' p' _ ⟨ha, hne, rfl⟩ ⟨ha', heq ▸ hne, heq.symm⟩
  apart := fun a p ha hne => (hstored a p _ ⟨ha, hne, rfl⟩).2
  kept_used := hkept
  covered := hcovered

section

variable (h : Holding member ref z used kept)
include h

theorem stored (hs : Stores member ref z a p b) : used b ∧ ¬ kept b := by
  obtain ⟨ha, hne, rfl⟩ := hs
  exact ⟨h.ref_used a p ha hne, h.apart a p ha hne⟩

theorem alone (hs : Stores member ref z a p b) (hs' : Stores member ref z a' p' b) :
    a = a' ∧ p = p' := by
  obtain ⟨ha, hne, rfl⟩ := hs
  exact h.once a p a' p' ha hs'.1 hne hs'.2.2.symm

/-- The cells are stored where they were. -/
theorem of_same (hst : ∀ a p c, Stores member' ref' z a p c ↔ Stores member ref z a p c)
    (hused : ∀ c, used' c ↔ used c) (hkept : ∀ c, kept' c ↔ kept c) :
    Holding member' ref' z used' kept' := by
  apply of_stores
  · intro a p c hs
    rw [hused, hkept]
    exact h.stored ((hst a p c).mp hs)
  · intro a p a' p' c hs hs'
    exact h.alone ((hst a p c).mp hs) ((hst a' p' c).mp hs')
  · intro c
    rw [hused, hkept]
    exact h.kept_used c
  · intro c
    simp only [hused, hkept, hst]
    exact h.covered c

theorem congr (hmember : ∀ a, member' a ↔ member a) (href : ∀ a p, member a → ref' a p = ref a p)
    (hused : ∀ c, used' c ↔ used c) (hkept : ∀ c, kept' c ↔ kept c) :
    Holding member' ref' z used' kept' := by
  refine h.of_same (fun a p c => ?_) hused hkept
  unfold Stores
  rw [hmember]
  refine and_congr_right (fun ha => ?_)
  rw [href a p ha]

/-- A cell not in use is taken and kept aside. -/
theorem take (hb : ¬ used b) (hused : ∀ c, used' c ↔ used c ∨ c = b)
    (hkept : ∀ c, kept' c ↔ kept c ∨ c = b) : Holding member ref z used' kept' := by
  apply of_stores
  · intro a p c hs
    obtain ⟨hu, hk⟩ := h.stored hs
    refine ⟨(hused c).mpr (.inl hu), fun hk' => ?_⟩
    rcases (hkept c).mp hk' with hk' | rfl
    · exact hk hk'
    · exact hb hu
  · exact fun _ _ _ _ _ => h.alone
  · intro c hc
    exact (hused c).mpr (((hkept c).mp hc).imp_left (h.kept_used c))
  · intro c hc
    rcases (hused c).mp hc with hu | heq
    · exact (h.covered c hu).imp_left (fun hk => (hkept c).mpr (.inl hk))
    · exact .inl ((hkept c).mpr (.inr heq))

/-- A cell kept aside is stored in an empty place. -/
theorem assign (hx : member x) (hempty : ref x q = z) (hb : kept b) (hbz : b ≠ z)
    (hset : ref' x q = b) (href : ∀ a p, member a → ¬ (a = x ∧ p = q) → ref' a p = ref a p)
    (hkept : ∀ c, kept' c ↔ kept c ∧ c ≠ b) : Holding member ref' z used kept' := by
  have hst : ∀ a p c, Stores member ref' z a p c ↔
      Stores member ref z a p c ∨ (a = x ∧ p = q) ∧ c = b := by
    intro a p c
    unfold Stores
    by_cases hap : a = x ∧ p = q
    · obtain ⟨rfl, rfl⟩ := hap
      simp [hset, hempty, hx, hbz, eq_comm]
    · simp only [hap, false_and, or_false]
      refine and_congr_right (fun ha => ?_)
      rw [href a p ha hap]
  apply of_stores
  · intro a p c hs
    rcases (hst a p c).mp hs with hs | ⟨_, rfl⟩
    · exact ⟨(h.stored hs).1, fun hk => (h.stored hs).2 ((hkept c).mp hk).1⟩
    · exact ⟨h.kept_used c hb, fun hk => ((hkept c).mp hk).2 rfl⟩
  · intro a p a' p' c hs hs'
    rcases (hst a p c).mp hs with hs | ⟨⟨rfl, rfl⟩, rfl⟩ <;>
      rcases (hst a' p' c).mp hs' with hs' | ⟨⟨rfl, rfl⟩, hc⟩
    · exact h.alone hs hs'
    · exact absurd (hc ▸ hb) (h.stored hs).2
    · exact absurd hb (h.stored hs').2
    · exact ⟨rfl, rfl⟩
  · exact fun c hc => h.kept_used c ((hkept c).mp hc).1
  · intro c hc
    by_cases hcb : c = b
    · exact .inr ⟨x, q, (hst x q c).mpr (.inr ⟨⟨rfl, rfl⟩, hcb⟩)⟩
    · exact (h.covered c hc).imp (fun hk => (hkept c).mpr ⟨hk, hcb⟩)
        (fun ⟨a, p, hs⟩ => ⟨a, p, (hst a p c).mpr (.inl hs)⟩)

/-- The cell of one place is taken out of it and kept aside. -/
theorem release (hx : member x) (hfull : ref x q ≠ z) (hset : ref' x q = z)
    (href : ∀ a p, member a → ¬ (a = x ∧ p = q) → ref' a p = ref a p)
    (hkept : ∀ c, kept' c ↔ kept c ∨ c = ref x q) : Holding member ref' z used kept' := by
  have hst : ∀ a p c, Stores member ref' z a p c ↔
      Stores member ref z a p c ∧ ¬ (a = x ∧ p = q) := by
    intro a p c
    unfold Stores
    by_cases hap : a = x ∧ p = q
    · obtain ⟨rfl, rfl⟩ := hap
      simp [hset]
    · simp only [hap, not_false_eq_true, and_true]
      refine and_congr_right (fun ha => ?_)
      rw [href a p ha hap]
  apply of_stores
  · intro a p c hs
    obtain ⟨hs, hne⟩ := (hst a p c).mp hs
    refine ⟨(h.stored hs).1, fun hk => ?_⟩
    rcases (hkept c).mp hk with hk | rfl
    · exact (h.stored hs).2 hk
    · exact hne (h.alone hs ⟨hx, hfull, rfl⟩)
  · exact fun a p a' p' c hs hs' => h.alone ((hst a p c).mp hs).1 ((hst a' p' c).mp hs').1
  · intro c hc
    rcases (hkept c).mp hc with hk | rfl
    · exact h.kept_used c hk
    · exact h.ref_used x q hx hfull
  · intro c hc
    by_cases hcb : c = ref x q
    · exact .inl ((hkept c).mpr (.inr hcb))
    refine (h.covered c hc).imp (fun hk => (hkept c).mpr (.inl hk)) ?_
    rintro ⟨a, p, hs⟩
    refine ⟨a, p, (hst a p c).mpr ⟨hs, ?_⟩⟩
    rintro ⟨rfl, rfl⟩
    exact hcb hs.2.2.symm

/-- A cell kept aside is no longer in use. -/
theorem drop (hb : kept b) (hused : ∀ c, used' c ↔ used c ∧ c ≠ b)
    (hkept : ∀ c, kept' c ↔ kept c ∧ c ≠ b) : Holding member ref z used' kept' := by
  apply of_stores
  · intro a p c hs
    obtain ⟨hu, hk⟩ := h.stored hs
    refine ⟨(hused c).mpr ⟨hu, ?_⟩, fun hk' => hk ((hkept c).mp hk').1⟩
    rintro rfl
    exact hk hb
  · exact fun _ _ _ _ _ => h.alone
  · intro c hc
    exact (hused c).mpr (((hkept c).mp hc).imp_left (h.kept_used c))
  · intro c hc
    obtain ⟨hu, hcb⟩ := (hused c).mp hc
    exact (h.covered c hu).imp_left (fun hk => (hkept c).mpr ⟨hk, hcb⟩)

/-- A member with empty places joins. -/
theorem join (hx : ∀ p, ref' x p = z) (hmember : ∀ a, member' a ↔ member a ∨ a = x)
    (href : ∀ a p, member a → a ≠ x → ref' a p = ref a p) (hnew : ¬ member x) :
    Holding member' ref' z used kept := by
  refine h.of_same (fun a p c => ?_) (fun _ => Iff.rfl) (fun _ => Iff.rfl)
  unfold Stores
  by_cases hax : a = x
  · subst hax
    simp [hx, hnew]
  · rw [hmember, or_iff_left hax]
    refine and_congr_right (fun ha => ?_)
    rw [href a p ha hax]

/-- A member with empty places leaves. -/
theorem leave (hx : ∀ p, ref x p = z) (hmember : ∀ a, member' a ↔ member a ∧ a ≠ x)
    (href : ∀ a p, member a → a ≠ x → ref' a p = ref a p) : Holding member' ref' z used kept := by
  refine h.of_same (fun a p c => ?_) (fun _ => Iff.rfl) (fun _ => Iff.rfl)
  unfold Stores
  by_cases hax : a = x
  · subst hax
    simp [hx, hmember]
  · rw [hmember, and_iff_left hax]
    refine and_congr_right (fun ha => ?_)
    rw [href a p ha hax]

end

end Holding

open Relation

/-- Where two relations agree on everything reached by one of them, they reach
the same. -/
theorem reflTransGen_congr {r r' : α → α → Prop} {x : α}
    (h : ∀ a, ReflTransGen r x a → ∀ b, r' a b ↔ r a b) (y : α) :
    ReflTransGen r' x y ↔ ReflTransGen r x y := by
  constructor
  · intro hy
    induction hy with
    | refl => exact .refl
    | tail _ hbc ih => exact ih.tail ((h _ ih _).mp hbc)
  · intro hy
    induction hy with
    | refl => exact .refl
    | tail hxb hbc ih => exact ih.tail ((h _ hxb _).mpr hbc)

end MosSmp.Lib
