import MosSmp.Pmap.Pages
import MosSmp.Lib.Ledger

/-!
The references that page tables hold. A slot is an entry of a directory, or an
entry of the table that a directory entry leads to; `slots` says which page
each slot refers to. The predicate `user` names the directory entries that are
meant: the others are not looked at, so a directory may share tables with
another one above `UTOP`.

Writing one word of a table or a directory changes one slot. This needs that
no table is used twice and that no table is a directory, which is what
`Tables` says, together with the addresses being in range.
-/

namespace MosSmp

open Lib Function

/-- Entry `i` of directory `d`, or entry `j` of the table behind it. -/
abbrev Slot (n : Nat) := (Page n × Idx) ⊕ (Page n × Idx × Idx)

/-- The page that a directory or table entry refers to. -/
def entryPage {n : Nat} (w : Word) : Option (Page n) :=
  if pteValid w then pa2page w else none

theorem pteValid_zero : pteValid 0 = false := by decide

variable {n : Nat}

theorem entryPage_zero : (entryPage 0 : Option (Page n)) = none := rfl

theorem entryPage_of_not_valid {w : Word} (h : pteValid w = false) :
    (entryPage w : Option (Page n)) = none := by
  unfold entryPage
  simp [h]

theorem entryPage_some {w : Word} {p : Page n} (h : entryPage w = some p) :
    pteValid w = true ∧ pa2page w = some p := by
  unfold entryPage at h
  split at h
  · next hv => exact ⟨hv, h⟩
  · cases h

namespace Pmap

variable {n : Nat} (m : Pmap n) (user : Page n → Idx → Bool)

/-- The table behind entry `i` of directory `d`. -/
def tableAt (d : Page n) (i : Idx) : Option (Page n) :=
  if user d i then entryPage (m.mem d i) else none

/-- The page mapped by entry `j` of that table. -/
def pageAt (d : Page n) (i j : Idx) : Option (Page n) :=
  (m.tableAt user d i).bind (fun t => entryPage (m.mem t j))

def slots : Slot n → Option (Page n)
  | .inl (d, i) => m.tableAt user d i
  | .inr (d, i, j) => m.pageAt user d i j

/-- The directories and their tables are well formed. -/
structure Tables : Prop where
  tableIn : ∀ d i, user d i = true → pteValid (m.mem d i) = true →
    ∃ t, (pa2page (m.mem d i) : Option (Page n)) = some t
  pageIn : ∀ d i t j, m.tableAt user d i = some t → pteValid (m.mem t j) = true →
    ∃ p, (pa2page (m.mem t j) : Option (Page n)) = some p
  alone : ∀ d i d' i' t, m.tableAt user d i = some t → m.tableAt user d' i' = some t →
    d = d' ∧ i = i'
  plain : ∀ d i t, m.tableAt user d i = some t → ∀ j, user t j = false

variable {m user} {m' : Pmap n} {d t p : Page n} {i j : Idx} {w : Word}

theorem tableAt_some (h : m.tableAt user d i = some t) :
    user d i = true ∧ entryPage (m.mem d i) = some t := by
  unfold tableAt at h
  split at h
  · next hu => exact ⟨hu, h⟩
  · cases h

theorem tableAt_of_not_valid (hv : pteValid (m.mem d i) = false) : m.tableAt user d i = none := by
  unfold tableAt
  rw [entryPage_of_not_valid hv]
  split <;> rfl

/-- A valid entry of a directory leads to a table. -/
theorem Tables.tableAt_of_valid (h : m.Tables user) (hu : user d i = true)
    (hv : pteValid (m.mem d i) = true) :
    ∃ t, m.tableAt user d i = some t ∧ pa2page (m.mem d i) = some t := by
  obtain ⟨t, ht⟩ := h.tableIn d i hu hv
  refine ⟨t, ?_, ht⟩
  unfold tableAt entryPage
  rw [if_pos hu, if_pos hv, ht]

theorem pageAt_of_table (h : m.tableAt user d i = some t) :
    m.pageAt user d i j = entryPage (m.mem t j) := by
  unfold pageAt
  rw [h]
  rfl

theorem mem_write (m : Pmap n) (a q : Page n) (i j : Idx) (w : Word) :
    (m.write (a, i) w).mem q j = if q = a ∧ j = i then w else m.mem q j := by
  unfold write
  by_cases hq : q = a
  · subst hq
    by_cases hj : j = i <;> simp [hj]
  · simp [hq]

/-- The slots depend on the contents of the directories and the tables
only. -/
theorem slots_congr (htab : ∀ d i, user d i = true → m'.mem d i = m.mem d i)
    (hpage : ∀ d i t j, m.tableAt user d i = some t → entryPage (n := n) (m'.mem t j) =
      entryPage (m.mem t j)) : m'.slots user = m.slots user := by
  have htable : ∀ d i, m'.tableAt user d i = m.tableAt user d i := by
    intro d i
    unfold tableAt
    split
    · next hu => rw [htab d i hu]
    · rfl
  funext x
  rcases x with ⟨d, i⟩ | ⟨d, i, j⟩
  · exact htable d i
  · simp only [slots, pageAt, htable d i]
    cases ht : m.tableAt user d i with
    | none => rfl
    | some t => exact hpage d i t j ht

/-- The contents of a page that is neither a directory nor a table do not
matter. -/
theorem slots_of_data (hdir : ∀ i, user p i = false)
    (htab : ∀ d i, m.tableAt user d i ≠ some p) (hmem : ∀ q, q ≠ p → m'.mem q = m.mem q) :
    m'.slots user = m.slots user := by
  apply slots_congr
  · intro d i hu
    have hne : d ≠ p := by
      rintro rfl
      rw [hdir i] at hu
      cases hu
    rw [hmem d hne]
  · intro d i t j ht
    have hne : t ≠ p := by
      rintro rfl
      exact htab d i ht
    rw [hmem t hne]

/-- The table at `d` and `i` in terms of the slots. -/
theorem slots_inl (m : Pmap n) (user : Page n → Idx → Bool) (d : Page n) (i : Idx) :
    m.slots user (.inl (d, i)) = m.tableAt user d i := rfl

theorem slots_inr (m : Pmap n) (user : Page n → Idx → Bool) (d : Page n) (i j : Idx) :
    m.slots user (.inr (d, i, j)) = m.pageAt user d i j := rfl

section

variable (h : m.Tables user)
include h

section

variable (ht : m.tableAt user d i = some t)
include ht

/-- A directory is not a table. -/
theorem Tables.ne_dir (hu : user p j = true) : p ≠ t := by
  rintro rfl
  rw [h.plain d i p ht j] at hu
  cases hu

theorem Tables.tableAt_writePte (d' : Page n) (i' : Idx) :
    (m.write (t, j) w).tableAt user d' i' = m.tableAt user d' i' := by
  unfold tableAt
  split
  · next hu =>
    have hne := h.ne_dir ht hu
    rw [mem_write, if_neg (fun heq => hne heq.1)]
  · rfl

/-- Writing an entry of a table changes the one slot behind it. -/
theorem Tables.slots_writePte : (m.write (t, j) w).slots user =
      update (m.slots user) (.inr (d, i, j)) (entryPage w) := by
  funext x
  rcases x with ⟨d', i'⟩ | ⟨d', i', j'⟩
  · exact h.tableAt_writePte ht d' i'
  · simp only [slots, pageAt, h.tableAt_writePte ht, update_apply, Sum.inr.injEq,
      Prod.mk.injEq]
    cases ht' : m.tableAt user d' i' with
    | none =>
      have hne : ¬ (d' = d ∧ i' = i ∧ j' = j) := by
        rintro ⟨rfl, rfl, _⟩
        rw [ht] at ht'
        cases ht'
      rw [if_neg hne]
      rfl
    | some t' =>
      simp only [Option.bind_some, mem_write]
      by_cases hsame : t' = t
      · subst hsame
        obtain ⟨rfl, rfl⟩ := h.alone d i d' i' t' ht ht'
        by_cases hj : j' = j <;> simp [hj]
      · have hne : ¬ (d' = d ∧ i' = i ∧ j' = j) := by
          rintro ⟨rfl, rfl, _⟩
          exact hsame (Option.some.inj (ht'.symm.trans ht))
        simp [hsame, hne]

theorem Tables.writePte (hin : pteValid w = true → ∃ p, (pa2page w : Option (Page n)) = some p) :
    (m.write (t, j) w).Tables user where
  tableIn := by
    intro d' i' hu hv
    have hne := h.ne_dir ht hu
    rw [mem_write, if_neg (fun heq => hne heq.1)] at hv ⊢
    exact h.tableIn d' i' hu hv
  pageIn := by
    intro d' i' t' j' ht' hv
    rw [h.tableAt_writePte ht] at ht'
    rw [mem_write] at hv ⊢
    split at hv
    · next heq =>
      rw [if_pos heq]
      exact hin hv
    · next heq =>
      rw [if_neg heq]
      exact h.pageIn d' i' t' j' ht' hv
  alone := by
    intro d' i' d'' i'' t' h' h''
    rw [h.tableAt_writePte ht] at h' h''
    exact h.alone d' i' d'' i'' t' h' h''
  plain := by
    intro d' i' t' ht'
    rw [h.tableAt_writePte ht] at ht'
    exact h.plain d' i' t' ht'

end

end

/-- The page holds no valid entry. -/
def Blank (m : Pmap n) (t : Page n) : Prop :=
  ∀ j, pteValid (m.mem t j) = false

theorem tableAt_writePde (hu : user d i = true) (d' : Page n) (i' : Idx) :
    (m.write (d, i) w).tableAt user d' i' =
      if d' = d ∧ i' = i then entryPage w else m.tableAt user d' i' := by
  unfold tableAt
  rw [mem_write]
  by_cases heq : d' = d ∧ i' = i
  · obtain ⟨rfl, rfl⟩ := heq
    simp [hu]
  · simp [heq]

/-- Writing a directory entry changes the one slot for its table, when the
tables before and after hold no valid entry. -/
theorem Tables.slots_writePde (h : m.Tables user) (hu : user d i = true)
    (hold : ∀ j, m.pageAt user d i j = none)
    (hnew : ∀ t, entryPage w = some t → t ≠ d ∧ m.Blank t) :
    (m.write (d, i) w).slots user = update (m.slots user) (.inl (d, i)) (entryPage w) := by
  funext x
  rcases x with ⟨d', i'⟩ | ⟨d', i', j'⟩
  · simp only [slots, tableAt_writePde hu, update_apply, Sum.inl.injEq, Prod.mk.injEq]
  · simp only [slots, pageAt, tableAt_writePde hu, update_apply, reduceCtorEq, if_false]
    by_cases heq : d' = d ∧ i' = i
    · obtain ⟨rfl, rfl⟩ := heq
      have hnone := hold j'
      unfold pageAt at hnone
      rw [hnone, if_pos ⟨rfl, rfl⟩]
      cases hw : (entryPage w : Option (Page n)) with
      | none => rfl
      | some t =>
        obtain ⟨hne, hblank⟩ := hnew t hw
        rw [Option.bind_some, mem_write, if_neg (fun heq => hne heq.1)]
        exact entryPage_of_not_valid (hblank j')
    · rw [if_neg heq]
      cases ht : m.tableAt user d' i' with
      | none => rfl
      | some =>
        have hne := h.ne_dir ht hu
        rw [Option.bind_some, Option.bind_some, mem_write, if_neg (fun heq => hne heq.1.symm)]

theorem Tables.writePde (h : m.Tables user) (hu : user d i = true)
    (hin : pteValid w = true → ∃ t, (pa2page w : Option (Page n)) = some t)
    (hnew : ∀ t, entryPage w = some t → (∀ j, user t j = false) ∧
      (∀ d' i', m.tableAt user d' i' ≠ some t) ∧ m.Blank t) :
    (m.write (d, i) w).Tables user where
  tableIn := by
    intro d' i' hu' hv
    rw [mem_write] at hv ⊢
    split at hv
    · next heq =>
      rw [if_pos heq]
      exact hin hv
    · next heq =>
      rw [if_neg heq]
      exact h.tableIn d' i' hu' hv
  pageIn := by
    intro d' i' t' j' ht' hv
    have hdir : t' ≠ d ∧ (m.Blank t' ∨ m.tableAt user d' i' = some t') := by
      rw [tableAt_writePde hu] at ht'
      split at ht'
      · obtain ⟨hplain, _, hblank⟩ := hnew t' ht'
        refine ⟨?_, .inl hblank⟩
        rintro rfl
        rw [hplain i] at hu
        cases hu
      · exact ⟨(h.ne_dir ht' hu).symm, .inr ht'⟩
    obtain ⟨hne, hor⟩ := hdir
    rw [mem_write, if_neg (fun heq => hne heq.1)] at hv ⊢
    rcases hor with hblank | ht
    · rw [hblank j'] at hv
      cases hv
    · exact h.pageIn d' i' t' j' ht hv
  alone := by
    intro d' i' d'' i'' t' h' h''
    rw [tableAt_writePde hu] at h' h''
    split at h' <;> split at h''
    · next h1 h2 => exact ⟨h1.1.trans h2.1.symm, h1.2.trans h2.2.symm⟩
    · exact absurd h'' ((hnew t' h').2.1 d'' i'')
    · exact absurd h' ((hnew t' h'').2.1 d' i')
    · exact h.alone d' i' d'' i'' t' h' h''
  plain := by
    intro d' i' t' ht'
    rw [tableAt_writePde hu] at ht'
    split at ht'
    · exact (hnew t' ht').1
    · exact h.plain d' i' t' ht'

theorem Tables.congr (h : m.Tables user) (htab : ∀ d i, user d i = true → m'.mem d i = m.mem d i)
    (hpage : ∀ d i t, m.tableAt user d i = some t → m'.mem t = m.mem t) : m'.Tables user := by
  have htable : ∀ d i, m'.tableAt user d i = m.tableAt user d i := by
    intro d i
    unfold tableAt
    split
    · next hu => rw [htab d i hu]
    · rfl
  refine ⟨fun d i hu hv => ?_, fun d i t j ht hv => ?_, fun d i d' i' t h1 h2 => ?_,
    fun d i t ht => ?_⟩
  · rw [htab d i hu] at hv ⊢
    exact h.tableIn d i hu hv
  · rw [htable] at ht
    rw [hpage d i t ht] at hv ⊢
    exact h.pageIn d i t j ht hv
  · rw [htable] at h1 h2
    exact h.alone d i d' i' t h1 h2
  · rw [htable] at ht
    exact h.plain d i t ht

variable {user' : Page n → Idx → Bool}

/-- Adding or dropping directories without tables. -/
theorem Tables.ofUser (h : m.Tables user) (htable : ∀ d i, m.tableAt user' d i = m.tableAt user d i)
    (hdir : ∀ d i, user' d i = true → user d i = true ∨ pteValid (m.mem d i) = false)
    (hplain : ∀ d i t, m.tableAt user d i = some t → ∀ j, user' t j = false) : m.Tables user' where
  tableIn := by
    intro d i hu hv
    rcases hdir d i hu with hold | hinv
    · exact h.tableIn d i hold hv
    · rw [hinv] at hv
      cases hv
  pageIn := by
    intro d i t j ht
    rw [htable] at ht
    exact h.pageIn d i t j ht
  alone := by
    intro d i d' i' t h1 h2
    rw [htable] at h1 h2
    exact h.alone d i d' i' t h1 h2
  plain := by
    intro d i t ht
    rw [htable] at ht
    exact hplain d i t ht

theorem slots_ofUser (htable : ∀ d i, m.tableAt user' d i = m.tableAt user d i) :
    m.slots user' = m.slots user := by
  funext x
  rcases x with ⟨d, i⟩ | ⟨d, i, _⟩
  · exact htable d i
  · simp only [slots, pageAt, htable]

end Pmap

end MosSmp
