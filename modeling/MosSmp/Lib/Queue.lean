import Mathlib.Data.Fintype.Card
import Mathlib.Logic.Function.Basic

/-!
Intrusive doubly linked lists and tail queues over an arbitrary type of
nodes. A node does not point back to its predecessor but to the link cell
that points at it, so a node can be unlinked without traversing the list.
The operations are the pointer updates of the queue macros, in their order,
and are defined for every link structure, also for one that no longer
represents a list. `Links.Rep` and `TailQ.Rep` say that the links represent a
duplicate-free list, and one theorem per operation says what it does to that
list under the operation's precondition.
-/

namespace MosSmp.Lib

open Function List

/-- The address of a link cell: the first pointer of the head structure, or
the next pointer of a node. -/
inductive Cell (α : Type)
  | head
  | next (a : α)
  deriving DecidableEq

/-- The link fields of a list: the head pointer, and for each node its next
pointer and the address of the cell that points at it. -/
structure Links (α : Type) where
  first : Option α
  next : α → Option α
  prev : α → Cell α

namespace Links

variable {α : Type}

def read (q : Links α) : Cell α → Option α
  | .head => q.first
  | .next a => q.next a

/-- `LIST_INIT` on link fields that are zero. -/
def empty : Links α := ⟨none, fun _ => none, fun _ => .head⟩

section

/-- The nodes `xs` hang one after the other from cell `c`, and the cell after
the last one is `d`. -/
def Seg (q : Links α) : Cell α → List α → Cell α → Prop
  | c, [], d => c = d
  | c, x :: xs, d => q.read c = some x ∧ q.prev x = c ∧ Seg q (.next x) xs d

/-- The links represent the duplicate-free list `xs`. -/
def Rep (q : Links α) (xs : List α) : Prop :=
  xs.Nodup ∧ ∃ d, q.Seg .head xs d ∧ q.read d = none

/-- Outcome of a traversal that looks for the first node with a property. -/
inductive Scan (α : Type)
  | found (a : α)
  | exhausted
  | cyclic

/-- The node that was found, if any. -/
def Scan.result : Scan α → Option α
  | .found a => some a
  | .exhausted | .cyclic => none

/-- Follow the next pointers from `v` until a node satisfies `p`. A traversal
that is still going after `fuel` nodes is reported as cyclic. -/
def scan (q : Links α) (p : α → Bool) : Nat → Option α → Scan α
  | _, none => .exhausted
  | 0, some _ => .cyclic
  | fuel + 1, some a => if p a then .found a else scan q p fuel (q.next a)

variable {q q' : Links α} {c d : Cell α} {xs ys zs : List α} {p : α → Bool} {fuel : Nat}
  {v : Option α} {a x y : α} {P Q : α → Prop}

theorem scan_found (h : q.scan p fuel v = .found a) : p a = true := by
  induction fuel generalizing v with
  | zero => cases v <;> cases h
  | succ fuel ih =>
    cases v with
    | none => cases h
    | some b =>
      simp only [scan] at h
      split at h
      · next hb =>
        cases h
        exact hb
      · exact ih h

theorem seg_nil : q.Seg c [] c := rfl

theorem seg_append : q.Seg c (xs ++ ys) d ↔ ∃ m, q.Seg c xs m ∧ q.Seg m ys d := by
  induction xs generalizing c with
  | nil => simp [Seg]
  | cons x xs ih => simp [Seg, ih, and_assoc]

theorem Seg.end_eq (h : q.Seg c (x :: xs) d) : ∃ y ∈ x :: xs, d = .next y := by
  induction xs generalizing c x with
  | nil => exact ⟨x, by simp, h.2.2.symm⟩
  | cons y ys ih =>
    obtain ⟨z, hz, hd⟩ := ih h.2.2
    exact ⟨z, mem_cons_of_mem x hz, hd⟩

theorem Seg.end_mem (h : q.Seg c xs d) : d = c ∨ ∃ y ∈ xs, d = .next y := by
  cases xs with
  | nil => exact Or.inl h.symm
  | cons x xs => exact Or.inr h.end_eq

/-- A segment only depends on the cells it passes before its end and on the
back pointers of its nodes. -/
theorem Seg.congr (h : q.Seg c xs d) (hnodup : xs.Nodup)
    (hstart : ∀ y ∈ xs, c ≠ .next y)
    (hread : ∀ e, e ≠ d → (e = c ∨ ∃ y ∈ xs, e = .next y) → q'.read e = q.read e)
    (hprev : ∀ y ∈ xs, q'.prev y = q.prev y) : q'.Seg c xs d := by
  induction xs generalizing c with
  | nil => exact h
  | cons x xs ih =>
    have hend : c ≠ d := by
      obtain ⟨y, hy, hd⟩ := h.end_eq
      exact hd ▸ hstart y hy
    obtain ⟨hx, hxs⟩ := nodup_cons.mp hnodup
    refine ⟨?_, ?_, ih h.2.2 hxs ?_ ?_ ?_⟩
    · rw [hread c hend (Or.inl rfl)]
      exact h.1
    · rw [hprev x (by simp)]
      exact h.2.1
    · intro y hy heq
      cases heq
      exact hx hy
    · rintro e he (rfl | ⟨y, hy, rfl⟩)
      · exact hread _ he (Or.inr ⟨x, by simp, rfl⟩)
      · exact hread _ he (Or.inr ⟨y, mem_cons_of_mem x hy, rfl⟩)
    · exact fun y hy => hprev y (mem_cons_of_mem x hy)

theorem rep_empty : (empty : Links α).Rep [] := ⟨nodup_nil, .head, rfl, rfl⟩

theorem Rep.first_eq (h : q.Rep xs) : q.first = xs.head? := by
  obtain ⟨_, d, hseg, hnull⟩ := h
  cases xs with
  | nil =>
    cases hseg
    exact hnull
  | cons x xs => exact hseg.1

/-- On a represented list a traversal with enough fuel is the search in that
list. -/
theorem scan_of_seg (h : q.Seg c xs d) (hnull : q.read d = none) (hfuel : xs.length ≤ fuel) :
    q.scan p fuel (q.read c) =
      match xs.find? p with
      | some a => .found a
      | none => .exhausted := by
  induction xs generalizing c fuel with
  | nil =>
    cases h
    rw [hnull]
    cases fuel <;> rfl
  | cons x xs ih =>
    cases fuel with
    | zero => simp at hfuel
    | succ fuel =>
      rw [h.1]
      simp only [scan, find?_cons]
      cases hp : p x with
      | true => simp
      | false =>
        have hrest := ih h.2.2 (Nat.le_of_succ_le_succ hfuel)
        simpa [read] using hrest

theorem Seg.end_ne (h : q.Seg .head ys c) (hy : y ∉ ys) : c ≠ .next y := by
  intro heq
  obtain hm | ⟨z, hz, hm⟩ := h.end_mem
  · cases hm.symm.trans heq
  · cases hm.symm.trans heq
    exact hy hz

theorem Seg.first_mem (h : q.Seg c zs d) (hnull : q.read d = none) (hy : q.read c = some y) :
    y ∈ zs := by
  cases zs with
  | nil =>
    obtain rfl : c = d := h
    cases hnull.symm.trans hy
  | cons z zs =>
    cases h.1.symm.trans hy
    exact mem_cons_self

theorem Seg.next_ne (h : q.Seg c xs d) (hnodup : xs.Nodup) (hnull : q.read d = none)
    (ha : a ∈ xs) : q.next a ≠ some a := by
  induction xs generalizing c with
  | nil => cases ha
  | cons x xs ih =>
    obtain ⟨_, _, htail⟩ := h
    rcases mem_cons.mp ha with rfl | hmem
    · intro hloop
      cases xs with
      | nil =>
        obtain rfl : Cell.next a = d := htail
        cases hloop.symm.trans hnull
      | cons y ys =>
        obtain rfl : a = y := Option.some.inj (hloop.symm.trans htail.1)
        exact (nodup_cons.mp hnodup).1 (by simp)
    · exact ih htail (nodup_cons.mp hnodup).2 hmem

/-- The links represent a duplicate-free list of exactly the nodes with
property `P`. -/
def Holds (q : Links α) (P : α → Prop) : Prop :=
  ∃ xs, q.Rep xs ∧ ∀ a, a ∈ xs ↔ P a

theorem Holds.congr (h : q.Holds P) (hPQ : ∀ a, P a ↔ Q a) : q.Holds Q := by
  obtain ⟨xs, hrep, hmem⟩ := h
  exact ⟨xs, hrep, fun a => (hmem a).trans (hPQ a)⟩

theorem Holds.first (h : q.Holds P) (hfirst : q.first = some x) : P x := by
  obtain ⟨xs, hrep, hmem⟩ := h
  rw [hrep.first_eq] at hfirst
  exact (hmem x).mp (mem_of_mem_head? hfirst)

end

variable [DecidableEq α]

def write (q : Links α) (c : Cell α) (v : Option α) : Links α :=
  match c with
  | .head => { q with first := v }
  | .next a => { q with next := update q.next a v }

def setPrev (q : Links α) (a : α) (c : Cell α) : Links α :=
  { q with prev := update q.prev a c }

def setNext (q : Links α) (a : α) (v : Option α) : Links α :=
  { q with next := update q.next a v }

/-- `LIST_INSERT_HEAD`. -/
def insertHead (q : Links α) (x : α) : Links α :=
  let q := q.setNext x q.first
  let q := match q.first with
    | some f => q.setPrev f (.next x)
    | none => q
  let q := { q with first := some x }
  q.setPrev x .head

/-- `LIST_REMOVE`. -/
def remove (q : Links α) (x : α) : Links α :=
  let q := match q.next x with
    | some n => q.setPrev n (q.prev x)
    | none => q
  q.write (q.prev x) (q.next x)

/-- `LIST_INSERT_AFTER` of `x` after `a`. -/
def insertAfter (q : Links α) (a x : α) : Links α :=
  let q := q.setNext x (q.next a)
  let q := match q.next a with
    | some f => q.setPrev f (.next x)
    | none => q
  let q := q.setNext a (some x)
  q.setPrev x (.next a)

/-- `LIST_INSERT_BEFORE` of `x` before `b`. -/
def insertBefore (q : Links α) (b x : α) : Links α :=
  let q := q.setPrev x (q.prev b)
  let q := q.setNext x (some b)
  let q := q.write (q.prev b) (some x)
  q.setPrev b (.next x)

/-- Linking the node `x` in behind the cell `c`, which is what each of the
insertions does. -/
def link (q : Links α) (c : Cell α) (x : α) : Links α :=
  let q := q.setNext x (q.read c)
  let q := match q.read c with
    | some f => q.setPrev f (.next x)
    | none => q
  let q := q.write c (some x)
  q.setPrev x c

@[simp] theorem read_setPrev (q : Links α) (a : α) (c d : Cell α) :
    (q.setPrev a c).read d = q.read d := by
  cases d <;> rfl

@[simp] theorem prev_write (q : Links α) (c : Cell α) (v : Option α) :
    (q.write c v).prev = q.prev := by
  cases c <;> rfl

theorem read_write (q : Links α) (c d : Cell α) (v : Option α) :
    (q.write c v).read d = if d = c then v else q.read d := by
  cases c with
  | head => cases d <;> simp [write, read]
  | next a =>
    cases d with
    | head => simp [write, read]
    | next b => by_cases h : b = a <;> simp [write, read, h]

variable {q : Links α} {xs : List α} {x : α}

section Link

variable {q : Links α} {c d : Cell α} {x : α}

theorem read_link (e : Cell α) : (q.link c x).read e =
    if e = c then some x else if e = .next x then q.read c else q.read e := by
  have hset : ∀ e, (q.setNext x (q.read c)).read e =
      if e = .next x then q.read c else q.read e := by
    intro e
    cases e with
    | head => rfl
    | next b => by_cases hb : b = x <;> simp [setNext, read, hb]
  unfold link
  rw [read_setPrev, read_write]
  refine if_congr Iff.rfl rfl ?_
  split
  · rw [read_setPrev, hset]
  · rw [hset]

theorem prev_link (hx : c ≠ .next x) (y : α) : (q.link c x).prev y =
    if y = x then c else if q.read c = some y then .next x else q.prev y := by
  have hread : (q.setNext x (q.read c)).read c = q.read c := by
    cases c with
    | head => rfl
    | next b =>
      have hb : b ≠ x := fun heq => hx (by rw [heq])
      simp [setNext, read, hb]
  unfold link
  simp only [hread]
  by_cases hy : y = x
  · simp [setPrev, hy]
  · cases hc : q.read c with
    | none => simp [setPrev, setNext, hy]
    | some f =>
      by_cases hf : y = f
      · subst hf
        simp [setPrev, setNext, hy]
      · simp [setPrev, setNext, hy, hf, Ne.symm hf]

/-- Linking a fresh node in between the two parts of a represented list. The end
cell moves only when the second part is empty. -/
theorem Seg.link {ys zs : List α} {m : Cell α} (hys : q.Seg .head ys m) (hzs : q.Seg m zs d)
    (hnull : q.read d = none) (hnodup : (ys ++ zs).Nodup) (hx : x ∉ ys ++ zs) :
    (q.link m x).Seg .head (ys ++ x :: zs) (if q.read m = none then .next x else d) ∧
      (q.link m x).read (if q.read m = none then .next x else d) = none := by
  obtain ⟨hnodupY, hnodupZ, hapart⟩ := nodup_append.mp hnodup
  rw [mem_append, not_or] at hx
  have hmx := hys.end_ne hx.1
  have hread : ∀ y, y ≠ x → y ∉ ys → (q.link m x).read (.next y) = q.read (.next y) := by
    intro y hyx hy
    rw [read_link, if_neg (hys.end_ne hy).symm, if_neg (by simpa using hyx)]
  have hprev : ∀ y, y ≠ x → q.read m ≠ some y → (q.link m x).prev y = q.prev y := by
    intro y hyx hy
    rw [prev_link hmx, if_neg hyx, if_neg hy]
  have hys' : (q.link m x).Seg .head ys m := by
    refine hys.congr hnodupY (by simp) (fun e hem he => ?_) (fun y hy => ?_)
    · rw [read_link, if_neg hem, if_neg]
      rintro rfl
      rcases he with he | ⟨y, hy, he⟩
      · cases he
      · cases he
        exact hx.1 hy
    · refine hprev y (fun heq => hx.1 (heq ▸ hy)) (fun hf => ?_)
      exact hapart y hy y (hzs.first_mem hnull hf) rfl
  have hhere : (q.link m x).read m = some x := by rw [read_link, if_pos rfl]
  have hback : (q.link m x).prev x = m := by rw [prev_link hmx, if_pos rfl]
  have hnext : (q.link m x).read (.next x) = q.read m := by
    rw [read_link, if_neg hmx.symm, if_pos rfl]
  cases zs with
  | nil =>
    obtain rfl : m = d := hzs
    simp only [hnull, if_true]
    exact ⟨seg_append.mpr ⟨_, hys', hhere, hback, rfl⟩, hnext.trans hnull⟩
  | cons z zs =>
    obtain ⟨hz, _, hrest⟩ := hzs
    obtain ⟨hzzs, hnodup'⟩ := nodup_cons.mp hnodupZ
    have hout : ∀ y ∈ z :: zs, y ≠ x ∧ y ∉ ys := fun y hy =>
      ⟨fun heq => hx.2 (heq ▸ hy), fun hin => hapart y hin y hy rfl⟩
    simp only [hz, reduceCtorEq, if_false]
    refine ⟨seg_append.mpr ⟨m, hys', hhere, hback, hnext.trans hz, ?_,
      hrest.congr hnodup' ?_ ?_ ?_⟩, ?_⟩
    · rw [prev_link hmx, if_neg (hout z (by simp)).1, if_pos hz]
    · intro y hy heq
      cases heq
      exact hzzs hy
    · rintro e _ (rfl | ⟨y, hy, rfl⟩)
      · exact hread z (hout z (by simp)).1 (hout z (by simp)).2
      · exact hread y (hout y (by simp [hy])).1 (hout y (by simp [hy])).2
    · intro y hy
      refine hprev y (hout y (by simp [hy])).1 (fun hf => ?_)
      cases hz.symm.trans hf
      exact hzzs hy
    · obtain rfl | ⟨y, hy, rfl⟩ := hrest.end_mem
      · rw [hread z (hout z (by simp)).1 (hout z (by simp)).2, hnull]
      · rw [hread y (hout y (by simp [hy])).1 (hout y (by simp [hy])).2, hnull]

theorem insertAfter_eq_link {a : α} (ha : a ≠ x) : q.insertAfter a x = q.link (.next a) x := by
  have hnext : (q.setNext x (q.next a)).next a = q.next a := by simp [setNext, ha]
  rfl

theorem insertBefore_eq_link {b : α} (hb : b ≠ x) (hread : q.read (q.prev b) = some b)
    (hx : q.prev b ≠ .next x) : q.insertBefore b x = q.link (q.prev b) x := by
  have hcell : (q.setNext x (some b)).read (q.prev b) = some b := by
    cases hc : q.prev b with
    | head => simpa [hc, setNext, read] using hread
    | next a =>
      have ha : a ≠ x := fun heq => hx (by rw [hc, heq])
      simpa [hc, setNext, read, ha] using hread
  have hprev : update q.prev x (q.prev b) b = q.prev b := update_of_ne hb _ _
  simp only [insertBefore, link, hread, hcell]
  simp only [setPrev, setNext, hprev]
  cases q.prev b <;> simp [write, update_comm hb]

end Link

theorem Rep.insertHead (h : q.Rep xs) (hx : x ∉ xs) : (q.insertHead x).Rep (x :: xs) := by
  obtain ⟨hnodup, _, hseg, hnull⟩ := h
  exact ⟨nodup_cons.mpr ⟨hx, hnodup⟩, _, Seg.link seg_nil hseg hnull hnodup hx⟩

theorem rep_foldr_insertHead (hnodup : xs.Nodup) :
    (xs.foldr (fun x q => q.insertHead x) (empty : Links α)).Rep xs := by
  induction xs with
  | nil => exact rep_empty
  | cons x xs ih =>
    obtain ⟨hx, hrest⟩ := nodup_cons.mp hnodup
    exact (ih hrest).insertHead hx

theorem rep_foldl_insertHead (hnodup : xs.Nodup) :
    (xs.foldl (fun q x => q.insertHead x) (empty : Links α)).Rep xs.reverse := by
  rw [← foldr_reverse]
  exact rep_foldr_insertHead (nodup_reverse.mpr hnodup)

theorem prev_remove (y : α) :
    (q.remove x).prev y = if q.next x = some y then q.prev x else q.prev y := by
  unfold remove
  cases hnext : q.next x with
  | none => simp
  | some z => by_cases hz : y = z <;> simp [setPrev, hz, eq_comm]

theorem read_remove (e : Cell α) :
    (q.remove x).read e = if e = q.prev x then q.next x else q.read e := by
  unfold remove
  rw [read_write]
  cases hnext : q.next x with
  | none => simp [hnext]
  | some z =>
    have hprev : (q.setPrev z (q.prev x)).prev x = q.prev x := by
      by_cases hz : x = z <;> simp [setPrev, hz]
    rw [hprev, read_setPrev]
    exact if_congr Iff.rfl hnext rfl

/-- Unlinking a node of a represented list removes it from the list. The end
cell moves only when the last node goes. -/
theorem Seg.remove {ys zs : List α} {d : Cell α} (hnodup : (ys ++ x :: zs).Nodup)
    (hseg : q.Seg .head (ys ++ x :: zs) d) (hnull : q.read d = none) :
    (q.remove x).Seg .head (ys ++ zs) (if q.next x = none then q.prev x else d) ∧
      (q.remove x).read (if q.next x = none then q.prev x else d) = none := by
  obtain ⟨_, hys, _, rfl, hzs⟩ := seg_append.mp hseg
  obtain ⟨hnodupY, hnodupZ, hapart⟩ := nodup_append.mp hnodup
  obtain ⟨_, hnz⟩ := nodup_cons.mp hnodupZ
  have hcut : ∀ y ∈ x :: zs, q.prev x ≠ .next y :=
    fun y hy => hys.end_ne fun hin => hapart y hin y hy rfl
  have hys' : (q.remove x).Seg .head ys (q.prev x) := by
    refine hys.congr hnodupY (by simp) (fun e he _ => ?_) (fun y hy => ?_)
    · rw [read_remove, if_neg he]
    · rw [prev_remove, if_neg]
      exact fun hf => hapart y hy y (mem_cons_of_mem x (hzs.first_mem hnull hf)) rfl
  cases zs with
  | nil =>
    obtain rfl : Cell.next x = d := hzs
    have hnext : q.next x = none := hnull
    simp only [hnext, if_true, append_nil]
    exact ⟨hys', by rw [read_remove, if_pos rfl, hnext]⟩
  | cons z zs =>
    obtain ⟨hz, _, hrest⟩ := hzs
    have hnext : q.next x = some z := hz
    obtain ⟨hzzs, hnzs⟩ := nodup_cons.mp hnz
    have hread : ∀ y ∈ z :: zs, (q.remove x).read (.next y) = q.read (.next y) := by
      intro y hy
      rw [read_remove, if_neg (hcut y (mem_cons_of_mem x hy)).symm]
    simp only [hnext, reduceCtorEq, if_false]
    refine ⟨seg_append.mpr ⟨_, hys', ?_, ?_, hrest.congr hnzs ?_ ?_ ?_⟩, ?_⟩
    · rw [read_remove, if_pos rfl, hnext]
    · rw [prev_remove, if_pos hnext]
    · intro y hy heq
      cases heq
      exact hzzs hy
    · rintro e _ (rfl | ⟨y, hy, rfl⟩)
      · exact hread z (by simp)
      · exact hread y (by simp [hy])
    · intro y hy
      rw [prev_remove, hnext, if_neg]
      rintro ⟨rfl⟩
      exact hzzs hy
    · obtain rfl | ⟨y, hy, rfl⟩ := hrest.end_mem
      · rw [hread z (by simp), hnull]
      · rw [hread y (by simp [hy]), hnull]

theorem erase_split (hnodup : xs.Nodup) (hx : x ∈ xs) :
    ∃ ys zs, xs = ys ++ x :: zs ∧ xs.erase x = ys ++ zs := by
  obtain ⟨ys, zs, rfl⟩ := append_of_mem hx
  have hxy : x ∉ ys := fun hy => (nodup_append.mp hnodup).2.2 x hy x (by simp) rfl
  refine ⟨ys, zs, rfl, ?_⟩
  rw [erase_append_right _ hxy, erase_cons_head]

theorem Rep.remove (h : q.Rep xs) (hx : x ∈ xs) : (q.remove x).Rep (xs.erase x) := by
  obtain ⟨hnodup, _, hseg, hnull⟩ := h
  obtain ⟨_, _, rfl, herase⟩ := erase_split hnodup hx
  refine ⟨hnodup.erase x, ?_⟩
  rw [herase]
  exact ⟨_, Seg.remove hnodup hseg hnull⟩

variable {q : Links α} {P Q : α → Prop} {x : α}

theorem Holds.insertHead (h : q.Holds P) (hx : ¬ P x) :
    (q.insertHead x).Holds (fun a => a = x ∨ P a) := by
  obtain ⟨xs, hrep, hmem⟩ := h
  refine ⟨x :: xs, hrep.insertHead (fun hin => hx ((hmem x).mp hin)), fun a => ?_⟩
  rw [mem_cons, hmem]

theorem Holds.remove (h : q.Holds P) (hx : P x) : (q.remove x).Holds (fun a => a ≠ x ∧ P a) := by
  obtain ⟨xs, hrep, hmem⟩ := h
  refine ⟨xs.erase x, hrep.remove ((hmem x).mpr hx), fun a => ?_⟩
  rw [hrep.1.mem_erase_iff, hmem]

section Listed

variable [Fintype α] {a : α}

/-- A traversal of the links meets the node. -/
def Listed (q : Links α) (a : α) : Prop :=
  (q.scan (fun x => x = a) (Fintype.card α) q.first).result = some a

instance (q : Links α) (a : α) : Decidable (q.Listed a) :=
  inferInstanceAs (Decidable (_ = _))

theorem Rep.listed_iff {xs : List α} (h : q.Rep xs) : q.Listed a ↔ a ∈ xs := by
  obtain ⟨hnodup, _, hseg, hnull⟩ := h
  have hlen : xs.length ≤ Fintype.card α := hnodup.length_le_card
  have hscan := scan_of_seg (p := fun x => x = a) hseg hnull hlen
  unfold Listed
  rw [show q.first = q.read .head from rfl, hscan]
  cases hfind : xs.find? (fun x => x = a) with
  | none =>
    have hnot : a ∉ xs := fun hin => by simpa using find?_eq_none.mp hfind a hin
    simp [Scan.result, hnot]
  | some b =>
    have hb : b = a := by simpa using find?_some hfind
    have hin : a ∈ xs := hb ▸ mem_of_find?_eq_some hfind
    simp [Scan.result, hb, hin]

theorem Holds.listed_iff (h : q.Holds P) : q.Listed a ↔ P a := by
  obtain ⟨_, hrep, hmem⟩ := h
  exact hrep.listed_iff.trans (hmem a)

end Listed

end Links

/-- A tail queue also keeps the address of the final cell. -/
structure TailQ (α : Type) extends Links α where
  last : Cell α

namespace TailQ

variable {α : Type}

/-- `TAILQ_INIT` on link fields that are zero. -/
def empty : TailQ α := { (Links.empty : Links α) with last := .head }

/-- The queue represents the duplicate-free list `xs`, and its tail pointer
is the address of the final cell. -/
def Rep (q : TailQ α) (xs : List α) : Prop :=
  xs.Nodup ∧ q.toLinks.Seg .head xs q.last ∧ q.toLinks.read q.last = none

variable {q : TailQ α} {xs : List α} {P Q : α → Prop} {x : α}

theorem rep_empty : (empty : TailQ α).Rep [] := ⟨nodup_nil, rfl, rfl⟩

theorem Rep.links (h : q.Rep xs) : q.toLinks.Rep xs :=
  ⟨h.1, q.last, h.2⟩

/-- The queue represents a duplicate-free list of exactly the nodes with
property `P`. -/
def Holds (q : TailQ α) (P : α → Prop) : Prop :=
  ∃ xs, q.Rep xs ∧ ∀ a, a ∈ xs ↔ P a

theorem Holds.congr (h : q.Holds P) (hPQ : ∀ a, P a ↔ Q a) : q.Holds Q := by
  obtain ⟨xs, hrep, hmem⟩ := h
  exact ⟨xs, hrep, fun a => (hmem a).trans (hPQ a)⟩

theorem Holds.links (h : q.Holds P) : q.toLinks.Holds P := by
  obtain ⟨xs, hrep, hmem⟩ := h
  exact ⟨xs, hrep.links, hmem⟩

/-- A node that is linked to itself is on no duplicate-free list. -/
theorem Holds.next_ne (h : q.Holds P) (hx : P x) : q.next x ≠ some x := by
  obtain ⟨xs, hrep, hmem⟩ := h
  exact hrep.2.1.next_ne hrep.1 hrep.2.2 ((hmem x).mpr hx)

variable [DecidableEq α]

/-- `TAILQ_INSERT_HEAD`. -/
def insertHead (q : TailQ α) (x : α) : TailQ α :=
  { q.toLinks.insertHead x with
    last := if q.first = none then .next x else q.last }

/-- `TAILQ_INSERT_TAIL`. -/
def insertTail (q : TailQ α) (x : α) : TailQ α :=
  let links := (q.toLinks.setNext x none).setPrev x q.last
  { links.write q.last (some x) with last := .next x }

/-- `TAILQ_REMOVE`. -/
def remove (q : TailQ α) (x : α) : TailQ α :=
  { q.toLinks.remove x with
    last := if q.next x = none then q.prev x else q.last }

theorem insertTail_eq_link (hnull : q.toLinks.read q.last = none) :
    (q.insertTail x).toLinks = q.toLinks.link q.last x := by
  have hread : (q.toLinks.setNext x none).read q.last = none := by
    cases hlast : q.last with
    | head => rwa [hlast] at hnull
    | next a =>
      rw [hlast] at hnull
      by_cases ha : a = x
      · simp [Links.setNext, Links.read, ha]
      · simpa [Links.setNext, Links.read, ha] using hnull
  simp only [TailQ.insertTail, Links.link, hnull, hread]
  cases q.last <;> rfl

theorem Rep.insertTail (h : q.Rep xs) (hx : x ∉ xs) : (q.insertTail x).Rep (xs ++ [x]) := by
  obtain ⟨hnodup, hseg, hnull⟩ := h
  have hseg' := Links.Seg.link hseg Links.seg_nil hnull (by simpa using hnodup) (by simpa using hx)
  rw [hnull, if_pos rfl, ← insertTail_eq_link hnull] at hseg'
  refine ⟨?_, hseg'⟩
  rw [← concat_eq_append]
  exact hnodup.concat hx

theorem Rep.remove (h : q.Rep xs) (hx : x ∈ xs) : (q.remove x).Rep (xs.erase x) := by
  obtain ⟨hnodup, hseg, hnull⟩ := h
  obtain ⟨_, _, rfl, herase⟩ := Links.erase_split hnodup hx
  refine ⟨hnodup.erase x, ?_⟩
  rw [herase]
  exact Links.Seg.remove hnodup hseg hnull

theorem Rep.insertHead (h : q.Rep xs) (hx : x ∉ xs) : (q.insertHead x).Rep (x :: xs) :=
  ⟨nodup_cons.mpr ⟨hx, h.1⟩, Links.Seg.link Links.seg_nil h.2.1 h.2.2 h.1 hx⟩

theorem Holds.insertHead (h : q.Holds P) (hx : ¬ P x) :
    (q.insertHead x).Holds (fun a => a = x ∨ P a) := by
  obtain ⟨xs, hrep, hmem⟩ := h
  refine ⟨x :: xs, hrep.insertHead (fun hin => hx ((hmem x).mp hin)), fun a => ?_⟩
  rw [mem_cons, hmem]

theorem Holds.insertTail (h : q.Holds P) (hx : ¬ P x) :
    (q.insertTail x).Holds (fun a => a = x ∨ P a) := by
  obtain ⟨xs, hrep, hmem⟩ := h
  refine ⟨xs ++ [x], hrep.insertTail (fun hin => hx ((hmem x).mp hin)), fun a => ?_⟩
  rw [mem_append, mem_singleton, hmem, or_comm]

theorem Holds.remove (h : q.Holds P) (hx : P x) : (q.remove x).Holds (fun a => a ≠ x ∧ P a) := by
  obtain ⟨xs, hrep, hmem⟩ := h
  refine ⟨xs.erase x, hrep.remove ((hmem x).mpr hx), fun a => ?_⟩
  rw [hrep.1.mem_erase_iff, hmem]

end TailQ

end MosSmp.Lib
