import MosSmp.Lib.Queue

/-!
The list and queue macros of `include/queue.h` on a heap with several lists. A
head other than the one an operation is applied to is a cell like any other: the
next pointer of a node that is on no list. So `ListAt q c us` says that the list
`us` hangs from the head at `c`.
-/

namespace MosSmp

open Lib Links List

variable {α : Type} [DecidableEq α] {q q' : Links α} {xs : List α} {x a : α} {m : Cell α}

/-- The list `us` hangs from the head at `c`. -/
def ListAt (q : Links α) (c : Cell α) (us : List α) : Prop :=
  us.Nodup ∧ (∀ u ∈ us, c ≠ .next u) ∧ ∃ d, q.Seg c us d ∧ q.read d = none

/-- Another list of the heap: its head is no cell of the list with these nodes. -/
def Other (q : Links α) (nodes : List α) (c : Cell α) (us : List α) : Prop :=
  c ≠ .head ∧ (∀ y ∈ nodes, c ≠ .next y) ∧ ListAt q c us

def OthersKept (q q' : Links α) (nodes : List α) : Prop :=
  ∀ c us, Other q nodes c us → ListAt q' c us

/-- The node `x` is on no list but possibly `xs`. -/
def Unlisted (q : Links α) (xs : List α) (x : α) : Prop :=
  ∀ c us, Other q (x :: xs) c us → x ∉ us

omit [DecidableEq α] in
/-- Two segments from different heads do not meet: going back from a common end
through the back pointers would lead to a common start. -/
theorem seg_apart {c : Cell α} {ys us : List α} (hys : q.Seg .head ys m) (hus : q.Seg c us m)
    (hhead : c ≠ .head) (hc : ∀ y ∈ ys, c ≠ .next y) : False := by
  induction ys using reverseRecOn generalizing us m with
  | nil =>
    cases hys
    obtain h | ⟨_, _, h⟩ := hus.end_mem
    · exact hhead h.symm
    · cases h
  | append_singleton ys y ih =>
    obtain ⟨_, hys', _, rfl, rfl⟩ := seg_append.mp hys
    cases us using reverseRecOn with
    | nil => exact hc y (by simp) hus
    | append_singleton us u =>
      obtain ⟨_, hus', _, rfl, heq⟩ := seg_append.mp hus
      cases heq
      exact ih hys' hus' fun z hz => hc z (by simp [hz])

omit [DecidableEq α] in
theorem Other.disjoint {c : Cell α} {us : List α} (h : Other q xs c us) (hrep : q.Rep xs) :
    us.Disjoint xs := by
  obtain ⟨hhead, hc, _, _, _, hus, _⟩ := h
  obtain ⟨_, _, hxs, _⟩ := hrep
  intro y hy hx
  obtain ⟨ys, zs, rfl⟩ := append_of_mem hx
  obtain ⟨us, vs, rfl⟩ := append_of_mem hy
  obtain ⟨_, hys, _, hprev, _⟩ := seg_append.mp hxs
  obtain ⟨_, hus, _, hu, _⟩ := seg_append.mp hus
  rw [← hu, hprev] at hus
  exact seg_apart hys hus hhead fun z hz => hc z (mem_append_left _ hz)

omit [DecidableEq α] in
/-- The operation writes to the cells of `xs` and of the head, and to the back
pointers of `xs`. -/
theorem othersKept_of (hread : ∀ e, e ≠ .head → (∀ y ∈ xs, e ≠ .next y) → q'.read e = q.read e)
    (hprev : ∀ y, y ∉ xs → q'.prev y = q.prev y)
    (hdisj : ∀ c us, Other q xs c us → us.Disjoint xs) : OthersKept q q' xs := by
  intro c us h
  have hus := hdisj c us h
  obtain ⟨hhead, hc, hnodup, hstart, d, hseg, hnull⟩ := h
  have hcell : ∀ e, e = c ∨ (∃ u ∈ us, e = .next u) → q'.read e = q.read e := by
    rintro e (rfl | ⟨u, hu, rfl⟩)
    · exact hread _ hhead hc
    · refine hread _ nofun fun y hy heq => ?_
      cases heq
      exact hus hu hy
  refine ⟨hnodup, hstart, d, hseg.congr hnodup hstart (fun e _ he => hcell e he)
    (fun u hu => hprev u (hus hu)), ?_⟩
  rw [hcell d hseg.end_mem, hnull]

section Linked

variable {ys zs : List α} {d : Cell α}

omit [DecidableEq α] in
theorem ne_end {e : Cell α} (hys : q.Seg .head ys m) (hhead : e ≠ .head)
    (he : ∀ y ∈ ys, e ≠ .next y) : e ≠ m := by
  rintro rfl
  obtain hm | ⟨y, hy, hm⟩ := hys.end_mem
  · exact hhead hm
  · exact he y hy hm

theorem othersKept_linked (hys : q.Seg .head ys m) (hzs : q.Seg m zs d)
    (hnull : q.read d = none) (hnodup : (ys ++ zs).Nodup) (hx : x ∉ ys ++ zs)
    (hfree : Unlisted q (ys ++ zs) x) : OthersKept q (q.link m x) (x :: (ys ++ zs)) := by
  refine othersKept_of (fun e hhead he => ?_) (fun y hy => ?_) (fun c us h => ?_)
  · rw [read_link, if_neg (ne_end hys hhead fun y hy => he y (by simp [hy])),
      if_neg (he x mem_cons_self)]
  · rw [mem_cons, not_or] at hy
    rw [prev_link (hys.end_ne fun hin => hx (mem_append_left zs hin)), if_neg hy.1, if_neg]
    exact fun hf => hy.2 (mem_append_right ys (hzs.first_mem hnull hf))
  · have hrest : Other q (ys ++ zs) c us := ⟨h.1, fun y hy => h.2.1 y (by simp [hy]), h.2.2⟩
    exact disjoint_cons_right.mpr ⟨hfree c us h,
      hrest.disjoint ⟨hnodup, d, seg_append.mpr ⟨m, hys, hzs⟩, hnull⟩⟩

/-- The list with `x` linked in between its two parts. -/
theorem rep_linked (hnodup : (ys ++ zs).Nodup) (hys : q.Seg .head ys m) (hzs : q.Seg m zs d)
    (hnull : q.read d = none) (hx : x ∉ ys ++ zs) : (q.link m x).Rep (ys ++ x :: zs) ∧
      (Unlisted q (ys ++ zs) x → OthersKept q (q.link m x) (x :: (ys ++ zs))) :=
  ⟨⟨nodup_middle.mpr (nodup_cons.mpr ⟨hx, hnodup⟩), _,
    Seg.link hys hzs hnull hnodup hx⟩, othersKept_linked hys hzs hnull hnodup hx⟩

theorem rep_insertAfter (h : q.Rep (ys ++ a :: zs)) (hx : x ∉ ys ++ a :: zs) :
    (q.insertAfter a x).Rep (ys ++ a :: x :: zs) ∧
      (Unlisted q (ys ++ a :: zs) x →
        OthersKept q (q.insertAfter a x) (x :: (ys ++ a :: zs))) := by
  obtain ⟨hnodup, d, hseg, hnull⟩ := h
  rw [append_cons] at hnodup hseg hx ⊢
  obtain ⟨m, hys, hzs⟩ := seg_append.mp hseg
  obtain ⟨_, _, _, _, rfl⟩ := seg_append.mp hys
  have ha : a ≠ x := by
    rintro rfl
    simp at hx
  rw [insertAfter_eq_link ha]
  simpa using rep_linked hnodup hys hzs hnull hx

theorem rep_insertBefore (h : q.Rep (ys ++ a :: zs)) (hx : x ∉ ys ++ a :: zs) :
    (q.insertBefore a x).Rep (ys ++ x :: a :: zs) ∧
      (Unlisted q (ys ++ a :: zs) x →
        OthersKept q (q.insertBefore a x) (x :: (ys ++ a :: zs))) := by
  obtain ⟨hnodup, d, hseg, hnull⟩ := h
  obtain ⟨_, hys, hzs⟩ := seg_append.mp hseg
  obtain ⟨hread, rfl, _⟩ := id hzs
  have ha : a ≠ x := by
    rintro rfl
    simp at hx
  rw [insertBefore_eq_link ha hread (hys.end_ne fun hin => hx (mem_append_left _ hin))]
  exact rep_linked hnodup hys hzs hnull hx

theorem othersKept_remove (hrep : q.Rep (ys ++ x :: zs)) :
    OthersKept q (q.remove x) (ys ++ x :: zs) := by
  obtain ⟨_, d, hseg, hnull⟩ := id hrep
  obtain ⟨_, hys, _, rfl, hzs⟩ := seg_append.mp hseg
  refine othersKept_of (fun e hhead he => ?_) (fun y hy => ?_) (fun _ _ h => h.disjoint hrep)
  · rw [read_remove, if_neg (ne_end hys hhead fun y hy => he y (mem_append_left _ hy))]
  · rw [prev_remove, if_neg]
    intro hf
    exact hy (mem_append_right ys (mem_cons_of_mem x (hzs.first_mem hnull hf)))

end Linked

/-- The macros implement the operations on duplicate-free sequences and leave
every other list of the heap alone, as long as the node that an insertion links
in is not on one. -/
theorem queues_sequences (q : Links α) (t : TailQ α) (xs : List α) : (q.Rep xs →
      (∀ x, x ∉ xs → (q.insertHead x).Rep (x :: xs) ∧
        (Unlisted q xs x → OthersKept q (q.insertHead x) (x :: xs))) ∧
      (∀ ys a zs x, xs = ys ++ a :: zs → x ∉ xs → ((q.insertAfter a x).Rep (ys ++ a :: x :: zs) ∧
          (Unlisted q xs x → OthersKept q (q.insertAfter a x) (x :: xs))) ∧
        (q.insertBefore a x).Rep (ys ++ x :: a :: zs) ∧
          (Unlisted q xs x → OthersKept q (q.insertBefore a x) (x :: xs))) ∧
      ∀ x ∈ xs, (q.remove x).Rep (xs.erase x) ∧ OthersKept q (q.remove x) xs) ∧
    (t.Rep xs → (∀ x, x ∉ xs → ((t.insertHead x).Rep (x :: xs) ∧
          (Unlisted t.toLinks xs x → OthersKept t.toLinks (t.insertHead x).toLinks (x :: xs))) ∧
        (t.insertTail x).Rep (xs ++ [x]) ∧
          (Unlisted t.toLinks xs x → OthersKept t.toLinks (t.insertTail x).toLinks (x :: xs))) ∧
      ∀ x ∈ xs, (t.remove x).Rep (xs.erase x) ∧ OthersKept t.toLinks (t.remove x).toLinks xs) := by
  constructor
  · intro h
    obtain ⟨hnodup, d, hseg, hnull⟩ := id h
    refine ⟨fun x hx => ⟨h.insertHead hx, othersKept_linked seg_nil hseg hnull hnodup hx⟩, ?_,
      fun x hx => ⟨h.remove hx, ?_⟩⟩
    · rintro ys a zs x rfl hx
      exact ⟨rep_insertAfter h hx, rep_insertBefore h hx⟩
    · obtain ⟨ys, zs, rfl, _⟩ := erase_split hnodup hx
      exact othersKept_remove h
  · intro h
    obtain ⟨hnodup, hseg, hnull⟩ := id h
    refine ⟨fun x hx => ⟨⟨h.insertHead hx, othersKept_linked seg_nil hseg hnull hnodup hx⟩,
      h.insertTail hx, ?_⟩, fun x hx => ⟨h.remove hx, ?_⟩⟩
    · rw [TailQ.insertTail_eq_link hnull]
      simpa using othersKept_linked hseg seg_nil hnull (by simpa using hnodup) (by simpa using hx)
    · obtain ⟨ys, zs, rfl, _⟩ := erase_split hnodup hx
      exact othersKept_remove h.links

/-- Two nodes of an empty list. -/
theorem queues_sequences_pair :
    (((Links.empty : Links Bool).insertHead true).insertAfter true false).Rep [true, false] :=
  (((queues_sequences _ TailQ.empty [true]).1 (rep_empty.insertHead (by simp))).2.1 [] true [] false
    rfl (by decide)).1.1

/-- A node that hangs from another head is inserted into an empty list: its back
pointer leaves the other list. -/
theorem insertHead_unhooks : ∃ q : Links Bool, q.Rep [] ∧ Other q [false] (.next true) [false] ∧
    ¬ ListAt (q.insertHead false) (.next true) [false] := by
  refine ⟨⟨none, fun a => if a then some false else none, fun _ => .next true⟩,
    ⟨nodup_nil, .head, rfl, rfl⟩,
    ⟨nofun, by simp, by simp, by simp, .next false, ⟨rfl, rfl, rfl⟩, rfl⟩, ?_⟩
  rintro ⟨_, _, _, ⟨_, hprev, _⟩, _⟩
  exact absurd hprev (by decide)

end MosSmp
