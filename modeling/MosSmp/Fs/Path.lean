import Mathlib.Data.List.TakeWhile
import MosSmp.Fs.File

/-!
`walk_path` with its cursor. The path is a list of bytes that ends at the first
NUL or with the list; `path` moves over it, past the slashes and over one
element at a time, and the results go to `*pdir`, `*pfile` and `lastelem`.
Whatever the tree, that is the fold of `dir_lookup` over the non-empty elements
of the path.
-/

namespace MosSmp.Fs

open Lib Prog List

/-- What `walk_path` returns and what it leaves in `*pdir`, `*pfile` and, if it
writes there, `lastelem`. -/
structure WalkResult where
  result : Except FsErr Unit
  pdir : Option FilePtr
  pfile : Option FilePtr
  lastelem : Option Name
  deriving DecidableEq

def WalkResult.refused (e : FsErr) : WalkResult :=
  ⟨.error e, none, none, none⟩

def WalkResult.missing (dir : FilePtr) (name : Name) : WalkResult :=
  ⟨.error .notFound, some dir, none, some name⟩

/-- What a caller makes of the outcome. -/
def WalkResult.walk : WalkResult → Walk
  | ⟨.ok _, _, some file, _⟩ => .found file
  | ⟨.ok _, _, none, _⟩ => .failed .notFound
  | ⟨.error _, some dir, _, some name⟩ => .missing dir name
  | ⟨.error e, _, _, _⟩ => .failed e

/-- The fold of `dir_lookup` over a list of elements; `dir` is where `file` was
found. -/
def walkElems (file : FilePtr) (dir : Option FilePtr) : List Name → FsProg WalkResult
  | [] => pure ⟨.ok (), dir, some file, none⟩
  | name :: rest => do
    if MAXNAMELEN ≤ name.length then pure (.refused .badPath)
    else
      let type ← load file.fType
      if type ≠ FTYPE_DIR then pure (.refused .notFound)
      else
        match ← attempt (dirLookup file name) with
        | .ok f => walkElems f (some file) rest
        | .error e =>
          if e = .notFound ∧ rest = [] then pure (.missing file name) else pure (.refused e)

def skipSlash (p : List Byte) : List Byte :=
  p.dropWhile (· = 47)

/-- The condition of the inner loop of `walk_path`. -/
def inElement (b : Byte) : Bool :=
  b ≠ 47 && b ≠ 0

theorem length_skipSlash (p : List Byte) : (skipSlash p).length ≤ p.length :=
  (dropWhile_sublist _).length_le

/-- Every round of the loop moves the cursor. -/
theorem length_next {path : List Byte} (h : path.headD 0 ≠ 0) :
    (skipSlash (path.dropWhile inElement)).length < path.length := by
  cases path with
  | nil => exact absurd rfl h
  | cons b rest =>
    by_cases hb : b = 47
    · have hskip : skipSlash ((b :: rest).dropWhile inElement) = skipSlash rest := by
        simp [hb, inElement, skipSlash]
      rw [hskip]
      exact Nat.lt_succ_of_le (length_skipSlash rest)
    · have hin : inElement b = true := by
        simp only [headD_cons] at h
        simp [inElement, hb, h]
      rw [dropWhile_cons_of_pos hin]
      exact Nat.lt_succ_of_le ((length_skipSlash _).trans (dropWhile_sublist _).length_le)

namespace Cursor

/-- The outer loop of `walk_path`. -/
def walkLoop (file : FilePtr) (dir : Option FilePtr) (path : List Byte) : FsProg WalkResult := do
  if path.headD 0 = 0 then pure ⟨.ok (), dir, some file, none⟩
  else
    let name := path.takeWhile inElement
    if MAXNAMELEN ≤ name.length then pure (.refused .badPath)
    else
      let path' := skipSlash (path.dropWhile inElement)
      let type ← load file.fType
      if type ≠ FTYPE_DIR then pure (.refused .notFound)
      else
        match ← attempt (dirLookup file name) with
        | .ok f => walkLoop f (some file) path'
        | .error e =>
          if e = .notFound ∧ path'.headD 0 = 0 then pure (.missing file name)
          else pure (.refused e)
termination_by path.length
decreasing_by exact length_next (by assumption)

def walkPath (path : List Byte) : FsProg WalkResult :=
  walkLoop .root none (skipSlash path)

end Cursor

/-! ### The elements of a path -/

theorem takeWhile_of_not_mem {xs : List Byte} (h : 0 ∉ xs) (ys : List Byte) :
    (xs ++ ys).takeWhile (· ≠ 0) = xs ++ ys.takeWhile (· ≠ 0) :=
  takeWhile_append_of_pos (fun _ hb => decide_eq_true (fun hzero => h (hzero ▸ hb)))

/-- A slash separates the elements before it from those after it, unless the path
has ended before. -/
theorem elements_slash (xs ys : List Byte) :
    elements (xs ++ 47 :: ys) = if 0 ∈ xs then elements xs else elements xs ++ elements ys := by
  unfold elements
  split
  · next h =>
    have hshort : ¬ (xs.takeWhile (· ≠ 0)).length = xs.length := by
      intro hlen
      have hall := takeWhile_eq_self_iff.mp ((List.takeWhile_prefix _).eq_of_length hlen)
      exact of_decide_eq_true (hall 0 h) rfl
    rw [takeWhile_append, if_neg hshort]
  · next h =>
    have hxs := takeWhile_of_not_mem h []
    rw [append_nil, takeWhile_nil, append_nil] at hxs
    rw [takeWhile_of_not_mem h, hxs, takeWhile_cons_of_pos (by decide),
      splitOn_eq_splitOnP, splitOnP_append_cons _ _ (by decide), filter_append]
    rfl

theorem elements_cons_slash (p : List Byte) : elements (47 :: p) = elements p := elements_slash [] p

theorem elements_skipSlash (p : List Byte) : elements (skipSlash p) = elements p := by
  induction p with
  | nil => rfl
  | cons b rest ih =>
    by_cases hb : b = 47
    · rw [hb, elements_cons_slash, ← ih]
      rfl
    · rw [skipSlash, dropWhile_cons_of_neg (by simpa using hb)]

theorem elements_of_end {p : List Byte} (h : p.headD 0 = 0) : elements p = [] := by
  cases p with
  | nil => rfl
  | cons =>
    simp only [headD_cons] at h
    rw [h]
    rfl

theorem elements_single {name : Name} (hne : name ≠ [])
    (h : ∀ b ∈ name, inElement b = true) : elements name = [name] := by
  have hzero : 0 ∉ name := fun hb => absurd (h 0 hb) (by decide)
  have hsplit : name.splitOn 47 = [name] := by
    apply splitOnP_eq_singleton
    intro b hb
    have hin := h b hb
    simp only [inElement, Bool.and_eq_true, decide_eq_true_eq] at hin
    exact beq_eq_false_iff_ne.mpr hin.1
  have hall := takeWhile_of_not_mem hzero []
  rw [append_nil, takeWhile_nil, append_nil] at hall
  rw [elements, hall, hsplit, filter_cons_of_pos (by simpa using hne), filter_nil]

/-- The inner loop runs over the first element. -/
theorem elements_next {p : List Byte} (hend : p.headD 0 ≠ 0) (hslash : p.headD 0 ≠ 47) :
    elements p = p.takeWhile inElement :: elements (p.dropWhile inElement) := by
  have hname : ∀ b ∈ p.takeWhile inElement, inElement b = true :=
    fun b hb => all_eq_true.mp all_takeWhile b hb
  have hzero : 0 ∉ p.takeWhile inElement := fun hb => absurd (hname 0 hb) (by decide)
  have hne : p.takeWhile inElement ≠ [] := by
    cases p with
    | nil => exact absurd rfl hend
    | cons =>
      simp only [headD_cons] at hend hslash
      rw [takeWhile_cons_of_pos (by simp [inElement, hend, hslash])]
      exact cons_ne_nil _ _
  have hsingle := elements_single hne hname
  have hsplit := takeWhile_append_dropWhile (p := inElement) (l := p)
  have hhead := head?_dropWhile_not inElement p
  cases hrest : p.dropWhile inElement with
  | nil =>
    rw [hrest, append_nil] at hsplit
    rw [hsplit] at hsingle ⊢
    exact hsingle
  | cons b rest =>
    rw [hrest] at hsplit hhead
    have hb : b = 47 ∨ b = 0 := by
      by_contra hno
      rw [not_or] at hno
      simp [inElement, hno] at hhead
    rcases hb with rfl | rfl
    · have hcut := elements_slash (p.takeWhile inElement) rest
      rw [hsplit, if_neg hzero, hsingle] at hcut
      rw [hcut, elements_cons_slash]
      rfl
    · have hcut := takeWhile_of_not_mem hzero (0 :: rest)
      rw [hsplit, takeWhile_cons_of_neg (by simp), ← takeWhile_nil,
        ← takeWhile_of_not_mem hzero, append_nil] at hcut
      have hsame : elements p = elements (p.takeWhile inElement) := by
        rw [elements, hcut]
        rfl
      rw [hsame, hsingle]
      rfl

theorem headD_skipSlash (p : List Byte) : (skipSlash p).headD 0 ≠ 47 := by
  have hhead := head?_dropWhile_not (fun b : Byte => decide (b = 47)) p
  unfold skipSlash
  cases hp : p.dropWhile (fun b => decide (b = 47)) with
  | nil => decide
  | cons =>
    rw [hp] at hhead
    simpa using hhead

/-- At the end of the path there are no more elements, and only there. -/
theorem elements_skipSlash_eq_nil (p : List Byte) :
    elements p = [] ↔ (skipSlash p).headD 0 = 0 := by
  rw [← elements_skipSlash]
  constructor
  · intro h
    by_contra hend
    rw [elements_next hend (headD_skipSlash p)] at h
    cases h
  · exact elements_of_end

/-! ### The loop is the fold -/

theorem walkLoop_eq (file : FilePtr) (dir : Option FilePtr) (path : List Byte)
    (hslash : path.headD 0 ≠ 47) :
    Cursor.walkLoop file dir path = walkElems file dir (elements path) := by
  induction path using (measure length).wf.induction generalizing file dir with
  | _ path ih =>
    rw [Cursor.walkLoop]
    by_cases hend : path.headD 0 = 0
    · rw [if_pos hend, elements_of_end hend]
      rfl
    · rw [if_neg hend, elements_next hend hslash, walkElems]
      refine if_congr Iff.rfl rfl (congrArg (bind _) (funext fun type => ?_))
      refine if_congr Iff.rfl rfl (congrArg (bind _) (funext fun r => ?_))
      cases r with
      | error =>
        exact if_congr (and_congr_right' (elements_skipSlash_eq_nil _).symm) rfl rfl
      | ok f =>
        rw [← elements_skipSlash (path.dropWhile inElement)]
        exact ih _ (length_next hend) f (some file) (headD_skipSlash _)

/-- `walk_path` folds `dir_lookup` over the elements of the path. -/
theorem Cursor.walkPath_eq (path : List Byte) :
    Cursor.walkPath path = walkElems .root none (elements path) := by
  rw [Cursor.walkPath, walkLoop_eq _ _ _ (headD_skipSlash path), elements_skipSlash]

/-- What the callers see is the fold of the file operations. -/
theorem walkFrom_eq (file : FilePtr) (dir : Option FilePtr) (elems : List Name) :
    walkFrom file elems = walkElems file dir elems >>= fun r => pure r.walk := by
  induction elems generalizing file dir with
  | nil => rfl
  | cons name rest ih =>
    rw [walkFrom, walkElems, ite_bind, bind_bind]
    refine if_congr Iff.rfl rfl (congrArg (bind _) (funext fun type => ?_))
    rw [ite_bind, bind_bind]
    refine if_congr Iff.rfl rfl (congrArg (bind _) (funext fun r => ?_))
    cases r with
    | ok f => exact ih f (some file)
    | error =>
      rw [ite_bind]
      rfl

end MosSmp.Fs
