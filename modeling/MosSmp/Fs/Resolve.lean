import MosSmp.Fs.Refused

/-!
Path resolution. In a tree whose directories have all their blocks `walk_path`
follows the elements of the path from the root, and slashes count only as
separators. Besides, a page for a block of a directory may be refused; then it
fails like every other walk that misses more than the last element.
-/

namespace MosSmp.Fs

open Lib Prog

variable {s : Server} {kept : Nat → Prop} {v : View} {f g d : FilePtr} {name : Name}
  {pre elems : List Name}

/-- From `f` the elements lead to `g`: each is short enough, is looked up in a
directory and exists there. -/
inductive Resolves (v : View) : FilePtr → List Name → FilePtr → Prop
  | here (f : FilePtr) : Resolves v f [] f
  | next {f g h : FilePtr} {name : Name} {rest : List Name} : name.length < MAXNAMELEN →
      f.type v = FTYPE_DIR → lookup v f name = some g → Resolves v g rest h →
      Resolves v f (name :: rest) h

/-- The elements before the last lead to the directory `d`, and the last is
missing there. -/
structure MissesLast (v : View) (elems : List Name) (d : FilePtr) (name : Name) : Prop where
  parent : ∃ pre, elems = pre ++ [name] ∧ Resolves v .root pre d
  short : name.length < MAXNAMELEN
  isDir : d.type v = FTYPE_DIR
  absent : lookup v d name = none

/-- An element is too long, and those before it exist. -/
def TooLong (v : View) (elems : List Name) : Prop :=
  ∃ pre name post d, elems = pre ++ name :: post ∧ Resolves v .root pre d ∧
    MAXNAMELEN ≤ name.length

/-- The file and its parent, which the root has not. -/
def Located (v : View) (elems : List Name) (r : WalkResult) : Prop :=
  ∃ g, Resolves v .root elems g ∧ r.pfile = some g ∧
    (elems = [] ∧ r.pdir = none ∨
      ∃ pre name d, elems = pre ++ [name] ∧ Resolves v .root pre d ∧ r.pdir = some d)

/-- What `walk_path` is to return for the elements. -/
structure Resolution (v : View) (elems : List Name) (r : WalkResult) : Prop where
  found : r.result = .ok () ↔ ∃ g, Resolves v .root elems g
  located : r.result = .ok () → Located v elems r
  tooLong : r.result = .error .badPath ↔ TooLong v elems
  missing : ∀ d name, MissesLast v elems d name → r = .missing d name
  others : r.result ≠ .ok () → (∀ d name, ¬ MissesLast v elems d name) →
    r.pdir = none ∧ r.pfile = none

/-- Elements that exist lead the walk on. -/
theorem Resolves.resultOf_append (h : Resolves v f pre d) (dir : Option FilePtr)
    (post : List Name) :
    ∃ dir', resultOf v f dir (pre ++ post) = resultOf v d dir' post ∧ (pre = [] ∧ dir' = dir ∨
        ∃ before name e, pre = before ++ [name] ∧ Resolves v f before e ∧ dir' = some e) := by
  induction h generalizing dir with
  | here => exact ⟨dir, rfl, .inl ⟨rfl, rfl⟩⟩
  | @next f g h name rest hlen ht hg hrest ih =>
    obtain ⟨dir', heq, hdir⟩ := ih (some f)
    refine ⟨dir', ?_, .inr ?_⟩
    · rw [List.cons_append, resultOf, if_neg (Nat.not_le.mpr hlen), if_neg (not_not.mpr ht), hg]
      exact heq
    · rcases hdir with ⟨rfl, rfl⟩ | ⟨before, last, e, rfl, hbefore, rfl⟩
      · exact ⟨[], name, f, rfl, .here f, rfl⟩
      · exact ⟨name :: before, last, e, rfl, .next hlen ht hg hbefore, rfl⟩

/-- Where the walk from `f` ends: everything exists, or an element is the first
with a fault. -/
theorem resolves_or_stuck (v : View) (f : FilePtr) (elems : List Name) :
    (∃ g, Resolves v f elems g) ∨
    ∃ pre name post d, elems = pre ++ name :: post ∧ Resolves v f pre d ∧
      (MAXNAMELEN ≤ name.length ∨ name.length < MAXNAMELEN ∧
        (d.type v ≠ FTYPE_DIR ∨ d.type v = FTYPE_DIR ∧ lookup v d name = none)) := by
  induction elems generalizing f with
  | nil => exact .inl ⟨f, .here f⟩
  | cons name rest ih =>
    by_cases hlen : MAXNAMELEN ≤ name.length
    · exact .inr ⟨[], name, rest, f, rfl, .here f, .inl hlen⟩
    have hshort := Nat.not_le.mp hlen
    by_cases ht : f.type v = FTYPE_DIR
    · cases hg : lookup v f name with
      | none => exact .inr ⟨[], name, rest, f, rfl, .here f, .inr ⟨hshort, .inr ⟨ht, hg⟩⟩⟩
      | some g =>
        rcases ih g with ⟨h, hres⟩ | ⟨pre, last, post, d, rfl, hres, hfault⟩
        · exact .inl ⟨h, .next hshort ht hg hres⟩
        · exact .inr ⟨name :: pre, last, post, d, rfl, .next hshort ht hg hres, hfault⟩
    · exact .inr ⟨[], name, rest, f, rfl, .here f, .inr ⟨hshort, .inl ht⟩⟩

theorem Resolves.located (h : Resolves v .root elems g) :
    (resultOf v .root none elems).result = .ok () ∧
      Located v elems (resultOf v .root none elems) := by
  obtain ⟨_, heq, hdir⟩ := h.resultOf_append none []
  rw [List.append_nil] at heq
  rw [heq]
  exact ⟨rfl, g, h, rfl, hdir⟩

theorem TooLong.refused (h : TooLong v elems) :
    resultOf v .root none elems = .refused .badPath := by
  obtain ⟨_, name, post, _, rfl, hres, hlen⟩ := h
  obtain ⟨_, heq, _⟩ := hres.resultOf_append none (name :: post)
  rw [heq, resultOf, if_pos hlen]

theorem MissesLast.missing (h : MissesLast v elems d name) :
    resultOf v .root none elems = .missing d name := by
  obtain ⟨_, rfl, hres⟩ := h.parent
  obtain ⟨_, heq, _⟩ := hres.resultOf_append none [name]
  rw [heq, resultOf, if_neg (Nat.not_le.mpr h.short), if_neg (not_not.mpr h.isDir), h.absent,
    if_pos rfl]

/-- The four ends of a walk from the root. -/
theorem resultOf_ends (v : View) (elems : List Name) :
    (∃ g, Resolves v .root elems g) ∨ TooLong v elems ∨ (∃ d name, MissesLast v elems d name) ∨
      resultOf v .root none elems = .refused .notFound := by
  rcases resolves_or_stuck v .root elems with
    hall | ⟨pre, name, post, d, rfl, hres, hlen | ⟨hlen, hfault⟩⟩
  · exact .inl hall
  · exact .inr (.inl ⟨pre, name, post, d, rfl, hres, hlen⟩)
  obtain ⟨_, heq, _⟩ := hres.resultOf_append none (name :: post)
  rw [resultOf, if_neg (Nat.not_le.mpr hlen)] at heq
  rcases hfault with ht | ⟨ht, hnone⟩
  · rw [if_pos ht] at heq
    exact .inr (.inr (.inr heq))
  · rw [if_neg (not_not.mpr ht), hnone] at heq
    by_cases hpost : post = []
    · subst hpost
      exact .inr (.inr (.inl ⟨d, name, ⟨pre, rfl, hres⟩, hlen, ht, hnone⟩))
    · rw [if_neg hpost] at heq
      exact .inr (.inr (.inr heq))

theorem resolves_of_ok (h : (resultOf v .root none elems).result = .ok ()) :
    ∃ g, Resolves v .root elems g := by
  rcases resultOf_ends v elems with hall | hlong | ⟨_, _, hmiss⟩ | hnot
  · exact hall
  · rw [hlong.refused] at h
    cases h
  · rw [hmiss.missing] at h
    cases h
  · rw [hnot] at h
    cases h

theorem tooLong_of_badPath (h : (resultOf v .root none elems).result = .error .badPath) :
    TooLong v elems := by
  rcases resultOf_ends v elems with ⟨_, hall⟩ | hlong | ⟨_, _, hmiss⟩ | hnot
  · cases hall.located.1.symm.trans h
  · exact hlong
  · rw [hmiss.missing] at h
    cases h
  · rw [hnot] at h
    cases h

theorem resolution_resultOf (v : View) (elems : List Name) :
    Resolution v elems (resultOf v .root none elems) where
  found := ⟨resolves_of_ok, fun ⟨_, hall⟩ => hall.located.1⟩
  located h := (resolves_of_ok h).choose_spec.located.2
  tooLong := ⟨tooLong_of_badPath, fun hlong => by rw [hlong.refused]; rfl⟩
  missing _ _ hmiss := hmiss.missing
  others hne hno := by
    rcases resultOf_ends v elems with ⟨_, hall⟩ | hlong | ⟨d, name, hmiss⟩ | hnot
    · exact absurd hall.located.1 hne
    · rw [hlong.refused]
      exact ⟨rfl, rfl⟩
    · exact absurd hmiss (hno d name)
    · rw [hnot]
      exact ⟨rfl, rfl⟩

/-- `walk_path` is the fold of `dir_lookup`, it ends as the tree says unless a page
is refused, and slashes more or less do not change it. -/
theorem walkPath_resolution (hs : Sound s kept) (hholes : NoHoles s.view) (path : List Byte) :
    Cursor.walkPath path = walkElems .root none (elements path) ∧
    (∃ r t, Cursor.walkPath path s = .ok (.ok r, t) ∧
      (Resolution s.view (elements path) r ∨ r = .refused .noMem ∧ ¬ ∀ n, s.mem n = true)) ∧
    Cursor.walkPath (47 :: path) = Cursor.walkPath path ∧
    Cursor.walkPath (path ++ [47]) = Cursor.walkPath path ∧
    ∀ a b, path = a ++ 47 :: b → Cursor.walkPath (a ++ 47 :: 47 :: b) = Cursor.walkPath path := by
  refine ⟨Cursor.walkPath_eq path, ?_, ?_, ?_, ?_⟩
  · rw [Cursor.walkPath_eq]
    have hwalk := walkElems_result (E := fun _ => False) hs hholes
      ⟨reach_root _, hs.super, fun h => absurd rfl h⟩ none _ (elements_ok path)
    obtain ⟨r, t, hrun⟩ := hwalk.returns
    refine ⟨r, t, hrun, ?_⟩
    rcases (hwalk.value hrun).2 with ⟨rfl, _⟩ | hno
    · exact .inl (resolution_resultOf _ _)
    · exact .inr hno
  · rw [Cursor.walkPath_eq, elements_cons_slash, Cursor.walkPath_eq]
  · rw [Cursor.walkPath_eq, elements_slash, Cursor.walkPath_eq]
    split
    · rfl
    · rw [show elements [] = [] from rfl, List.append_nil]
  · rintro a b rfl
    rw [Cursor.walkPath_eq, elements_slash, elements_cons_slash, ← elements_slash,
      Cursor.walkPath_eq]

/-- The directory `/d` is found if there is a page for the block of the root. -/
theorem walkPath_resolution_found : ∃ r t, Cursor.walkPath [47, 100] (mountedD.entered enough) =
      .ok (.ok r, t) ∧ Located mountedD.view (elements [47, 100]) r := by
  have hsound := ((running_of_legal (.init mountD_init)).served enough).after.sound
  have hfound : lookup mountedD.view .root [100] = some fileA := by decide +kernel
  obtain ⟨r, t, hrun, hres | ⟨_, hno⟩⟩ :=
    (walkPath_resolution hsound onlyD_mounted.noHoles [47, 100]).2.1
  · exact ⟨r, t, hrun, hres.located (hres.found.mpr
      ⟨fileA, .next (by decide) (by decide +kernel) hfound (.here _)⟩)⟩
  · exact absurd (fun _ => rfl) hno

/-- The directory `/d` exists and the root has its block, but with no page for the
block `walk_path` fails. -/
theorem walkPath_noPage : ∃ t, (server Formatted).Reachable mountedD ∧
      (∀ i, i < FilePtr.root.nblock mountedD.view → FilePtr.root.slot mountedD.view i ≠ 0) ∧
      Resolves mountedD.view .root (elements [100]) fileA ∧
      Cursor.walkPath [100] (mountedD.entered exhausted) = .ok (.ok (.refused .noMem), t) := by
  have hfound : lookup mountedD.view .root [100] = some fileA := by decide +kernel
  have hruns : (walkElems .root none (elements [100])).yields
      (fun r _ => decide (r = .refused .noMem)) (mountedD.entered exhausted) = true := by
    decide +kernel
  obtain ⟨r, t, hrun, hr⟩ := exists_of_yields hruns
  obtain rfl := of_decide_eq_true hr
  rw [Cursor.walkPath_eq]
  exact ⟨t, .init mountD_init, by decide +kernel,
    .next (by decide) (by decide +kernel) hfound (.here _), hrun⟩

end MosSmp.Fs
