import MosSmp.Elf.Spawn

/-!
A segment loaded by the kernel and the same segment loaded by `spawn`. The
loader makes the same calls whatever the mapper is, so two mappers that agree
call by call agree on the whole segment. The flag of the relation says whether
a call with a source has been made.
-/

namespace MosSmp.Elf

open Lib Lib.Prog Function Option Nat

/-- Every address that the loader passes to the mapper is a user address. -/
def Phdr.InUser (ph : Phdr) : Prop :=
  ∀ a, ph.offset ≠ 0 ∧ a = ph.pVaddr.toNat ∨
      ph.pVaddr.toNat ≤ a ∧ a < ph.pVaddr.toNat + max ph.pFilesz.toNat ph.pMemsz.toNat →
    UTEMP.toNat ≤ a ∧ a < UTOP.toNat

/-- Some byte of the segment comes from the binary, or its first page does. -/
def Phdr.copies (ph : Phdr) : Bool :=
  decide (ph.offset ≠ 0) || decide (0 < ph.pFilesz.toNat)

section Lockstep

variable {σ τ : Type} {mapPage : Mapper Err σ} {mapPage' : Mapper Err τ} {ph : Phdr}
  {R : Bool → σ → τ → Prop} {E : Halt → Prop} {X : Err → σ → Prop} {s : σ} {t : τ} {b : Bool}

/-- One call of the first mapper is one call of the second. -/
def Agree (ph : Phdr) (mapPage : Mapper Err σ) (mapPage' : Mapper Err τ)
    (R : Bool → σ → τ → Prop) (E : Halt → Prop) (X : Err → σ → Prop) : Prop :=
  ∀ b va offset perm src len s t, UserCall ph va offset perm len → R b s t →
    wp (mapPage va offset perm src len) E X (fun _ s' => ∃ t',
      mapPage' va offset perm src len t = .ok (.ok (), t') ∧ R (b || src.isSome) s' t') s

section

variable (h : ph.InUser)
include h

theorem Phdr.InUser.index {i : Nat} (hi : i < max ph.pFilesz.toNat ph.pMemsz.toNat) :
    (ph.pVaddr.toNat + i) % 2 ^ 32 = ph.pVaddr.toNat + i ∧
      (i + PAGE_SIZE) % 2 ^ 32 = i + PAGE_SIZE ∧
      ∀ len, UserCall ph (ph.pVaddr.toNat + i) 0 ph.perm (min len PAGE_SIZE) := by
  obtain ⟨hlow, hhigh⟩ := h (ph.pVaddr.toNat + i)
    (.inr ⟨Nat.le_add_right _ _, Nat.add_lt_add_left hi _⟩)
  have htop : UTOP.toNat = 509 * 2 ^ 22 := by decide
  refine ⟨mod_eq_of_lt (by omega), mod_eq_of_lt (by simp only [PAGE_SIZE]; omega),
    fun len => ⟨hlow, hhigh, ?_, rfl⟩⟩
  rw [zero_add]
  exact min_le_right _ _

section

variable (hagree : Agree ph mapPage mapPage' R E X)
include hagree

theorem loadFile_lockstep (fuel i : Nat) (hfuel : ph.pFilesz.toNat - i < fuel) (hs : R b s t) :
    wp (loadFile mapPage ph.pVaddr.toNat ph.perm ph.pFilesz.toNat fuel i) E X (fun j s' => ∃ t',
        loadFile mapPage' ph.pVaddr.toNat ph.perm ph.pFilesz.toNat fuel i t = .ok (.ok j, t') ∧
        R (b || decide (i < ph.pFilesz.toNat)) s' t') s := by
  induction fuel generalizing i s t b with
  | zero => exact absurd hfuel (not_lt_zero _)
  | succ fuel ih =>
    unfold loadFile
    by_cases hlt : i < ph.pFilesz.toNat
    · obtain ⟨hva, hnext, hcall⟩ := h.index (lt_of_lt_of_le hlt (le_max_left _ _))
      rw [if_pos hlt, if_pos hlt, hva, hnext]
      apply (hagree b _ _ _ _ _ s t (hcall _) hs).bind
      rintro _ _ ⟨_, hrun, hs₁⟩
      apply (ih (i + PAGE_SIZE) (fuel_next hfuel hlt) hs₁).post
      rintro j _ ⟨t₂, hrun₂, hs₂⟩
      refine ⟨t₂, ?_, by simpa [hlt] using hs₂⟩
      change andThen _ _ t = _
      simp only [andThen, hrun, hrun₂]
    · rw [if_neg hlt, if_neg hlt]
      exact ⟨t, rfl, by simpa [hlt] using hs⟩

theorem loadZeros_lockstep (fuel i : Nat) (hfuel : ph.pMemsz.toNat - i < fuel) (hs : R b s t) :
    wp (loadZeros mapPage ph.pVaddr.toNat ph.perm ph.pMemsz.toNat fuel i) E X (fun _ s' => ∃ t',
        loadZeros mapPage' ph.pVaddr.toNat ph.perm ph.pMemsz.toNat fuel i t = .ok (.ok (), t') ∧
        R b s' t') s := by
  induction fuel generalizing i s t with
  | zero => exact absurd hfuel (not_lt_zero _)
  | succ fuel ih =>
    unfold loadZeros
    by_cases hlt : i < ph.pMemsz.toNat
    · obtain ⟨hva, hnext, hcall⟩ := h.index (lt_of_lt_of_le hlt (le_max_right _ _))
      rw [if_pos hlt, if_pos hlt, hva, hnext]
      apply (hagree b _ _ _ none _ s t (hcall _) hs).bind
      rintro _ _ ⟨_, hrun, hs₁⟩
      rw [isSome_none, Bool.or_false] at hs₁
      apply (ih (i + PAGE_SIZE) (fuel_next hfuel hlt) hs₁).post
      rintro _ _ ⟨t₂, hrun₂, hs₂⟩
      refine ⟨t₂, ?_, hs₂⟩
      change andThen _ _ t = _
      simp only [andThen, hrun, hrun₂]
    · rw [if_neg hlt, if_neg hlt]
      exact ⟨t, rfl, hs⟩

/-- Both loops from the index `i` on. -/
theorem loadLoops_lockstep (i : Nat) (hs : R b s t) :
    wp (loadFile mapPage ph.pVaddr.toNat ph.perm ph.pFilesz.toNat (ph.pFilesz.toNat + 1) i >>=
        loadZeros mapPage ph.pVaddr.toNat ph.perm ph.pMemsz.toNat (ph.pMemsz.toNat + 1)) E X
      (fun _ s' => ∃ t',
        (loadFile mapPage' ph.pVaddr.toNat ph.perm ph.pFilesz.toNat (ph.pFilesz.toNat + 1) i >>=
          loadZeros mapPage' ph.pVaddr.toNat ph.perm ph.pMemsz.toNat (ph.pMemsz.toNat + 1)) t =
            .ok (.ok (), t') ∧
        R (b || decide (i < ph.pFilesz.toNat)) s' t') s := by
  apply (loadFile_lockstep h hagree (ph.pFilesz.toNat + 1) i (by omega) hs).bind
  rintro j _ ⟨_, hrun, hs₁⟩
  apply (loadZeros_lockstep h hagree (ph.pMemsz.toNat + 1) j (by omega) hs₁).post
  rintro _ _ ⟨t₂, hrun₂, hs₂⟩
  refine ⟨t₂, ?_, hs₂⟩
  change andThen _ _ t = _
  simp only [andThen, hrun, hrun₂]

/-- Mappers that agree on every call agree on the segment. -/
theorem elfLoadSeg_lockstep (hs : R false s t) :
    wp (elfLoadSeg mapPage ph) E X (fun _ s' => ∃ t',
      elfLoadSeg mapPage' ph t = .ok (.ok (), t') ∧ R ph.copies s' t') s := by
  have hoffset : ph.offset < PAGE_SIZE := mod_lt _ (by decide)
  by_cases hoff : ph.offset = 0
  · apply wp_bind.mpr
    apply wp_when (fun hc => absurd hoff hc)
    intro _
    apply (loadLoops_lockstep h hagree _ hs).post
    rintro _ s₁ ⟨t₁, hrun, hs₁⟩
    refine ⟨t₁, ?_, by simpa [Phdr.copies, hoff] using hs₁⟩
    change andThen (when (ph.offset ≠ 0) _) _ t = _
    rw [show (when (ph.offset ≠ 0) (mapPage' _ _ _ _ _) : Prog Halt Err τ Unit) = ret () from
      if_neg (not_not.mpr hoff)]
    exact hrun
  · have hcall : UserCall ph ph.pVaddr.toNat ph.offset ph.perm
        (min ph.pFilesz.toNat (PAGE_SIZE - ph.offset)) := by
      obtain ⟨hlow, hhigh⟩ := h _ (.inl ⟨hoff, rfl⟩)
      exact ⟨hlow, hhigh, by omega, rfl⟩
    apply wp_bind.mpr
    apply wp_when _ (fun hc => absurd hoff hc)
    intro _
    apply (hagree false _ _ _ (some 0) _ s t hcall hs).post
    rintro _ s₁ ⟨t₁, hrun, hs₁⟩
    apply (loadLoops_lockstep h hagree _ hs₁).post
    rintro _ _ ⟨t₂, hrun₂, hs₂⟩
    refine ⟨t₂, ?_, by simpa [Phdr.copies, hoff] using hs₂⟩
    change andThen (when (ph.offset ≠ 0) _) _ t = _
    rw [show (when (ph.offset ≠ 0) (mapPage' _ _ _ _ _) : Prog Halt Err τ Unit) =
      mapPage' _ _ _ _ _ from if_pos hoff]
    simp only [andThen, hrun]
    exact hrun₂

end

end

end Lockstep

section Loaders

variable {n : Nat} {s : MemSys n} {e cur c : EnvIdx} {childId : Word} {ph : Phdr}
  {bin : Nat → BitVec 8} {w : Space}

/-- The page at `UTEMP` is gone once something has been copied, and that is all
that happens to the space of the caller. -/
def withoutUtemp (w : Space) (b : Bool) : Space :=
  if b then update w (UTEMP.toNat / PAGE_SIZE) none else w

theorem withoutUtemp_step (b b' : Bool) :
    (if b' then update (withoutUtemp w b) (UTEMP.toNat / PAGE_SIZE) none
      else withoutUtemp w b) = withoutUtemp w (b || b') := by
  cases b <;> cases b' <;> simp [withoutUtemp]

/-- The state of a kernel that loads into `e`, seen as the space of `e`. -/
structure KernelView (e : EnvIdx) (s : MemSys n) (v : Space) : Prop where
  inv : s.Inv
  dir : s.pgdir e ≠ none
  target : space s e = v

theorem loadIcode_agrees (hn : n ≤ 2 ^ 20) :
    Agree ph (loadIcodeMapper (n := n) bin e) (installing bin) (fun _ => KernelView e)
      (fun _ => False) (fun err _ => err = .noMem) := by
  intro b va offset perm src len s v hcall hs
  obtain ⟨_, hd⟩ := ne_none_iff_exists'.mp hs.dir
  apply (loadIcodeMapper_spec hn hs.inv hd hcall).post
  rintro _ _ ⟨hinv, hpgdir, hspace⟩
  refine ⟨_, rfl, hinv, ?_, ?_⟩
  · rw [hpgdir]
    exact hs.dir
  · rw [hspace, hs.target]

/-- The state of a kernel whose program `cur` loads into its child `c`, seen as
the space of the child. The space of `cur` was `w` at first. -/
structure SpawnView (cur c : EnvIdx) (childId : Word) (w : Space) (b : Bool) (s : MemSys n)
    (v : Space) : Prop where
  inv : s.Inv
  child : s.kern.envid2env cur childId true = .ok c
  dirs : s.pgdir cur ≠ none ∧ s.pgdir c ≠ none
  target : space s c = v
  caller : space s cur = withoutUtemp w b

theorem spawn_agrees (hn : n ≤ 2 ^ 20) (hne : c ≠ cur) :
    Agree ph (spawnMapper (n := n) bin cur childId) (installing bin)
      (SpawnView cur c childId w) (fun _ => False) (fun err _ => err = .noMem) := by
  intro b va offset perm src len s v hcall hs
  apply (spawnMapper_spec hn hs.inv hne hs.dirs.1 hs.dirs.2 hs.child hcall).post
  rintro _ _ ⟨hinv, hkern, hpgdir, hspace, hcaller⟩
  refine ⟨_, rfl, hinv, ?_, ?_, ?_, ?_⟩
  · rw [hkern]
    exact hs.child
  · rw [hpgdir]
    exact hs.dirs
  · rw [hspace, hs.target]
  · rw [hcaller, hs.caller, withoutUtemp_step]

/-- The run does not fail for want of memory. -/
def EnoughMemory (m : Prog Halt Err (MemSys n) Unit) (s : MemSys n) : Prop :=
  ∀ t, m s ≠ .ok (.error .noMem, t)

theorem returns_of_enough {m : Prog Halt Err (MemSys n) Unit} {Q : Unit → MemSys n → Prop}
    (h : wp m (fun _ => False) (fun err _ => err = .noMem) Q s) (henough : EnoughMemory m s) :
    ∃ t, m s = .ok (.ok (), t) ∧ Q () t := by
  obtain ⟨r, t, hrun⟩ := h.total
  cases r with
  | error err =>
    have herr : err = .noMem := h.error hrun
    subst herr
    exact absurd hrun (henough t)
  | ok => exact ⟨t, hrun, h.value hrun⟩

end Loaders

/-- A segment of user space that the kernel loads into an environment and
`spawn` loads into a child with the same space makes the same image. Of the
caller's space only the page at `UTEMP` changes: it is unmapped in the end, if
a page of the segment has bytes of the binary to be copied. -/
theorem images_agree {memsize memsize' : Word} {s : MemSys (npage memsize)}
    {s' : MemSys (npage memsize')} {e cur c : EnvIdx} {childId : Word} {ph : Phdr}
    (bin : Nat → BitVec 8) (hinv : s.Inv) (hinv' : s'.Inv) (he : s.pgdir e ≠ none)
    (hcur : s'.pgdir cur ≠ none) (hc : s'.pgdir c ≠ none)
    (hchild : s'.kern.envid2env cur childId true = .ok c) (hne : c ≠ cur) (huser : ph.InUser)
    (hsame : space s e = space s' c)
    (hmem : EnoughMemory (elfLoadSeg (loadIcodeMapper bin e) ph) s)
    (hmem' : EnoughMemory (elfLoadSeg (spawnMapper bin cur childId) ph) s') :
    ∃ t t', elfLoadSeg (loadIcodeMapper bin e) ph s = .ok (.ok (), t) ∧
      elfLoadSeg (spawnMapper bin cur childId) ph s' = .ok (.ok (), t') ∧
      space t e = space t' c ∧
      (∀ q, q ≠ UTEMP.toNat / PAGE_SIZE → space t' cur q = space s' cur q) ∧
      space t' cur (UTEMP.toNat / PAGE_SIZE) =
        if ph.offset ≠ 0 ∨ 0 < ph.pFilesz.toNat then none
        else space s' cur (UTEMP.toNat / PAGE_SIZE) := by
  have hview : KernelView e s (space s e) := ⟨hinv, he, rfl⟩
  have hview' : SpawnView cur c childId (space s' cur) false s' (space s e) :=
    ⟨hinv', hchild, ⟨hcur, hc⟩, hsame.symm, rfl⟩
  obtain ⟨t, hrun, v, hv, ht⟩ := returns_of_enough
    (elfLoadSeg_lockstep huser (loadIcode_agrees (npage_le memsize)) hview) hmem
  obtain ⟨t', hrun', v', hv', ht'⟩ := returns_of_enough
    (elfLoadSeg_lockstep huser (spawn_agrees (npage_le memsize') hne) hview') hmem'
  have himage : v = v' := by
    have hboth := hv.symm.trans hv'
    simpa using hboth
  refine ⟨t, t', hrun, hrun', ?_, ?_, ?_⟩
  · rw [ht.target, ht'.target, himage]
  · intro q hq
    rw [ht'.caller]
    unfold withoutUtemp
    split_ifs
    · exact update_of_ne hq _ _
    · rfl
  · rw [ht'.caller]
    unfold withoutUtemp Phdr.copies
    by_cases hcopies : ph.offset ≠ 0 ∨ 0 < ph.pFilesz.toNat
    · rw [if_pos hcopies, if_pos (by simpa using hcopies), update_self]
    · rw [if_neg hcopies, if_neg (by simpa using hcopies)]

theorem fifteen_lt_npage : 15 < npage 0x10000 := by decide

/-- Sixteen pages, of which the kernel has two and the base directory is the
last, and an environment with a child. -/
def familyMem : MemSys (npage 0x10000) where
  kern :=
    (Kern.envInit.updEnv 0 (fun x => { x with envId := 0x800, envStatus := .runnable })).updEnv 1
      (fun x => { x with envId := 0x801, envStatus := .runnable, envParentId := 0x800 })
  pm := (((Frames.start _ 2 (fun _ _ => 0)).exec .newDir).getD (Frames.start _ 2 fun _ _ => 0)).pm
  freemem := 2
  basePgdir := ⟨15, fifteen_lt_npage⟩
  sysDirs := update (fun _ => false) ⟨15, fifteen_lt_npage⟩ true
  pgdir := fun _ => none
  own := update (fun p => if p.val < 2 then 1 else 0) ⟨15, fifteen_lt_npage⟩ 1
  grants := fun _ _ => false
  stored := []

theorem familyMem_init : (memCalls 0x10000).init familyMem := by
  have hstart : (frames 0x10000).ReachableUnder Frames.Allowed
      (Frames.start _ 2 (fun _ _ => 0)) := .init ⟨2, fun _ _ => 0, rfl⟩
  refine ⟨{ pm := familyMem.pm, dirs := familyMem.sysDirs, own := familyMem.own },
    .step hstart (l := .newDir) trivial rfl, rfl, rfl, rfl, fun _ => rfl, ?_, ?_, rfl⟩
  · decide +kernel
  · intro e _
    simp only [familyMem, Kern.envs_updEnv]
    split_ifs <;> rfl

theorem enough_of_yields {n : Nat} {m : Prog Halt Err (MemSys n) Unit} {s : MemSys n}
    (h : m.yields (fun _ _ => true) s = true) : EnoughMemory m s := by
  obtain ⟨_, _, hrun, _⟩ := exists_of_yields h
  intro u hu
  rw [hrun] at hu
  cases hu

/-- A page with a byte of the binary and a byte of zeros. -/
def smallSegment : Phdr := ⟨0x400000, 1, 2, 2⟩

/-- A page of zeros. -/
def bssSegment : Phdr := ⟨0x400000, 0, 0x1000, 2⟩

theorem smallSegment_inUser : smallSegment.InUser := by
  have hlow : UTEMP.toNat = 0x3fe000 := by decide
  have hhigh : UTOP.toNat = 0x7f400000 := by decide
  have hmax : max smallSegment.pFilesz.toNat smallSegment.pMemsz.toNat = 2 := by decide
  have hva : smallSegment.pVaddr.toNat = 0x400000 := by decide
  intro a ha
  rw [hmax, hva] at ha
  omega

theorem bssSegment_inUser : bssSegment.InUser := by
  have hlow : UTEMP.toNat = 0x3fe000 := by decide
  have hhigh : UTOP.toNat = 0x7f400000 := by decide
  have hmax : max bssSegment.pFilesz.toNat bssSegment.pMemsz.toNat = 0x1000 := by decide
  have hva : bssSegment.pVaddr.toNat = 0x400000 := by decide
  intro a ha
  rw [hmax, hva] at ha
  omega

/-- The child has a directory and nothing else when both loaders run on it. -/
theorem images_agree_small :
    ∃ s t t' : MemSys (npage 0x10000), (memCalls 0x10000).ReachableUnder MemSys.LowPerm s ∧
      elfLoadSeg (loadIcodeMapper (fun _ => 7) 1) smallSegment s = .ok (.ok (), t) ∧
      elfLoadSeg (spawnMapper (fun _ => 7) 0 0x801) smallSegment s = .ok (.ok (), t') ∧
      space t 1 = space t' 1 ∧ space t' 0 (UTEMP.toNat / PAGE_SIZE) = none := by
  have hstart : (memCalls 0x10000).ReachableUnder MemSys.LowPerm familyMem := .init familyMem_init
  obtain ⟨s, hs, ⟨hdir, hdir'⟩, hchild, hyields, hyields'⟩ := Machine.exists_reachableUnder_of_exec
    (P := fun s : MemSys (npage 0x10000) =>
      ((s.pgdir 0).isSome = true ∧ (s.pgdir 1).isSome = true) ∧
      s.kern.envid2env 0 0x801 true = .ok 1 ∧
      (elfLoadSeg (loadIcodeMapper (fun _ => 7) 1) smallSegment).yields (fun _ _ => true) s = true ∧
      (elfLoadSeg (spawnMapper (fun _ => 7) 0 0x801) smallSegment).yields
        (fun _ _ => true) s = true)
    [.setupVm 0, .setupVm 1] hstart (by decide +kernel)
  have hinv := MemSys.inv_of_lowPerm hs
  obtain ⟨t, t', hrun, hrun', himage, _, hutemp⟩ := images_agree (fun _ => 7) hinv hinv
    (isSome_iff_ne_none.mp hdir') (isSome_iff_ne_none.mp hdir)
    (isSome_iff_ne_none.mp hdir') hchild (by decide) smallSegment_inUser rfl
    (enough_of_yields hyields) (enough_of_yields hyields')
  rw [if_pos (.inr (by decide))] at hutemp
  exact ⟨s, t, t', hs, hrun, hrun', himage, hutemp⟩

/-- A segment of zeros at a page boundary has nothing to be copied: a page that
the caller has at `UTEMP` stays there. -/
theorem utempKept_reachable :
    ∃ s t : MemSys (npage 0x10000), (memCalls 0x10000).ReachableUnder MemSys.LowPerm s ∧
      s.kern.envid2env 0 0x801 true = .ok 1 ∧ bssSegment.InUser ∧
      elfLoadSeg (spawnMapper (fun _ => 7) 0 0x801) bssSegment s = .ok (.ok (), t) ∧
      space t 0 (UTEMP.toNat / PAGE_SIZE) ≠ none := by
  have hstart : (memCalls 0x10000).ReachableUnder MemSys.LowPerm familyMem := .init familyMem_init
  obtain ⟨s, hs, hchild, hyields⟩ := Machine.exists_reachableUnder_of_exec
    (P := fun s : MemSys (npage 0x10000) => s.kern.envid2env 0 0x801 true = .ok 1 ∧
      (elfLoadSeg (spawnMapper (fun _ => 7) 0 0x801) bssSegment).yields
        (fun _ t => (space t 0 (UTEMP.toNat / PAGE_SIZE)).isSome) s = true)
    [.setupVm 0, .setupVm 1, .memAlloc 0 0 UTEMP 0x100] hstart (by decide +kernel)
  obtain ⟨_, t, hrun, hmapped⟩ := exists_of_yields hyields
  exact ⟨s, t, hs, hchild, bssSegment_inUser, hrun, isSome_iff_ne_none.mp hmapped⟩

end MosSmp.Elf
