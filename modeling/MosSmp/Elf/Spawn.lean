import MosSmp.Calls.Remap
import MosSmp.Elf.Load

/-!
The two mappers of `elf_load_seg`. `load_icode_mapper` runs in the kernel and
fills a page before it inserts it; `spawn_mapper` runs in the parent of the new
environment, lets the kernel map a page there and fills it through a second
mapping at `UTEMP`. Both do to the target what `installing` does to an address
space, so a segment loaded either way is the same image.
-/

namespace MosSmp.Elf

open Lib Lib.Prog Function

/-- The bytes of a page, in little-endian words. -/
def pageBytes (words : Idx → Word) (o : Fin PAGE_SIZE) : BitVec 8 :=
  (words (Fin.ofNat 1024 (o.val / 4))).extractLsb' (8 * (o.val % 4)) 8

def ofBytes (bytes : Nat → BitVec 8) (j : Idx) : Word :=
  bytes (4 * j.val + 3) ++ bytes (4 * j.val + 2) ++ bytes (4 * j.val + 1) ++ bytes (4 * j.val)

/-- `memcpy` of `len` bytes of the binary from position `k` to `offset`. -/
def copyBytes (bin : Nat → BitVec 8) (offset k len : Nat) (words : Idx → Word) : Idx → Word :=
  ofBytes (fun a => if offset ≤ a ∧ a < offset + len then bin (k + (a - offset))
    else pageBytes words (Fin.ofNat PAGE_SIZE a))

theorem extract_append (b₃ b₂ b₁ b₀ : BitVec 8) {i : Nat} (hi : i < 4) :
    (b₃ ++ b₂ ++ b₁ ++ b₀ : Word).extractLsb' (8 * i) 8 =
      if i = 0 then b₀ else if i = 1 then b₁ else if i = 2 then b₂ else b₃ := by
  apply BitVec.eq_of_getLsbD_eq
  intro j hj
  rw [BitVec.getLsbD_extractLsb', BitVec.getLsbD_append, BitVec.getLsbD_append,
    BitVec.getLsbD_append]
  grind

theorem pageBytes_ofBytes (bytes : Nat → BitVec 8) (o : Fin PAGE_SIZE) :
    pageBytes (ofBytes bytes) o = bytes o.val := by
  have ho : o.val < 4096 := o.isLt
  have hj : (Fin.ofNat 1024 (o.val / 4)).val = o.val / 4 := by
    rw [Fin.val_ofNat]
    omega
  unfold pageBytes ofBytes
  rw [hj, extract_append _ _ _ _ (Nat.mod_lt _ (by decide))]
  split_ifs with h₀ h₁ h₂
  · rw [show 4 * (o.val / 4) = o.val by omega]
  · rw [show 4 * (o.val / 4) + 1 = o.val by omega]
  · rw [show 4 * (o.val / 4) + 2 = o.val by omega]
  · rw [show 4 * (o.val / 4) + 3 = o.val by omega]

theorem pageBytes_copyBytes (bin : Nat → BitVec 8) (offset k len : Nat) (words : Idx → Word)
    (o : Fin PAGE_SIZE) :
    pageBytes (copyBytes bin offset k len words) o =
      if offset ≤ o.val ∧ o.val < offset + len then bin (k + (o.val - offset))
      else pageBytes words o := by
  unfold copyBytes
  rw [pageBytes_ofBytes, Fin.ofNat_eq_cast, Fin.cast_val_eq_self]

/-- The contents of a page after the copy of a call, if it has a source. -/
def filledPage (bin : Nat → BitVec 8) (offset : Nat) (src : Option Nat) (len : Nat)
    (words : Idx → Word) : Idx → Word :=
  match src with
  | some k => copyBytes bin offset k len words
  | none => words

/-- A blank page after the copy is the fresh page of the call. -/
theorem filledPage_eq (bin : Nat → BitVec 8) (offset len : Nat) (src : Option Nat) (perm : Word) :
    (⟨pageBytes (filledPage bin offset src len (fun _ => 0)), perm⟩ : UserPage) =
      freshPage bin offset perm src len := by
  refine UserPage.ext (funext fun o => ?_) rfl
  cases src with
  | none => simp [filledPage, freshPage, pageBytes]
  | some =>
    simp only [filledPage, freshPage, pageBytes_copyBytes]
    simp [pageBytes]

section Mappers

variable {n : Nat}

/-- A kernel function that panics or returns. -/
def kernelCall (f : MemSys n → Option (Except Err Unit × MemSys n)) :
    Prog Halt Err (MemSys n) Unit :=
  fun s =>
    match f s with
    | none => .error .panicked
    | some r => .ok r

/-- `load_icode_mapper` for the environment `e`. -/
def loadIcodeMapper (bin : Nat → BitVec 8) (e : EnvIdx) : Mapper Err (MemSys n) :=
  fun va offset perm src len s =>
    match s.pm.pageAlloc with
    | .error err => .ok (.error err, s)
    | .ok (p, m) =>
      let s := { s with pm := m, grants := fun e' q => s.grants e' q && decide (q ≠ p) }
      if src.isSome ∧ PAGE_SIZE < offset + len then .error .outside
      else
        kernelCall (fun s => s.insertInto e p (BitVec.ofNat 32 va) perm)
          (s.writePage p (filledPage bin offset src len (s.pm.mem p)))

/-- A copy by the program `cur` into its page at `va`. -/
def copyToUser (bin : Nat → BitVec 8) (cur : EnvIdx) (va : Word) (offset k len : Nat) :
    Prog Halt Err (MemSys n) Unit :=
  fun s =>
    match s.translation cur va with
    | none => .error .outside
    | some (p, flags) =>
      if flags &&& PTE_D = 0 ∨ PAGE_SIZE < offset + len then .error .outside
      else .ok (.ok (), s.writePage p (copyBytes bin offset k len (s.pm.mem p)))

/-- The part of `spawn_mapper` that fills the page through `UTEMP`. -/
def fillThroughUtemp (bin : Nat → BitVec 8) (cur : EnvIdx) (childId va : Word) (offset : Nat)
    (perm : Word) (k len : Nat) : Prog Halt Err (MemSys n) Unit := do
  let r ← attempt (kernelCall (fun s => s.sysMemMap cur childId va 0 UTEMP (perm ||| PTE_D)))
  match r with
  | .error err => do
      let _ ← attempt (kernelCall (fun s => s.sysMemUnmap cur childId va))
      fail err
  | .ok _ => do
      copyToUser bin cur UTEMP offset k len
      kernelCall (fun s => s.sysMemUnmap cur 0 UTEMP)

/-- `spawn_mapper` of the program `cur` for its child `childId`. -/
def spawnMapper (bin : Nat → BitVec 8) (cur : EnvIdx) (childId : Word) : Mapper Err (MemSys n) :=
  fun va offset perm src len => do
    kernelCall (fun s => s.sysMemAlloc cur childId (BitVec.ofNat 32 va) perm)
    match src with
    | none => pure ()
    | some k => fillThroughUtemp bin cur childId (BitVec.ofNat 32 va) offset perm k len

/-- What a program sees of its address space: the contents and the flags of
every page below `UTOP`. -/
def space (s : MemSys n) (e : EnvIdx) : Space :=
  fun q =>
    if q * PAGE_SIZE < UTOP.toNat then
      (s.translation e (BitVec.ofNat 32 (q * PAGE_SIZE))).map
        (fun r => ⟨pageBytes (s.pm.mem r.1), r.2⟩)
    else none

/-- A mapper that does nothing but place its page, with the flags that
`page_insert` adds. -/
def installing (bin : Nat → BitVec 8) : Mapper Err Space :=
  fun va offset perm src len =>
    update (fun v => v.place bin va offset (perm ||| PTE_C_CACHEABLE ||| PTE_V) src len)

variable {s t : MemSys n} {e cur : EnvIdx} {va : Word} {q : Nat}

theorem pdx_of_page (hq : q * PAGE_SIZE < UTOP.toNat) :
    pdx (BitVec.ofNat 32 (q * PAGE_SIZE)) < pdx UTOP := by
  have htop : UTOP.toNat = 509 * 2 ^ 22 := by decide
  rw [htop] at hq
  rw [Fin.lt_def, pdx_val, pdx_utop.1, BitVec.toNat_ofNat, Nat.mod_eq_of_lt (by omega)]
  omega

theorem page_of_shift (hq : q * PAGE_SIZE < UTOP.toNat) :
    BitVec.ofNat 32 (q * PAGE_SIZE) >>> 12 = va >>> 12 ↔ q = va.toNat / PAGE_SIZE := by
  rw [← BitVec.toNat_inj, BitVec.toNat_ushiftRight, BitVec.toNat_ushiftRight,
    Nat.shiftRight_eq_div_pow, Nat.shiftRight_eq_div_pow, BitVec.toNat_ofNat,
    Nat.mod_eq_of_lt (by omega)]
  simp only [PAGE_SIZE]
  omega

/-- A space in which at most one page has changed. -/
theorem space_update {page : Option UserPage} (hva : isIllegalVa va = false)
    (hhere : (t.translation e va).map (fun r => ⟨pageBytes (t.pm.mem r.1), r.2⟩) = page)
    (hsame : ∀ va' : Word, va' >>> 12 = va >>> 12 → t.translation e va' = t.translation e va)
    (helse : ∀ va' : Word, pdx va' < pdx UTOP → va' >>> 12 ≠ va >>> 12 →
      t.translation e va' = s.translation e va' ∧
        ∀ r, s.translation e va' = some r → t.pm.mem r.1 = s.pm.mem r.1) :
    space t e = update (space s e) (va.toNat / PAGE_SIZE) page := by
  have hlt : va.toNat / PAGE_SIZE * PAGE_SIZE < UTOP.toNat := by
    have hlegal : UTEMP ≤ va ∧ va < UTOP := by simpa [isIllegalVa] using hva
    have hup : va.toNat < UTOP.toNat := hlegal.2
    exact Nat.lt_of_le_of_lt (Nat.div_mul_le_self _ _) hup
  funext q
  by_cases hq : q = va.toNat / PAGE_SIZE
  · subst hq
    rw [update_self, ← hhere, ← hsame _ ((page_of_shift hlt).mpr rfl)]
    exact if_pos hlt
  · rw [update_of_ne hq]
    unfold space
    split_ifs with hin
    · obtain ⟨htr, hmem⟩ := helse _ (pdx_of_page hin) (fun hc => hq ((page_of_shift hin).mp hc))
      rw [htr]
      apply Option.map_congr
      intro r hr
      rw [hmem r hr]
    · rfl

variable {target : Option (Page n × Word)}

/-- The space of the environment that a call has changed. -/
theorem space_remapped (hinv : s.Inv) (h : MemSys.Remapped s t e va target)
    (hva : isIllegalVa va = false) :
    space t e = update (space s e) (va.toNat / PAGE_SIZE)
      (target.map (fun r => ⟨pageBytes (t.pm.mem r.1), r.2⟩)) := by
  have hlt := pdx_lt_utop hva
  have hhere : ∀ va' : Word, va' >>> 12 = va >>> 12 → t.translation e va' = target := by
    intro va' hshift
    have hpd := ((shift_eq_iff va va').mp hshift).1
    rw [h.translation e va' (by rwa [hpd]), if_pos ⟨rfl, hshift⟩]
  apply space_update hva (by rw [hhere va rfl])
  · intro va' hshift
    rw [hhere va' hshift, hhere va rfl]
  · intro va' hva' hshift
    refine ⟨by rw [h.translation e va' hva', if_neg (fun hc => hshift hc.2)], fun r hr => ?_⟩
    exact h.contents r.1 (hinv.data_of_translation hva' hr)

/-- The space of any other environment. -/
theorem space_other {e' : EnvIdx} (hinv : s.Inv) (h : MemSys.Remapped s t e va target)
    (hne : e' ≠ e) : space t e' = space s e' := by
  funext q
  unfold space
  split_ifs with hq
  · rw [h.translation e' _ (pdx_of_page hq), if_neg (fun hc => hne hc.1)]
    apply Option.map_congr
    intro r hr
    rw [h.contents r.1 (hinv.data_of_translation (pdx_of_page hq) hr)]
  · rfl

/-- The space of an environment that maps the page `p` once, after a write to it. -/
theorem space_written {p : Page n} {flags : Word} {rest : Word → Option (Page n × Word)}
    (hinv : s.Inv) (hp : s.Data p) (hva : isIllegalVa va = false) (words : Idx → Word)
    (htr : ∀ va' : Word, pdx va' < pdx UTOP → s.translation e va' =
      if va' >>> 12 = va >>> 12 then some (p, flags) else rest va')
    (hfar : ∀ (va' : Word) r, pdx va' < pdx UTOP → rest va' = some r → r.1 ≠ p) :
    space (s.writePage p words) e = update (space s e) (va.toNat / PAGE_SIZE)
      (some ⟨pageBytes words, flags⟩) := by
  have hsame := hinv.writePage hp words
  have hhere : ∀ va' : Word, va' >>> 12 = va >>> 12 →
      (s.writePage p words).translation e va' = some (p, flags) := by
    intro va' hshift
    have hlt : pdx va' < pdx UTOP := by
      rw [((shift_eq_iff va va').mp hshift).1]
      exact pdx_lt_utop hva
    rw [hsame.translation e va' hlt, htr va' hlt, if_pos hshift]
  apply space_update hva
  · rw [hhere va rfl, Option.map_some, MemSys.writePage_mem_self]
  · intro va' hshift
    rw [hhere va' hshift, hhere va rfl]
  · intro va' hva' hshift
    refine ⟨hsame.translation e va' hva', fun r hr => ?_⟩
    rw [htr va' hva', if_neg hshift] at hr
    exact MemSys.writePage_mem_ne (hfar va' r hva' hr) words

theorem wp_kernelCall {f : MemSys n → Option (Except Err Unit × MemSys n)} {E : Halt → Prop}
    {X : Err → MemSys n → Prop} {Q : Unit → MemSys n → Prop} {r : Except Err Unit}
    (hrun : f s = some (r, t)) (hout : match r with | .error err => X err t | .ok _ => Q () t) :
    wp (kernelCall f) E X Q s := by
  unfold wp kernelCall
  simp only [hrun]
  cases r with
  | error | ok => exact hout

/-- A call of the loader for a segment of user space. -/
structure UserCall (ph : Phdr) (va offset : Nat) (perm : Word) (len : Nat) : Prop where
  low : UTEMP.toNat ≤ va
  high : va < UTOP.toNat
  inside : offset + len ≤ PAGE_SIZE
  perm : perm = ph.perm

variable {ph : Phdr} {a offset len : Nat} {perm : Word} {src : Option Nat}
  {bin : Nat → BitVec 8} {d : Page n}

section

variable (h : UserCall ph a offset perm len)
include h

theorem UserCall.toNat : (BitVec.ofNat 32 a).toNat = a := by
  have htop : UTOP.toNat < 2 ^ 32 := UTOP.isLt
  rw [BitVec.toNat_ofNat, Nat.mod_eq_of_lt (Nat.lt_trans h.high htop)]

theorem UserCall.legal : isIllegalVa (BitVec.ofNat 32 a) = false := by
  have hlow := h.low
  have hhigh := h.high
  simp only [isIllegalVa, Bool.or_eq_false_iff, decide_eq_false_iff_not, BitVec.lt_def,
    BitVec.le_def, h.toNat]
  omega

theorem UserCall.lowPerm : perm < 0x1000#32 ∧ perm ||| PTE_D < 0x1000#32 := by
  rw [h.perm]
  unfold Phdr.perm
  split_ifs <;> decide

end

theorem utemp_legal : isIllegalVa UTEMP = false := by decide

/-- The page of a mapping that has just been made. -/
theorem translation_here (h : MemSys.Remapped s t e va target) (hva : isIllegalVa va = false) :
    t.translation e va = target := by
  rw [h.translation e va (pdx_lt_utop hva), if_pos ⟨rfl, rfl⟩]

section

variable (hn : n ≤ 2 ^ 20) (hinv : s.Inv)
include hn hinv

/-- `load_icode_mapper` places its page or reports that there is no memory. -/
theorem loadIcodeMapper_spec (hd : s.pgdir e = some d) (hcall : UserCall ph a offset perm len) :
    wp (loadIcodeMapper bin e a offset perm src len) (fun _ => False) (fun err _ => err = .noMem)
      (fun _ t => t.Inv ∧ t.pgdir = s.pgdir ∧ space t e =
        (space s e).place bin a offset (perm ||| PTE_C_CACHEABLE ||| PTE_V) src len) s := by
  have hrange : ¬ (src.isSome ∧ PAGE_SIZE < offset + len) :=
    fun hc => Nat.not_lt.mpr hcall.inside hc.2
  cases ha : s.pm.pageAlloc with
  | error err =>
    have herr : err = .noMem := MemSys.pageAlloc_error ha
    unfold wp loadIcodeMapper
    simp only [ha]
    exact herr
  | ok r =>
    obtain ⟨p, m⟩ := r
    have htaken := (hinv.pageAlloc_taken ha).write (filledPage bin offset src len (fun _ => 0))
    obtain ⟨r, t, hrun, hout⟩ := htaken.insertInto hn hd (pdx_lt_utop hcall.legal) hcall.lowPerm.1
    have hblank : m.mem p = fun _ => 0 := (hinv.pageAlloc_taken ha).holds
    unfold wp loadIcodeMapper
    simp only [ha, if_neg hrange, hblank, kernelCall, hrun]
    rcases hout with rfl | ⟨rfl, hmap, hmem, _⟩
    · rfl
    · refine ⟨hmap.inv, hmap.pgdir, ?_⟩
      rw [space_remapped hinv hmap hcall.legal, hcall.toNat]
      unfold Space.place
      rw [Option.map_some, hmem, filledPage_eq]

theorem fillThroughUtemp_spec {c : EnvIdx} {p : Page n} {k : Nat} {flags childId : Word}
    (hne : c ≠ cur) (hd : s.pgdir cur = some d) (hc : s.pgdir c ≠ none)
    (hmap : MemSys.Remapped s t c va (some (p, flags))) (hblank : t.pm.mem p = fun _ => 0)
    (href : (t.pm.ppRef p).toNat ≤ 1) (hfresh : ∀ q, s.Data q → q ≠ p)
    (hva : isIllegalVa va = false) (hchild : s.kern.envid2env cur childId true = .ok c)
    (hperm : perm ||| PTE_D < 0x1000#32) (hin : offset + len ≤ PAGE_SIZE) :
    wp (fillThroughUtemp bin cur childId va offset perm k len) (fun _ => False)
      (fun err _ => err = .noMem)
      (fun _ u => u.Inv ∧ u.kern = s.kern ∧ u.pgdir = s.pgdir ∧
        space u c = update (space s c) (va.toNat / PAGE_SIZE)
          (some ⟨pageBytes (copyBytes bin offset k len (fun _ => 0)), flags⟩) ∧
        space u cur = update (space s cur) (UTEMP.toNat / PAGE_SIZE) none) t := by
  have hself : ∀ k : Kern, k.envid2env cur 0 true = .ok cur := fun k => if_pos rfl
  have hpage := translation_here hmap hva
  have hdata : t.Data p := hmap.inv.data_of_translation (pdx_lt_utop hva) hpage
  have hchild' : t.kern.envid2env cur childId true = .ok c := by rw [hmap.kern, hchild]
  have hd' : t.pgdir cur = some d := by rw [hmap.pgdir, hd]
  obtain ⟨r, t₁, hrun, hout⟩ := hmap.inv.sysMemMap_remapped hn hva utemp_legal hchild'
    (hself t.kern) hd' hpage hperm (by omega)
  apply wp_bind.mpr
  apply wp_attempt.mpr
  apply wp_kernelCall hrun
  rcases hout with ⟨rfl, rfl⟩ | ⟨rfl, hmap₁⟩
  · -- the page is taken back, and the error returned
    obtain ⟨dc, hdc⟩ := Option.ne_none_iff_exists'.mp hc
    have hdc' : t₁.pgdir c = some dc := by rw [hmap.pgdir, hdc]
    obtain ⟨u, hunmap, _⟩ := hmap.inv.sysMemUnmap_remapped hn hva hchild' hdc'
    apply wp_bind.mpr
    apply wp_attempt.mpr
    apply wp_kernelCall hunmap
    exact wp_fail.mpr rfl
  · have hpage₁ := translation_here hmap₁ utemp_legal
    have hdata₁ : t₁.Data p := hmap₁.inv.data_of_translation (pdx_lt_utop utemp_legal) hpage₁
    have hblank₁ : t₁.pm.mem p = fun _ => 0 := (hmap₁.contents p hdata).trans hblank
    have hdirty : (perm ||| PTE_D ||| PTE_C_CACHEABLE ||| PTE_V) &&& PTE_D ≠ 0 := by
      intro hzero
      have hbit := congrArg (fun w => w.getLsbD 8) hzero
      simp [PTE_D] at hbit
    have hother : cur ≠ c := fun hc => hne hc.symm
    -- only the child maps the page, and the caller at `UTEMP`
    have hfresh' : ∀ e va' r, pdx va' < pdx UTOP → s.translation e va' = some r → r.1 ≠ p :=
      fun e va' r hva' hr => hfresh r.1 (hinv.data_of_translation hva' hr)
    have hchildTr : ∀ va' : Word, pdx va' < pdx UTOP → t₁.translation c va' =
        if va' >>> 12 = va >>> 12 then some (p, flags) else s.translation c va' := by
      intro va' hva'
      rw [hmap₁.translation c va' hva', if_neg (fun hc => hne hc.1), hmap.translation c va' hva']
      simp only [true_and]
    have hcurTr : ∀ va' : Word, pdx va' < pdx UTOP → t₁.translation cur va' =
        if va' >>> 12 = UTEMP >>> 12 then some (p, perm ||| PTE_D ||| PTE_C_CACHEABLE ||| PTE_V)
        else s.translation cur va' := by
      intro va' hva'
      rw [hmap₁.translation cur va' hva', hmap.translation cur va' hva']
      simp only [true_and, hother, false_and, if_false]
    have hchildPage := space_written hmap₁.inv hdata₁ hva
      (copyBytes bin offset k len (fun _ => 0)) hchildTr (hfresh' c)
    have hcurPage := space_written hmap₁.inv hdata₁ utemp_legal
      (copyBytes bin offset k len (fun _ => 0)) hcurTr (hfresh' cur)
    have hwrite := hmap₁.inv.writePage hdata₁ (copyBytes bin offset k len (fun _ => 0))
    obtain ⟨u, hunmap, hmap₂⟩ := hwrite.inv.sysMemUnmap_remapped hn utemp_legal
      (hself (t₁.writePage p _).kern) (by rw [hwrite.pgdir, hmap₁.pgdir, hd'])
    apply wp_bind.mpr
    unfold wp copyToUser
    simp only [hpage₁, hblank₁, hdirty, Nat.not_lt.mpr hin, or_self, if_false]
    apply wp_kernelCall hunmap
    refine ⟨hmap₂.inv, ?_, ?_, ?_, ?_⟩
    · rw [hmap₂.kern, hwrite.kern, hmap₁.kern, hmap.kern]
    · rw [hmap₂.pgdir, hwrite.pgdir, hmap₁.pgdir, hmap.pgdir]
    · rw [space_other hwrite.inv hmap₂ hne, hchildPage, space_other hmap.inv hmap₁ hne,
        space_remapped hinv hmap hva, update_idem]
    · rw [space_remapped hwrite.inv hmap₂ utemp_legal, hcurPage,
        space_remapped hmap.inv hmap₁ utemp_legal, space_other hinv hmap hother,
        update_idem, update_idem, Option.map_none]

/-- `spawn_mapper` places its page in the child, or reports that there is no
memory. Of the caller's space it changes the page at `UTEMP`, which it leaves
unmapped if there was something to copy. -/
theorem spawnMapper_spec {c : EnvIdx} {childId : Word} (hne : c ≠ cur) (hcur : s.pgdir cur ≠ none)
    (hc : s.pgdir c ≠ none) (hchild : s.kern.envid2env cur childId true = .ok c)
    (hcall : UserCall ph a offset perm len) :
    wp (spawnMapper bin cur childId a offset perm src len) (fun _ => False)
      (fun err _ => err = .noMem)
      (fun _ t => t.Inv ∧ t.kern = s.kern ∧ t.pgdir = s.pgdir ∧ space t c =
          (space s c).place bin a offset (perm ||| PTE_C_CACHEABLE ||| PTE_V) src len ∧
        space t cur = if src.isSome then
          update (space s cur) (UTEMP.toNat / PAGE_SIZE) none else space s cur) s := by
  obtain ⟨_, hd⟩ := Option.ne_none_iff_exists'.mp hcur
  obtain ⟨_, hdc⟩ := Option.ne_none_iff_exists'.mp hc
  have hva := hcall.legal
  obtain ⟨_, t, hrun, hout⟩ := hinv.sysMemAlloc_remapped hn hva hchild hdc hcall.lowPerm.1
  apply wp_bind.mpr
  apply wp_kernelCall hrun
  rcases hout with rfl | ⟨rfl, _, hmap, hblank, href, hfresh⟩
  · rfl
  · cases src with
    | none =>
      refine ⟨hmap.inv, hmap.kern, hmap.pgdir, ?_, space_other hinv hmap (Ne.symm hne)⟩
      rw [space_remapped hinv hmap hva, hcall.toNat]
      unfold Space.place
      rw [Option.map_some, hblank, ← filledPage_eq]
      rfl
    | some =>
      apply (fillThroughUtemp_spec hn hinv hne hd hc hmap hblank href hfresh hva hchild
        hcall.lowPerm.2 hcall.inside).post
      rintro _ _ ⟨hinvu, hkern, hpgdir, hspace, hspaceCur⟩
      refine ⟨hinvu, hkern, hpgdir, ?_, hspaceCur⟩
      rw [hspace, hcall.toNat]
      unfold Space.place
      rw [← filledPage_eq]
      rfl

end

end Mappers

end MosSmp.Elf
