import MosSmp.Lib.Prog
import MosSmp.Tlb.Entry

/-!
The segment loader `elf_load_seg`. It walks a segment page by page and hands
every page to a mapper: the partial first page, the pages of the file and then
zero pages up to the size of the segment, all with one index `i`. The loader is
generic in the mapper; `Places` says what a mapper does to an address space
when it succeeds, and what the loader builds follows from it.
-/

namespace MosSmp.Elf

open Lib Lib.Prog Nat

/-- The size of a page in bytes. -/
abbrev PAGE_SIZE : Nat := 4096

instance neZeroPageSize : NeZero PAGE_SIZE := ⟨by decide⟩

abbrev PF_W : Word := 2

/-- The fields of `Elf32_Phdr` the loader reads. -/
structure Phdr where
  pVaddr : Word
  pFilesz : Word
  pMemsz : Word
  pFlags : Word
deriving DecidableEq

/-- Why a run of the loader has no result. -/
inductive Halt
  | panicked
  | loops
  /-- A copy to an address outside its page or to a page that is not writable. -/
  | outside
deriving DecidableEq

/-- `map_page(data, va, offset, perm, src, len)`: the source is a position in
the binary, or `NULL`. -/
abbrev Mapper (ε σ : Type) : Type :=
  (va offset : Nat) → (perm : Word) → (src : Option Nat) → (len : Nat) → Prog Halt ε σ Unit

section Source

variable {ε σ : Type} (mapPage : Mapper ε σ)

/-- Step 1, with the index after the loop as its value. -/
def loadFile (va : Nat) (perm : Word) (binSize : Nat) : Nat → Nat → Prog Halt ε σ Nat
  | 0, _ => stop .loops
  | fuel + 1, i =>
    if i < binSize then do
      mapPage ((va + i) % 2 ^ 32) 0 perm (some i) (min (binSize - i) PAGE_SIZE)
      loadFile va perm binSize fuel ((i + PAGE_SIZE) % 2 ^ 32)
    else
      pure i

/-- Step 2. -/
def loadZeros (va : Nat) (perm : Word) (sgsize : Nat) : Nat → Nat → Prog Halt ε σ Unit
  | 0, _ => stop .loops
  | fuel + 1, i =>
    if i < sgsize then do
      mapPage ((va + i) % 2 ^ 32) 0 perm none (min (sgsize - i) PAGE_SIZE)
      loadZeros va perm sgsize fuel ((i + PAGE_SIZE) % 2 ^ 32)
    else
      pure ()

/-- The permission of every page of the segment. -/
def Phdr.perm (ph : Phdr) : Word :=
  if ph.pFlags &&& PF_W ≠ 0 then PTE_V ||| PTE_D else PTE_V

def Phdr.offset (ph : Phdr) : Nat :=
  ph.pVaddr.toNat % PAGE_SIZE

-- A loop whose index does not wrap around is over after at most as many passes
-- as the bound is large. A loop whose index wraps around does not end.
def elfLoadSeg (ph : Phdr) : Prog Halt ε σ Unit := do
  let va := ph.pVaddr.toNat
  let binSize := ph.pFilesz.toNat
  let sgsize := ph.pMemsz.toNat
  let offset := ph.offset
  when (offset ≠ 0) (mapPage va offset ph.perm (some 0) (min binSize (PAGE_SIZE - offset)))
  let i ← loadFile mapPage va ph.perm binSize (binSize + 1)
    (if offset ≠ 0 then min binSize (PAGE_SIZE - offset) else 0)
  loadZeros mapPage va ph.perm sgsize (sgsize + 1) i

end Source

/-- A page as a process sees it. -/
@[ext]
structure UserPage where
  data : Fin PAGE_SIZE → BitVec 8
  perm : Word
deriving DecidableEq

/-- An address space: what is mapped at every page number. -/
abbrev Space : Type :=
  Nat → Option UserPage

/-- The byte a process reads at address `a`. -/
def Space.byteAt (v : Space) (a : Nat) : Option (BitVec 8) :=
  (v (a / PAGE_SIZE)).map (fun page => page.data (Fin.ofNat PAGE_SIZE a))

/-- A zeroed page with `len` bytes of the binary copied to `offset`. -/
def freshPage (bin : Nat → BitVec 8) (offset : Nat) (perm : Word) (src : Option Nat) (len : Nat) :
    UserPage where
  data o :=
    match src with
    | some k => if offset ≤ o.val ∧ o.val < offset + len then bin (k + (o.val - offset)) else 0
    | none => 0
  perm := perm

/-- What a mapper call is for: the fresh page replaces what was mapped at its address. -/
def Space.place (v : Space) (bin : Nat → BitVec 8) (va offset : Nat) (perm : Word)
    (src : Option Nat) (len : Nat) : Space :=
  Function.update v (va / PAGE_SIZE) (some (freshPage bin offset perm src len))

/-- A mapper that succeeds has placed its page in the space `view` shows. -/
def Places {ε σ : Type} (mapPage : Mapper ε σ) (view : σ → Space) (bin : Nat → BitVec 8)
    (E : Halt → Prop) (X : ε → σ → Prop) : Prop :=
  ∀ va offset perm src len s,
    wp (mapPage va offset perm src len) E X
      (fun _ t => view t = (view s).place bin va offset perm src len) s

namespace Phdr

variable (ph : Phdr)

/-- The pages that meet the segment. -/
def Meets (q : Nat) : Prop :=
  0 < ph.pMemsz.toNat ∧ ph.pVaddr.toNat / PAGE_SIZE ≤ q ∧
    q * PAGE_SIZE < ph.pVaddr.toNat + ph.pMemsz.toNat

/-- No address of the segment wraps around. -/
def NoOverflow : Prop :=
  ph.pVaddr.toNat + ph.pMemsz.toNat ≤ 2 ^ 32

/-- The index of the first call of the loops. -/
def start : Nat :=
  if ph.offset ≠ 0 then min ph.pFilesz.toNat (PAGE_SIZE - ph.offset) else 0

/-- Calls at the indices that agree with `i` up to pages do not wrap around. -/
def Ends (i : Nat) : Prop :=
  ph.pMemsz.toNat ≤ 2 ^ 32 - PAGE_SIZE + i % PAGE_SIZE

/-- The loops start at a page boundary: the segment starts at one, or its file
part reaches the next one. -/
def Aligned : Prop :=
  ph.offset = 0 ∨ PAGE_SIZE - ph.offset ≤ ph.pFilesz.toNat

/-- The loops have nothing to do: the file part is the whole segment and lies
inside the first page. -/
def OnePage : Prop :=
  ph.offset ≠ 0 ∧ ph.pFilesz.toNat = ph.pMemsz.toNat ∧ 0 < ph.pMemsz.toNat ∧
    ph.pFilesz.toNat < PAGE_SIZE - ph.offset

/-- A segment without file part that meets no more pages than it would if it
started at a page boundary. -/
def NoFile : Prop :=
  ph.offset ≠ 0 ∧ ph.pFilesz.toNat = 0 ∧ 0 < ph.pMemsz.toNat ∧
    ph.offset + (ph.pMemsz.toNat - 1) % PAGE_SIZE < PAGE_SIZE

/-- The page of the segment at page number `q`. -/
def page (bin : Nat → BitVec 8) (q : Nat) : UserPage where
  data o :=
    if ph.pVaddr.toNat ≤ q * PAGE_SIZE + o.val ∧
        q * PAGE_SIZE + o.val < ph.pVaddr.toNat + ph.pFilesz.toNat then
      bin (q * PAGE_SIZE + o.val - ph.pVaddr.toNat)
    else 0
  perm := ph.perm

/-- The space `v` with the pages of the segment below page number `hi`. -/
def filled (bin : Nat → BitVec 8) (v : Space) (hi : Nat) : Space :=
  fun q => if ph.pVaddr.toNat / PAGE_SIZE ≤ q ∧ q < hi then some (ph.page bin q) else v q

end Phdr

section Loading

variable {ε σ : Type} {mapPage : Mapper ε σ} {view : σ → Space} {bin : Nat → BitVec 8}
  {E : Halt → Prop} {X : ε → σ → Prop} {ph : Phdr} {v : Space} {s : σ} {i : Nat}

theorem Phdr.filled_update {hi : Nat} (hlo : ph.pVaddr.toNat / PAGE_SIZE ≤ hi) :
    Function.update (ph.filled bin v hi) hi (some (ph.page bin hi)) = ph.filled bin v (hi + 1) := by
  funext q
  by_cases hq : q = hi
  · subst hq
    simp [Phdr.filled, hlo]
  · have hiff : q < hi + 1 ↔ q < hi := by omega
    simp [Phdr.filled, Function.update_of_ne hq, hiff]

/-- The first call builds the segment's first page when the segment starts
inside a page. -/
theorem Phdr.page_first :
    freshPage bin ph.offset ph.perm (some 0) (min ph.pFilesz.toNat (PAGE_SIZE - ph.offset)) =
      ph.page bin (ph.pVaddr.toNat / PAGE_SIZE) := by
  refine UserPage.ext (funext fun o => ?_) rfl
  have ho : o.val < 4096 := o.isLt
  simp only [freshPage, Phdr.page, Phdr.offset, PAGE_SIZE]
  refine ite_congr (propext ?_) (fun hin => congrArg bin ?_) (fun _ => rfl)
  · omega
  · omega

/-- A call of step 1 builds a page of the segment. -/
theorem Phdr.page_file (hi : (ph.pVaddr.toNat + i) % PAGE_SIZE = 0) :
    freshPage bin 0 ph.perm (some i) (min (ph.pFilesz.toNat - i) PAGE_SIZE) =
      ph.page bin ((ph.pVaddr.toNat + i) / PAGE_SIZE) := by
  refine UserPage.ext (funext fun o => ?_) rfl
  have ho : o.val < 4096 := o.isLt
  simp only [freshPage, Phdr.page, PAGE_SIZE] at hi ⊢
  refine ite_congr (propext ?_) (fun hin => congrArg bin ?_) (fun _ => rfl)
  · omega
  · omega

/-- A call of step 2 builds a page of the segment, past the end of the file. -/
theorem Phdr.page_zeros
    (hi : (ph.pVaddr.toNat + i) % PAGE_SIZE = 0 ∧ ph.pFilesz.toNat ≤ i ∨ ph.pFilesz.toNat = 0)
    (len : Nat) :
    freshPage bin 0 ph.perm none len = ph.page bin ((ph.pVaddr.toNat + i) / PAGE_SIZE) := by
  refine UserPage.ext (funext fun o => ?_) rfl
  simp only [freshPage, Phdr.page, PAGE_SIZE] at hi ⊢
  rw [if_neg]
  rcases hi with ⟨hi, _⟩ | _
  · omega
  · omega

/-- A call at the index `i` that builds the page of the segment there extends
the filled part by it. -/
theorem Phdr.place_filled {offset len : Nat} {src : Option Nat}
    (hfresh : freshPage bin offset ph.perm src len =
      ph.page bin ((ph.pVaddr.toNat + i) / PAGE_SIZE)) :
    (ph.filled bin v ((ph.pVaddr.toNat + i) / PAGE_SIZE)).place bin (ph.pVaddr.toNat + i) offset
        ph.perm src len =
      ph.filled bin v ((ph.pVaddr.toNat + i) / PAGE_SIZE + 1) := by
  unfold Space.place
  rw [hfresh]
  exact Phdr.filled_update (Nat.div_le_div_right (Nat.le_add_right _ _))

/-- Where either loop stands: everything below its index is filled. -/
structure Filling (ph : Phdr) (bin : Nat → BitVec 8) (v : Space) (bound start i : Nat)
    (w : Space) : Prop where
  residue : i % PAGE_SIZE = start % PAGE_SIZE
  close : i < bound + PAGE_SIZE
  space : w = ph.filled bin v ((ph.pVaddr.toNat + i) / PAGE_SIZE)

theorem Filling.next {bound start len : Nat} {src : Option Nat} {w : Space}
    (h : Filling ph bin v bound start i w) (hlt : i < bound)
    (hfresh : freshPage bin 0 ph.perm src len = ph.page bin ((ph.pVaddr.toNat + i) / PAGE_SIZE)) :
    Filling ph bin v bound start (i + PAGE_SIZE)
      (w.place bin (ph.pVaddr.toNat + i) 0 ph.perm src len) where
  residue := by
    rw [add_mod_right]
    exact h.residue
  close := Nat.add_lt_add_right hlt _
  space := by
    rw [h.space, Phdr.place_filled hfresh, ← add_assoc, add_div_right _ (by decide)]

theorem Phdr.NoOverflow.address (hno : ph.NoOverflow) (hi : i < ph.pMemsz.toNat) :
    (ph.pVaddr.toNat + i) % 2 ^ 32 = ph.pVaddr.toNat + i := by
  unfold Phdr.NoOverflow at hno
  exact mod_eq_of_lt (by omega)

variable {start : Nat}

theorem Phdr.Ends.index (hends : ph.Ends start) (hr : i % PAGE_SIZE = start % PAGE_SIZE)
    (hi : i < ph.pMemsz.toNat) : (i + PAGE_SIZE) % 2 ^ 32 = i + PAGE_SIZE := by
  simp only [Phdr.Ends, PAGE_SIZE] at hends hr ⊢
  exact mod_eq_of_lt (by omega)

theorem fuel_next {bound fuel : Nat} (hfuel : bound - i < fuel + 1) (hlt : i < bound) :
    bound - (i + PAGE_SIZE) < fuel := by
  simp only [PAGE_SIZE]
  omega

section

variable (hmap : Places mapPage view bin E X) (hno : ph.NoOverflow) (hends : ph.Ends start)
include hmap hno hends

theorem loadFile_spec (hsize : ph.pFilesz.toNat ≤ ph.pMemsz.toNat)
    (haligned : (ph.pVaddr.toNat + start) % PAGE_SIZE = 0) (fuel : Nat)
    (hfuel : ph.pFilesz.toNat - i < fuel) (h : Filling ph bin v ph.pFilesz.toNat start i (view s)) :
    wp (loadFile mapPage ph.pVaddr.toNat ph.perm ph.pFilesz.toNat fuel i) E X
      (fun j t => ph.pFilesz.toNat ≤ j ∧ Filling ph bin v ph.pFilesz.toNat start j (view t)) s := by
  induction fuel generalizing i s with
  | zero => exact absurd hfuel (not_lt_zero _)
  | succ fuel ih =>
    unfold loadFile
    split_ifs with hlt
    · have hmem := lt_of_lt_of_le hlt hsize
      rw [hno.address hmem, hends.index h.residue hmem]
      refine (hmap _ _ _ _ _ s).bind (fun _ t ht => ih (fuel_next hfuel hlt) ?_)
      rw [ht]
      apply h.next hlt (Phdr.page_file ?_)
      rw [add_mod, h.residue, ← add_mod]
      exact haligned
    · exact ⟨Nat.le_of_not_lt hlt, h⟩

/-- From an index past the file part on, in a segment whose zero pages start at
a page boundary or which has no file part. -/
theorem loadZeros_spec (hend : ph.pFilesz.toNat ≤ i)
    (haligned : (ph.pVaddr.toNat + start) % PAGE_SIZE = 0 ∨ ph.pFilesz.toNat = 0) (fuel : Nat)
    (hfuel : ph.pMemsz.toNat - i < fuel) (h : Filling ph bin v ph.pMemsz.toNat start i (view s)) :
    wp (loadZeros mapPage ph.pVaddr.toNat ph.perm ph.pMemsz.toNat fuel i) E X
      (fun _ t => ∃ j, ph.pMemsz.toNat ≤ j ∧
        Filling ph bin v ph.pMemsz.toNat start j (view t)) s := by
  induction fuel generalizing i s with
  | zero => exact absurd hfuel (not_lt_zero _)
  | succ fuel ih =>
    unfold loadZeros
    split_ifs with hlt
    · rw [hno.address hlt, hends.index h.residue hlt]
      refine (hmap _ _ _ _ _ s).bind (fun _ t ht => ih (le_add_right_of_le hend)
        (fuel_next hfuel hlt) ?_)
      rw [ht]
      apply h.next hlt (Phdr.page_zeros ?_ _)
      rcases haligned with haligned | hnone
      · left
        rw [add_mod, h.residue, ← add_mod]
        exact ⟨haligned, hend⟩
      · exact Or.inr hnone
    · exact ⟨i, Nat.le_of_not_lt hlt, h⟩

end

/-- The segment in the space `w` that was `v` before. -/
structure Loaded (ph : Phdr) (bin : Nat → BitVec 8) (v w : Space) : Prop where
  mapped : ∀ q, ph.Meets q → ∃ page, w q = some page ∧
    page.perm = if ph.pFlags &&& PF_W ≠ 0 then PTE_V ||| PTE_D else PTE_V
  file : ∀ k, k < ph.pFilesz.toNat → w.byteAt (ph.pVaddr.toNat + k) = some (bin k)
  zeros : ∀ k, ph.pFilesz.toNat ≤ k → k < ph.pMemsz.toNat →
    w.byteAt (ph.pVaddr.toNat + k) = some 0
  outside : ∀ q, ¬ ph.Meets q → w q = v q

/-- When exactly the pages that meet the segment are filled, it is loaded. -/
theorem Phdr.filled_loaded {hi : Nat} (hsize : ph.pFilesz.toNat ≤ ph.pMemsz.toNat)
    (hmeets : ∀ q, ph.Meets q ↔ ph.pVaddr.toNat / PAGE_SIZE ≤ q ∧ q < hi) :
    Loaded ph bin v (ph.filled bin v hi) := by
  have hin : ∀ q, ph.Meets q → ph.filled bin v hi q = some (ph.page bin q) :=
    fun q hq => if_pos ((hmeets q).mp hq)
  have hbyte : ∀ k, k < ph.pMemsz.toNat → (ph.filled bin v hi).byteAt (ph.pVaddr.toNat + k) =
      some (if k < ph.pFilesz.toNat then bin k else 0) := by
    intro k hk
    have hq : ph.Meets ((ph.pVaddr.toNat + k) / PAGE_SIZE) := by
      simp only [Phdr.Meets, PAGE_SIZE]
      omega
    have haddr : (ph.pVaddr.toNat + k) / PAGE_SIZE * PAGE_SIZE +
        (ph.pVaddr.toNat + k) % PAGE_SIZE = ph.pVaddr.toNat + k := div_add_mod' _ _
    simp only [Space.byteAt, hin _ hq, Option.map_some, Phdr.page, Fin.val_ofNat, haddr]
    refine congrArg some (ite_congr (propext ?_) (fun _ => congrArg bin ?_) (fun _ => rfl))
    · omega
    · omega
  refine ⟨fun q hq => ⟨_, hin q hq, rfl⟩, ?_, ?_,
    fun q hq => if_neg (fun hc => hq ((hmeets q).mpr hc))⟩
  · intro k hk
    rw [hbyte k (lt_of_lt_of_le hk hsize), if_pos hk]
  · intro k hk hlt
    rw [hbyte k hlt, if_neg (not_lt.mpr hk)]

/-- The pages of the segment are those below the index where the loops end. -/
theorem Phdr.meets_iff_of_aligned {j : Nat} (hb : (ph.pVaddr.toNat + j) % PAGE_SIZE = 0)
    (hend : ph.pMemsz.toNat ≤ j) (hclose : j < ph.pMemsz.toNat + PAGE_SIZE)
    (hpos : 0 < ph.pMemsz.toNat ∨ ph.offset = 0) (q : Nat) :
    ph.Meets q ↔ ph.pVaddr.toNat / PAGE_SIZE ≤ q ∧ q < (ph.pVaddr.toNat + j) / PAGE_SIZE := by
  simp only [Phdr.Meets, Phdr.offset, PAGE_SIZE] at hb hclose hpos ⊢
  omega

theorem Phdr.NoFile.meets_iff (h : ph.NoFile) {j : Nat} (hb : j % PAGE_SIZE = 0)
    (hend : ph.pMemsz.toNat ≤ j) (hclose : j < ph.pMemsz.toNat + PAGE_SIZE) (q : Nat) :
    ph.Meets q ↔ ph.pVaddr.toNat / PAGE_SIZE ≤ q ∧ q < (ph.pVaddr.toNat + j) / PAGE_SIZE := by
  obtain ⟨-, -, hpos, hfit⟩ := h
  simp only [Phdr.Meets, Phdr.offset, PAGE_SIZE] at hb hclose hpos hfit ⊢
  omega

theorem Phdr.OnePage.meets_iff (h : ph.OnePage) (q : Nat) :
    ph.Meets q ↔ ph.pVaddr.toNat / PAGE_SIZE ≤ q ∧ q < ph.pVaddr.toNat / PAGE_SIZE + 1 := by
  obtain ⟨-, heq, _, hshort⟩ := h
  simp only [Phdr.Meets, Phdr.offset, PAGE_SIZE] at hshort ⊢
  omega

theorem Phdr.filled_start : ph.filled bin v (ph.pVaddr.toNat / PAGE_SIZE) = v :=
  funext fun q => if_neg (by omega)

/-- The first call, for a segment that starts inside a page. -/
theorem Phdr.place_first : v.place bin ph.pVaddr.toNat ph.offset ph.perm (some 0)
        (min ph.pFilesz.toNat (PAGE_SIZE - ph.offset)) =
      ph.filled bin v (ph.pVaddr.toNat / PAGE_SIZE + 1) := by
  rw [← Phdr.filled_update (le_refl _), Phdr.filled_start, ← Phdr.page_first]
  rfl

/-- Both loops, from a page boundary on. -/
theorem loadLoops_spec (hmap : Places mapPage view bin E X) (hno : ph.NoOverflow)
    (hends : ph.Ends i) (hsize : ph.pFilesz.toNat ≤ ph.pMemsz.toNat)
    (haligned : (ph.pVaddr.toNat + i) % PAGE_SIZE = 0)
    (hpos : 0 < ph.pMemsz.toNat ∨ ph.offset = 0) (hclose : i < ph.pFilesz.toNat + PAGE_SIZE)
    (hspace : view s = ph.filled bin v ((ph.pVaddr.toNat + i) / PAGE_SIZE)) :
    wp (loadFile mapPage ph.pVaddr.toNat ph.perm ph.pFilesz.toNat (ph.pFilesz.toNat + 1) i >>=
        loadZeros mapPage ph.pVaddr.toNat ph.perm ph.pMemsz.toNat (ph.pMemsz.toNat + 1))
      E X (fun _ t => Loaded ph bin v (view t)) s := by
  refine (loadFile_spec hmap hno hends hsize haligned _ (by omega)
    ⟨rfl, hclose, hspace⟩).bind (fun j t hj => ?_)
  have hfill : Filling ph bin v ph.pMemsz.toNat i j (view t) :=
    ⟨hj.2.residue, Nat.lt_of_lt_of_le hj.2.close (Nat.add_le_add_right hsize _), hj.2.space⟩
  refine (loadZeros_spec hmap hno hends hj.1 (.inl haligned) _ (by omega) hfill).post
    (fun _ u hu => ?_)
  obtain ⟨k, hk, hfill⟩ := hu
  have hb : (ph.pVaddr.toNat + k) % PAGE_SIZE = 0 := by
    rw [add_mod, hfill.residue, ← add_mod]
    exact haligned
  rw [hfill.space]
  exact Phdr.filled_loaded hsize (Phdr.meets_iff_of_aligned hb hk hfill.close hpos)

/-- The zero pages of a segment without file part. The first of them replaces
the page of the first call. -/
theorem Phdr.NoFile.loadZeros_spec (h : ph.NoFile) (hmap : Places mapPage view bin E X)
    (hno : ph.NoOverflow) (hends : ph.Ends 0)
    (hspace : view s = ph.filled bin v (ph.pVaddr.toNat / PAGE_SIZE + 1)) :
    wp (loadZeros mapPage ph.pVaddr.toNat ph.perm ph.pMemsz.toNat (ph.pMemsz.toNat + 1) 0) E X
      (fun _ t => Loaded ph bin v (view t)) s := by
  have hpos := h.2.2.1
  have hfill : Filling ph bin (view s) ph.pMemsz.toNat 0 0 (view s) :=
    ⟨rfl, Nat.add_pos_left hpos _, Phdr.filled_start.symm⟩
  refine (Elf.loadZeros_spec hmap hno hends (le_of_eq h.2.1) (.inr h.2.1) _ (by omega)
    hfill).post (fun _ u hu => ?_)
  obtain ⟨k, hk, hfill⟩ := hu
  have hmore : ph.pVaddr.toNat / PAGE_SIZE + 1 ≤ (ph.pVaddr.toNat + k) / PAGE_SIZE := by
    have hr := hfill.residue
    simp only [PAGE_SIZE] at hr ⊢
    omega
  have hbase : view u = ph.filled bin v ((ph.pVaddr.toNat + k) / PAGE_SIZE) := by
    rw [hfill.space, hspace]
    funext q
    unfold Phdr.filled
    split_ifs <;> first | rfl | omega
  rw [hbase]
  refine Phdr.filled_loaded ?_ (h.meets_iff hfill.residue hk hfill.close)
  rw [h.2.1]
  exact zero_le _

theorem loadFile_of_le {va binSize fuel : Nat} {perm : Word} (h : binSize ≤ i) :
    loadFile mapPage va perm binSize (fuel + 1) i = pure i :=
  if_neg (not_lt.mpr h)

theorem loadZeros_of_le {va sgsize fuel : Nat} {perm : Word} (h : sgsize ≤ i) :
    loadZeros mapPage va perm sgsize (fuel + 1) i = pure () :=
  if_neg (not_lt.mpr h)

section

variable (hmap : Places mapPage view bin E X) (hno : ph.NoOverflow) (hends : ph.Ends ph.start)
  (hsize : ph.pFilesz.toNat ≤ ph.pMemsz.toNat) (hcase : ph.Aligned ∨ ph.OnePage ∨ ph.NoFile)
include hmap hno hends hsize hcase

/-- The loops after a first call. -/
theorem loadLoops_of_offset (hoff : ph.offset ≠ 0)
    (hspace : view s = ph.filled bin v (ph.pVaddr.toNat / PAGE_SIZE + 1)) :
    wp (loadFile mapPage ph.pVaddr.toNat ph.perm ph.pFilesz.toNat (ph.pFilesz.toNat + 1)
          ph.start >>=
        loadZeros mapPage ph.pVaddr.toNat ph.perm ph.pMemsz.toNat (ph.pMemsz.toNat + 1))
      E X (fun _ t => Loaded ph bin v (view t)) s := by
  have hstart : ph.start = min ph.pFilesz.toNat (PAGE_SIZE - ph.offset) := if_pos hoff
  rcases hcase with haligned | hone | hnone
  · have hreach := haligned.resolve_left hoff
    have hlt : ph.offset < PAGE_SIZE := Nat.mod_lt _ (by decide)
    have hnext : ph.pVaddr.toNat + ph.start = (ph.pVaddr.toNat / PAGE_SIZE + 1) * PAGE_SIZE := by
      rw [hstart, Nat.min_eq_right hreach]
      simp only [Phdr.offset, PAGE_SIZE]
      omega
    refine loadLoops_spec hmap hno hends hsize ?_ (.inl (by omega)) (by omega) ?_
    · rw [hnext, Nat.mul_mod_left]
    · rw [hspace, hnext, Nat.mul_div_cancel _ (by decide)]
  · have hfile : ph.start = ph.pFilesz.toNat := by
      rw [hstart, Nat.min_eq_left (Nat.le_of_lt hone.2.2.2)]
    rw [loadFile_of_le (Nat.le_of_eq hfile.symm)]
    refine wp_bind.mpr (wp_pure.mpr ?_)
    rw [loadZeros_of_le (Nat.le_of_eq (hone.2.1.symm.trans hfile.symm))]
    refine wp_pure.mpr ?_
    rw [hspace]
    exact Phdr.filled_loaded hsize hone.meets_iff
  · have hzero : ph.start = 0 := by
      rw [hstart, hnone.2.1, Nat.zero_min]
    rw [hzero] at hends ⊢
    rw [loadFile_of_le (Nat.le_of_eq hnone.2.1)]
    exact wp_bind.mpr (wp_pure.mpr (hnone.loadZeros_spec hmap hno hends hspace))

theorem elfLoadSeg_spec :
    wp (elfLoadSeg mapPage ph) E X (fun _ t => Loaded ph bin (view s) (view t)) s := by
  by_cases hoff : ph.offset = 0
  · have hstart : ph.start = 0 := if_neg (not_not.mpr hoff)
    have haligned : (ph.pVaddr.toNat + 0) % PAGE_SIZE = 0 := hoff
    refine wp_bind.mpr (wp_when (fun hc => absurd hoff hc) (fun _ => ?_))
    change wp (loadFile mapPage _ _ _ _ ph.start >>= _) E X _ s
    rw [hstart] at hends ⊢
    exact loadLoops_spec hmap hno hends hsize haligned (.inr hoff)
      (Nat.add_pos_right _ (by decide)) Phdr.filled_start.symm
  · refine wp_bind.mpr (wp_when (fun _ => (hmap _ _ _ _ _ s).post
      (fun _ t ht => ?_)) (fun hc => absurd hoff hc))
    rw [Phdr.place_first] at ht
    exact loadLoops_of_offset hmap hno hends hsize hcase hoff ht

end

/-- An index that wraps around stays below the bound. -/
theorem Phdr.wraps (hends : ¬ ph.Ends start) (hr : i % PAGE_SIZE = start % PAGE_SIZE)
    (hi : i < 2 ^ 32) : i < ph.pMemsz.toNat := by
  simp only [Phdr.Ends, PAGE_SIZE] at hends hr
  omega

theorem residue_next (hr : i % PAGE_SIZE = start % PAGE_SIZE) :
    (i + PAGE_SIZE) % 2 ^ 32 % PAGE_SIZE = start % PAGE_SIZE := by
  simp only [PAGE_SIZE] at hr ⊢
  omega

theorem loadFile_residue {start va binSize fuel : Nat} {perm : Word}
    (hmap : Places mapPage view bin (fun _ => True) (fun _ _ => True))
    (hr : i % PAGE_SIZE = start % PAGE_SIZE) (hi : i < 2 ^ 32) :
    wp (loadFile mapPage va perm binSize fuel i) (fun _ => True) (fun _ _ => True)
      (fun j _ => j % PAGE_SIZE = start % PAGE_SIZE ∧ j < 2 ^ 32) s := by
  induction fuel generalizing i s with
  | zero => trivial
  | succ fuel ih =>
    unfold loadFile
    split_ifs with hlt
    · exact (hmap _ _ _ _ _ s).bind
        (fun _ t _ => ih (residue_next hr) (mod_lt _ (by decide)))
    · exact ⟨hr, hi⟩

theorem loadZeros_wraps {start fuel : Nat} (hends : ¬ ph.Ends start)
    (hmap : Places mapPage view bin (fun _ => True) (fun _ _ => True))
    (hr : i % PAGE_SIZE = start % PAGE_SIZE) (hi : i < 2 ^ 32) :
    wp (loadZeros mapPage ph.pVaddr.toNat ph.perm ph.pMemsz.toNat fuel i) (fun _ => True)
      (fun _ _ => True) (fun _ _ => False) s := by
  induction fuel generalizing i s with
  | zero => trivial
  | succ fuel ih =>
    unfold loadZeros
    rw [if_pos (Phdr.wraps hends hr hi)]
    exact (hmap _ _ _ _ _ s).bind (fun _ t _ => ih (residue_next hr) (mod_lt _ (by decide)))

/-- A segment whose index wraps around is never loaded. -/
theorem elfLoadSeg_wraps (hends : ¬ ph.Ends ph.start)
    (hmap : Places mapPage view bin (fun _ => True) (fun _ _ => True)) :
    wp (elfLoadSeg mapPage ph) (fun _ => True) (fun _ _ => True) (fun _ _ => False) s := by
  have hstart : ph.start < 2 ^ 32 := by
    unfold Phdr.start
    split_ifs with hoff
    · exact lt_of_le_of_lt (min_le_left _ _) ph.pFilesz.isLt
    · decide
  have hloops : ∀ t, wp (loadFile mapPage ph.pVaddr.toNat ph.perm ph.pFilesz.toNat
      (ph.pFilesz.toNat + 1) ph.start >>=
        loadZeros mapPage ph.pVaddr.toNat ph.perm ph.pMemsz.toNat (ph.pMemsz.toNat + 1))
      (fun _ => True) (fun _ _ => True) (fun _ _ => False) t :=
    fun t => (loadFile_residue hmap rfl hstart).bind
      (fun j u hj => loadZeros_wraps hends hmap hj.1 hj.2)
  exact wp_bind.mpr (wp_when (fun _ => (hmap _ _ _ _ _ s).mono (fun _ _ => trivial)
    (fun _ _ _ => trivial) (fun _ t _ => hloops t)) (fun _ => hloops s))

end Loading

/-- The mapper that does nothing but place its page. -/
def placing (bin : Nat → BitVec 8) : Mapper Err Space :=
  fun va offset perm src len => update (fun v => v.place bin va offset perm src len)

theorem places_placing (bin : Nat → BitVec 8) (E : Halt → Prop) (X : Err → Space → Prop) :
    Places (placing bin) id bin E X :=
  fun _ _ _ _ _ _ => wp_update.mpr rfl

section Exact

variable {ph : Phdr} {w : Space} {j : Nat}

/-- With the file part inside the first page, step 2 has placed zero pages from
that page on: the bytes of the file are gone, or the last page is missing. -/
theorem Phdr.not_loaded_of_zeros (hoff : ph.offset ≠ 0)
    (hshort : ph.pFilesz.toNat < PAGE_SIZE - ph.offset)
    (hmore : ph.pFilesz.toNat < ph.pMemsz.toNat) (hcase : ¬ ph.NoFile) (v : Space)
    (hout : ∀ q, q ≠ ph.pVaddr.toNat / PAGE_SIZE → v q = none)
    (hj : ph.pMemsz.toNat ≤ j) (hfill : Filling { ph with pFilesz := 0 } (fun _ => 7) v
      ph.pMemsz.toNat ph.pFilesz.toNat j w) : ¬ Loaded ph (fun _ => 7) (fun _ => none) w := by
  obtain ⟨hres, hclose, hspace⟩ := hfill
  have hva : ph.pVaddr.toNat / PAGE_SIZE < (ph.pVaddr.toNat + j) / PAGE_SIZE := by
    simp only [Phdr.offset, PAGE_SIZE] at hoff hshort hres ⊢
    omega
  intro h
  by_cases hfile : ph.pFilesz.toNat = 0
  · have hlast : ¬ (ph.pVaddr.toNat + ph.pMemsz.toNat - 1) / PAGE_SIZE <
        (ph.pVaddr.toNat + j) / PAGE_SIZE ∧ ph.pVaddr.toNat / PAGE_SIZE <
        (ph.pVaddr.toNat + ph.pMemsz.toNat - 1) / PAGE_SIZE := by
      simp only [Phdr.NoFile, Phdr.offset, PAGE_SIZE] at hoff hcase hres hclose ⊢
      omega
    obtain ⟨_, hpage, _⟩ := h.mapped ((ph.pVaddr.toNat + ph.pMemsz.toNat - 1) / PAGE_SIZE)
      ⟨by omega, hlast.2.le, by simp only [PAGE_SIZE]; omega⟩
    rw [hspace, Phdr.filled, if_neg (fun hc => hlast.1 hc.2), hout _ hlast.2.ne'] at hpage
    cases hpage
  · have hbyte := h.file 0 (by omega)
    rw [hspace, Space.byteAt, Nat.add_zero, Phdr.filled, if_pos ⟨le_rfl, hva⟩] at hbyte
    simp [Phdr.page] at hbyte

/-- Outside the three cases a segment of sevens is not loaded into an empty space,
although the run ends normally. -/
theorem Phdr.not_loaded (hno : ph.NoOverflow) (hsize : ph.pFilesz.toNat ≤ ph.pMemsz.toNat)
    (hends : ph.Ends ph.start) (hcase : ¬ (ph.Aligned ∨ ph.OnePage ∨ ph.NoFile)) :
    ∃ t, elfLoadSeg (placing (fun _ => 7)) ph (fun _ => none) = .ok (.ok (), t) ∧
      ¬ Loaded ph (fun _ => 7) (fun _ => none) t := by
  simp only [not_or] at hcase
  obtain ⟨haligned, hone, hnone⟩ := hcase
  obtain ⟨hoff, hshort⟩ := not_or.mp haligned
  have hstart : ph.start = ph.pFilesz.toNat := by
    rw [Phdr.start, if_pos hoff]
    exact min_eq_left (le_of_lt (not_le.mp hshort))
  have hwp : wp (elfLoadSeg (placing (fun _ => 7)) ph) (fun _ => False) (fun _ _ => False)
      (fun _ t => ¬ Loaded ph (fun _ => 7) (fun _ => none) t) (fun _ => none) := by
    refine wp_bind.mpr (wp_when (fun _ => wp_update.mpr ?_) (fun hc => absurd hoff hc))
    change wp (loadFile _ _ _ _ _ ph.start >>= _) _ _ _ _
    rw [hstart, loadFile_of_le le_rfl]
    refine wp_bind.mpr (wp_pure.mpr ?_)
    rcases hsize.eq_or_lt with heq | hmore
    · rw [loadZeros_of_le heq.ge]
      refine wp_pure.mpr fun h => ?_
      have hkept := h.outside (ph.pVaddr.toNat / PAGE_SIZE) (fun hmeets => hone
        ⟨hoff, heq, hmeets.1, not_le.mp hshort⟩)
      simp [Space.place] at hkept
    · have hstay (v : Space) : Filling { ph with pFilesz := 0 } (fun _ => 7) v ph.pMemsz.toNat
          ph.pFilesz.toNat ph.pFilesz.toNat v := by
        refine ⟨rfl, hmore.trans_le (Nat.le_add_right ..), ?_⟩
        have hsame : (ph.pVaddr.toNat + ph.pFilesz.toNat) / PAGE_SIZE =
            ph.pVaddr.toNat / PAGE_SIZE := by
          simp only [Phdr.offset, PAGE_SIZE] at hshort ⊢
          omega
        rw [hsame]
        exact Phdr.filled_start.symm
      have hnoFile : ({ ph with pFilesz := 0 } : Phdr).NoOverflow := hno
      refine (loadZeros_spec (places_placing _ _ _) hnoFile (hstart ▸ hends) (zero_le _)
        (.inr rfl) _ (lt_succ_of_le (sub_le ..)) (hstay _)).post ?_
      rintro _ t ⟨j, hj, hfill⟩
      exact Phdr.not_loaded_of_zeros hoff (not_le.mp hshort) hmore hnone _
        (fun q hq => Function.update_of_ne hq _ (fun _ => none)) hj hfill
  obtain ⟨_, t, hrun⟩ := hwp.returns
  exact ⟨t, hrun, hwp.value hrun⟩

end Exact

/-- Whatever the mapper, the binary and the space, a segment that `elf_load_seg` has
loaded is complete. -/
def LoadsAll (ph : Phdr) : Prop :=
  ∀ (ε σ : Type) (mapPage : Mapper ε σ) (view : σ → Space) (bin : Nat → BitVec 8) (s t : σ),
    Places mapPage view bin (fun _ => True) (fun _ _ => True) →
    elfLoadSeg mapPage ph s = .ok (.ok (), t) → Loaded ph bin (view s) (view t)

/-- That is so exactly when the loops start at a page boundary, when they have
nothing to do, when there is no file part and no page that the loops do not reach,
or when the index wraps around, so that the loops never end. -/
theorem segment_loaded (ph : Phdr) (hno : ph.NoOverflow)
    (hsize : ph.pFilesz.toNat ≤ ph.pMemsz.toNat) :
    LoadsAll ph ↔ (ph.Aligned ∨ ph.OnePage ∨ ph.NoFile) ∨ ¬ ph.Ends ph.start := by
  constructor
  · intro hall
    by_contra hnot
    obtain ⟨hcase, hends⟩ := not_or.mp hnot
    obtain ⟨t, hrun, hlost⟩ := Phdr.not_loaded hno hsize (not_not.mp hends) hcase
    exact hlost (hall _ _ _ id _ _ _ (places_placing _ _ _) hrun)
  · intro hcase ε σ mapPage view bin s t hmap hrun
    by_cases hends : ph.Ends ph.start
    · exact (elfLoadSeg_spec hmap hno hends hsize (hcase.resolve_right (not_not.mpr hends))).value
        hrun
    · exact absurd ((elfLoadSeg_wraps hends hmap).value hrun) id

/-- A segment from the end of one page to the start of the next. -/
def twoPages : Phdr := ⟨0x400ff0#32, 17#32, 18#32, 2#32⟩

theorem segment_loaded_twoPages :
    ∃ t, elfLoadSeg (placing (fun _ => 7)) twoPages (fun _ => none) = .ok (.ok (), t) ∧
      Loaded twoPages (fun _ => 7) (fun _ => none) t := by
  have hno : twoPages.NoOverflow := by unfold Phdr.NoOverflow; decide
  have hends : twoPages.Ends twoPages.start := by unfold Phdr.Ends; decide
  have hcase : twoPages.Aligned := .inr (by decide)
  have hmap := places_placing (fun _ => 7) (fun _ => False) (fun _ _ => False)
  obtain ⟨_, t, hrun⟩ := wp.returns (elfLoadSeg_spec (s := fun _ => none) hmap hno hends
    (by decide) (.inl hcase))
  exact ⟨t, hrun, (segment_loaded twoPages hno (by decide)).mpr (.inl (.inl hcase)) _ _ _ id _ _ _
    (places_placing _ _ _) hrun⟩

/-- A byte of the file and a byte of zeros, in the middle of a page. -/
def shortFile : Phdr := ⟨0x400010#32, 1#32, 2#32, 2#32⟩

/-- The zero page of step 2 replaces the page of the first call: the only byte
of the file is lost. -/
theorem shortFile_lost : shortFile.NoOverflow ∧ shortFile.pFilesz.toNat ≤ shortFile.pMemsz.toNat ∧
      Places (placing (fun _ => 7)) id (fun _ => 7) (fun _ => True) (fun _ _ => True) ∧
      ∃ t, elfLoadSeg (placing (fun _ => 7)) shortFile (fun _ => none) = .ok (.ok (), t) ∧
        t.byteAt 0x400010 = some 0 ∧ ¬ Loaded shortFile (fun _ => 7) (fun _ => none) t := by
  have hyields : (elfLoadSeg (placing (fun _ => 7)) shortFile).yields
      (fun _ t => t.byteAt 0x400010 = some 0) (fun _ => none) = true := by decide +kernel
  obtain ⟨_, t, hrun, hbyte⟩ := exists_of_yields hyields
  have hzero : t.byteAt 0x400010 = some 0 := of_decide_eq_true hbyte
  refine ⟨by unfold Phdr.NoOverflow; decide, by decide, places_placing _ _ _, t, hrun, hzero, ?_⟩
  intro h
  exact absurd ((h.file 0 (by decide)).symm.trans hzero) (by decide)

end MosSmp.Elf
