import MosSmp.User.Client

/-!
Reading, writing, resizing and opening files through a descriptor.
-/

namespace MosSmp.Client

open Lib Lib.Prog Fs BitVec

variable {s t : Proc} {i n offset size : Word} {pte : Pte} {p : Nat} {o : Nat}

/-! ### Addresses -/

section Layout

variable (hi : i.toNat < 32)
include hi

theorem toNat_index2fd : (index2fd i).toNat = 0x5FC00000 + i.toNat * 4096 := by
  have htable : FDTABLE.toNat = 0x5FC00000 := by decide
  have hpage : (4096 : Word).toNat = 4096 := by decide
  rw [index2fd, toNat_add, toNat_mul, htable, hpage]
  omega

theorem toNat_index2data : (index2data i).toNat = 0x60000000 + i.toNat * 0x400000 := by
  have hbase : FILEBASE.toNat = 0x60000000 := by decide
  have hmap : PDMAP.toNat = 0x400000 := by decide
  rw [index2data, toNat_add, toNat_mul, hbase, hmap]
  omega

theorem fd2num_index2fd : fd2num (index2fd i) = i := by
  apply eq_of_toNat_eq
  have htable : FDTABLE.toNat = 0x5FC00000 := by decide
  have hpage : (4096 : Word).toNat = 4096 := by decide
  rw [fd2num, toNat_udiv, toNat_sub, toNat_index2fd hi, htable, hpage]
  omega

theorem fd2data_index2fd : fd2data (index2fd i) = index2data i := by
  rw [fd2data, fd2num_index2fd hi]

theorem vpn_window (ho : o < 1024) :
    vpn (pageOf (index2data i) o) = 0x60000 + 1024 * i.toNat + o := by
  rw [vpn, pageOf, toNat_add, toNat_ofNat, toNat_index2data hi, PTMAP]
  omega

theorem legal_fd : ¬ isIllegalVa (index2fd i) := by
  have hlow : UTEMP.toNat = 0x3fe000 := by decide
  have htop : UTOP.toNat = 0x7f400000 := by decide
  rw [isIllegalVa, toNat_index2fd hi, hlow, htop]
  omega

theorem legal_window (ho : o < 1024) : ¬ isIllegalVa (pageOf (index2data i) o) := by
  have hlow : UTEMP.toNat = 0x3fe000 := by decide
  have htop : UTOP.toNat = 0x7f400000 := by decide
  rw [isIllegalVa, pageOf, toNat_add, toNat_ofNat, toNat_index2data hi, hlow, htop, PTMAP]
  omega

theorem fdLookup_mapped (hpte : s.vpt (vpn (index2fd i)) = some pte) :
    fdLookup i s = .ok (.ok (index2fd i), s) := by
  have hint : ¬ (MAXFD : Int) ≤ i.toInt := by
    rw [toInt_eq_toNat_of_lt (by omega)]
    exact not_le.mpr (by exact_mod_cast hi)
  change (if _ then _ else if _ then _ else _ : ProcProg Word) s = _
  rw [if_neg hint, if_neg (by rw [hpte]; exact Option.some_ne_none _)]
  rfl

end Layout

/-! ### Rules -/

section Rules

variable {E : Fault → Prop} {X : FsErr → Proc → Prop} {fd : Word} {grant : Proc → Proc}

theorem wp_fdLookup {Q : Word → Proc → Prop} (hi : i.toNat < 32)
    (hpte : s.vpt (vpn (index2fd i)) = some pte) (h : Q (index2fd i) s) :
    wp (fdLookup i) E X Q s := by
  unfold wp
  rw [fdLookup_mapped hi hpte]
  exact h

theorem wp_deref {Q : Filefd → Proc → Prop} (hpte : s.vpt (vpn fd) = some pte)
    (h : Q (s.contents pte.page) s) : wp (deref fd) E X Q s := by
  refine wp_bind.mpr (wp_state.mpr ?_)
  rw [hpte]
  exact h

variable {Q : Unit → Proc → Prop}

theorem wp_modify {f : Filefd → Filefd} (hpte : s.vpt (vpn fd) = some pte)
    (h : Q () (s.setFd pte.page (f (s.contents pte.page)))) : wp (modify fd f) E X Q s := by
  refine wp_bind.mpr (wp_state.mpr ?_)
  rw [hpte]
  exact h

/-- The state once the answer to a request is there. -/
def Proc.answered (s : Proc) : Proc :=
  { s with answers := s.answers.tail }

theorem wp_fsipc (herr : ∀ e, s.answers.headD none = some e → X e s.answered)
    (hok : s.answers.headD none = none → Q () (grant s.answered)) : wp (fsipc grant) E X Q s := by
  refine wp_bind.mpr (wp_state.mpr (wp_bind.mpr (wp_update.mpr ?_)))
  cases h : s.answers.headD none with
  | none => exact hok h
  | some e => exact herr e h

theorem wp_memUnmap {va : Word} (hva : ¬ isIllegalVa va) (h : Q () (s.setPte (vpn va) none)) :
    wp (memUnmap va) E X Q s :=
  wp_neg hva h

theorem wp_panicOn {m : ProcProg Unit} (h : wp m E (fun _ _ => False) Q s) :
    wp (panicOn m) E X Q s :=
  h.attempt (fun _ _ hx => hx.elim) (fun _ _ hq => hq)

theorem wp_forPages {body : Nat → ProcProg Unit} (hsize : size.toNat ≤ MAXFILESIZE)
    (h : wp (each body (List.range ((size.toNat + 4095) / PTMAP))) E X Q s) :
    wp (forPages size body) E X Q s := by
  have hmax : MAXFILESIZE = 4194304 := by decide
  refine h.bind (fun _ t ht => wp_when (fun hbig => ?_) (fun _ => ht))
  rw [PTMAP] at hbig
  omega

end Rules

/-! ### Reading and writing -/

def Proc.sizeAt (s : Proc) (pte : Pte) : Nat :=
  (s.contents pte.page).fSize.toNat

theorem round_le {a b : Word} (h : a.toNat ≤ b.toNat) (hb : b.toNat ≤ MAXFILESIZE) :
    round a ≤ round b := by
  have hmax : MAXFILESIZE = 4194304 := by decide
  have hadd : (4095 : Word).toNat = 4095 := by decide
  apply Nat.div_le_div_right
  rw [toNat_add, toNat_add, hadd]
  omega

section Truncate

variable (hi : i.toNat < 32) (hpte : s.vpt (vpn (index2fd i)) = some pte)
variable (hdev : devLookup (s.contents pte.page).fdDevId = some .file)
variable (hmax : size.toNat ≤ MAXFILESIZE)
include hi hpte hdev hmax

/-- Whatever the server answers, the client has set its size, and no error is made up.
Only a file that shrinks may have pages to unmap outside user space. -/
theorem ftruncate_sets {E : Fault → Prop} (hE : size.toNat < s.sizeAt pte → ∀ f, E f) :
    wp (ftruncate i size) E (fun e t => some e ∈ s.answers ∧ t.sizeAt pte = size.toNat)
      (fun _ t => t.sizeAt pte = size.toNat) s := by
  refine wp_neg (Nat.not_lt.mpr hmax) (wp_bind.mpr (wp_fdLookup hi hpte ?_))
  refine wp_bind.mpr (wp_deref hpte (wp_neg (not_not.mpr hdev) ?_))
  refine wp_bind.mpr (wp_modify hpte (wp_bind.mpr ?_))
  have hsize : (s.setFd pte.page { s.contents pte.page with fSize := size }).sizeAt pte =
      size.toNat := by
    simp [Proc.sizeAt, Proc.setFd]
  have hhead : ∀ {l : List (Option FsErr)} {e : FsErr}, l.headD none = some e → some e ∈ l := by
    intro l e he
    cases l with
    | nil => cases he
    | cons => exact he ▸ List.mem_cons_self
  refine wp_fsipc (fun e he => ⟨hhead he, hsize⟩) (fun _ => wp_bind.mpr ?_)
  refine (wp_each (I := fun _ t => t.answers ⊆ s.answers ∧ t.sizeAt pte = size.toNat)
    (fun j _ t ht => ?_) _ ⟨List.tail_subset _, hsize⟩).post (fun _ t ht => ?_)
  · obtain ⟨hanswers, hsized⟩ := ht
    have hnext : t.answers.tail ⊆ s.answers := fun a ha => hanswers (List.mem_of_mem_tail ha)
    refine wp_bind.mpr (wp_attempt.mpr (wp_fsipc (fun e he => wp_bind.mpr ?_)
      (fun _ => ⟨hnext, hsized⟩)))
    exact wp_fsipc (fun e' he' => ⟨hnext (hhead he'), hsized⟩)
      (fun _ => ⟨hanswers (hhead he), hsized⟩)
  by_cases hgrow : s.sizeAt pte ≤ size.toNat
  · rw [Nat.sub_eq_zero_of_le (round_le hgrow hmax)]
    exact ht.2
  refine wp_each (I := fun _ (t : Proc) => t.sizeAt pte = size.toNat) (fun j _ u hu => ?_) _ ht.2
  refine wp_bind.mpr (wp_attempt.mpr ?_)
  unfold memUnmap
  split
  · exact hE (Nat.not_le.mp hgrow) _
  · exact hu

/-- Setting the size that the file has already changes nothing. -/
theorem ftruncate_same (hsize : (s.contents pte.page).fSize = size) :
    wp (ftruncate i size) (fun _ => True) (fun _ t => t = s.answered) (fun _ _ => True) s := by
  refine wp_neg (Nat.not_lt.mpr hmax) (wp_bind.mpr (wp_fdLookup hi hpte ?_))
  refine wp_bind.mpr (wp_deref hpte (wp_neg (not_not.mpr hdev) ?_))
  have hstored : s.setFd pte.page { s.contents pte.page with fSize := size } = s := by
    rw [← hsize]
    exact congrArg (fun c => { s with contents := c }) (Function.update_eq_self ..)
  refine wp_bind.mpr (wp_modify hpte (wp_bind.mpr ?_))
  rw [hstored, hsize, Nat.sub_self]
  exact wp_fsipc (fun _ _ => rfl) (fun _ => trivial)

end Truncate

/-- The region lies in the first `size` bytes of the window of `fd`. -/
def Region.Within (r : Region) (fd : Word) (size : Nat) : Prop :=
  ∀ a, r.Has a → ∃ k, k < size ∧ a = fd2data fd + BitVec.ofNat 32 k

theorem region_within {fd len : Word} {size : Nat} (h : offset.toNat + len.toNat ≤ size) :
    Region.Within ⟨fd2data fd + offset, len⟩ fd size := by
  rintro _ ⟨k, hk, rfl⟩
  have hk : k < len.toNat := hk
  refine ⟨offset.toNat + k, by omega, ?_⟩
  rw [ofNat_add, ofNat_toNat, setWidth_eq, add_assoc]

section Access

variable (hpte : s.vpt (vpn (index2fd i)) = some pte)
include hpte

theorem fileRead_inside (h : 2 ^ 32 ≤ offset.toNat + n.toNat → s.sizeAt pte < offset.toNat) :
    wp (fileRead (index2fd i) n offset) (fun _ => False) (fun _ _ => False)
      (fun r t => t = s ∧ r.len.toNat = min n.toNat (s.sizeAt pte - offset.toNat) ∧
        r.Within (index2fd i) (s.sizeAt pte)) s := by
  refine wp_bind.mpr (wp_deref hpte ?_)
  by_cases hpast : s.sizeAt pte < offset.toNat
  · exact wp_pos hpast ⟨rfl, by simp; omega, fun a ⟨k, hk, _⟩ => absurd hk (Nat.not_lt_zero k)⟩
  have htot : (offset + n).toNat = offset.toNat + n.toNat := by
    rw [toNat_add, Nat.mod_eq_of_lt (Nat.not_le.mp (mt h hpast))]
  refine wp_neg hpast ?_
  by_cases hmore : s.sizeAt pte < (offset + n).toNat
  · have hlen : ((s.contents pte.page).fSize - offset).toNat = s.sizeAt pte - offset.toNat :=
      toNat_sub_of_le (Nat.not_lt.mp hpast)
    exact wp_pos hmore ⟨rfl, by rw [hlen]; omega, region_within (by rw [hlen]; omega)⟩
  · have hlen : n.toNat = min n.toNat (s.sizeAt pte - offset.toNat) := by omega
    exact wp_neg hmore ⟨rfl, hlen, region_within (by omega)⟩

variable (hi : i.toNat < 32) (hdev : devLookup (s.contents pte.page).fdDevId = some .file)
include hi hdev

theorem fileWrite_inside (h : 2 ^ 32 ≤ offset.toNat + n.toNat → MAXFILESIZE < (offset + n).toNat) :
    wp (fileWrite (index2fd i) n offset) (fun _ => False)
      (fun e t => e = .noDisk ∨ offset.toNat + n.toNat ≤ t.sizeAt pte)
      (fun r t => r.len = n ∧ r.Within (index2fd i) MAXFILESIZE ∧
        offset.toNat + n.toNat ≤ t.sizeAt pte) s := by
  refine wp_bind.mpr (wp_deref hpte ?_)
  by_cases hmax : MAXFILESIZE < (offset + n).toNat
  · exact wp_pos hmax (.inl rfl)
  have htot : (offset + n).toNat = offset.toNat + n.toNat := by
    rw [toNat_add, Nat.mod_eq_of_lt (Nat.not_le.mp (mt h hmax))]
  have hin : Region.Within ⟨fd2data (index2fd i) + offset, n⟩ (index2fd i) MAXFILESIZE :=
    region_within (by omega)
  refine wp_neg hmax (wp_bind.mpr (wp_when (fun hgrow => ?_) (fun hfits => ?_)))
  · rw [fd2num_index2fd hi]
    refine (ftruncate_sets hi hpte hdev (Nat.not_lt.mp hmax)
      (fun hless => absurd hless (Nat.lt_asymm hgrow))).imp ?_ ?_
    · exact fun _ t ht => .inr (by omega)
    · exact fun _ t ht => ⟨rfl, hin, by omega⟩
  · exact ⟨rfl, hin, by rw [← htot]; exact Nat.not_lt.mp hfits⟩

/-- `file_read` reads what there is of the file unless `offset + n` wraps around and
the offset lies in the file. `file_write` writes in the window only, whatever the
server answers, unless the sum wraps around to a size below the limit. -/
theorem fileAccess_inside (n offset : Word) :
    (wp (fileRead (index2fd i) n offset) (fun _ => False) (fun _ _ => False)
      (fun r t => t = s ∧ r.len.toNat = min n.toNat (s.sizeAt pte - offset.toNat) ∧
        r.Within (index2fd i) (s.sizeAt pte)) s ↔
      (2 ^ 32 ≤ offset.toNat + n.toNat → s.sizeAt pte < offset.toNat)) ∧
    ((∀ answers, wp (fileWrite (index2fd i) n offset) (fun _ => False)
      (fun e t => e = .noDisk ∨ offset.toNat + n.toNat ≤ t.sizeAt pte)
      (fun r t => r.len = n ∧ r.Within (index2fd i) MAXFILESIZE ∧
        offset.toNat + n.toNat ≤ t.sizeAt pte) { s with answers }) ↔
      (2 ^ 32 ≤ offset.toNat + n.toNat → MAXFILESIZE < (offset + n).toNat)) := by
  have htot : 2 ^ 32 ≤ offset.toNat + n.toNat →
      (offset + n).toNat = offset.toNat + n.toNat - 2 ^ 32 := by
    rw [toNat_add]
    omega
  refine ⟨⟨fun h hwrap => ?_, fileRead_inside hpte⟩, fun h hwrap => ?_,
    fun h answers => fileWrite_inside (s := { s with answers }) hpte hi hdev h⟩
  · by_contra hpast
    -- the sum has wrapped around below the size, so that all of `n` is read
    have hmore : ¬ s.sizeAt pte < (offset + n).toNat := by
      rw [htot hwrap]
      omega
    have hall : wp (fileRead (index2fd i) n offset) (fun _ => False) (fun _ _ => False)
        (fun r _ => r.len = n) s :=
      wp_bind.mpr (wp_deref hpte (wp_neg hpast (wp_neg hmore rfl)))
    obtain ⟨r, t, hrun⟩ := hall.returns
    have hlen := (h.value hrun).2.1
    rw [hall.value hrun] at hlen
    have hsize : s.sizeAt pte < 2 ^ 32 := (s.contents pte.page).fSize.isLt
    omega
  · by_contra hmax
    have hall : wp (fileWrite (index2fd i) n offset) (fun _ => False) (fun _ _ => False)
        (fun _ _ => True) { s with answers := [] } := by
      refine wp_bind.mpr (wp_deref hpte (wp_neg hmax (wp_bind.mpr
        (wp_when (fun hgrow => ?_) (fun _ => trivial)))))
      rw [fd2num_index2fd hi]
      refine (ftruncate_sets (s := { s with answers := [] }) hi hpte hdev (Nat.not_lt.mp hmax)
        (fun hless => absurd hless (Nat.lt_asymm hgrow))).imp ?_ (fun _ _ _ => trivial)
      exact fun _ _ he => absurd he.1 List.not_mem_nil
    obtain ⟨r, t, hrun⟩ := hall.returns
    have hfits := ((h []).value hrun).2.2
    have hsize : t.sizeAt pte < 2 ^ 32 := (t.contents pte.page).fSize.isLt
    omega

end Access

/-- Descriptor 1 is a file of the size, with no page in its window. -/
def oneFile (size : Word) (answers : List (Option FsErr)) : Proc where
  vpt p := if p = 0x5FC01 then some ⟨.filefd 0, PTE_D ||| PTE_LIBRARY⟩ else none
  contents _ := ⟨102, 0, 2, 0, size⟩
  fileSize _ := size
  answers := answers

/-- The last hundred bytes of a file are read, and nothing more. -/
theorem fileAccess_inside_tail :
    ∃ r, fileRead (index2fd 1) 500 4000 (oneFile 4100 []) = .ok (.ok r, oneFile 4100 []) ∧
      r.len.toNat = 100 := by
  have hread := (fileAccess_inside (s := oneFile 4100 []) (i := 1) rfl (by decide) (by decide)
    500 4000).1.mpr (by decide)
  obtain ⟨r, _, hrun⟩ := hread.returns
  obtain ⟨rfl, hlen, _⟩ := hread.value hrun
  exact ⟨r, hrun, hlen⟩

/-- With offsets at which the sum wraps around, `file_read` reads behind the end of
the file and `file_write` writes in the window of the descriptor before. -/
theorem fileAccess_outside :
    (∃ r, fileRead (index2fd 1) 0xFFFFFFF0 50 (oneFile 100 []) = .ok (.ok r, oneFile 100 []) ∧
      r.Has (fd2data (index2fd 1) + 100)) ∧
    ∃ r, fileWrite (index2fd 1) 4096 0xFFFFF000 (oneFile 100 []) = .ok (.ok r, oneFile 100 []) ∧
      r.Has (pageOf (fd2data (index2fd 0)) 1023) := by
  refine ⟨⟨⟨_, _⟩, rfl, 50, by decide, by decide⟩, ⟨_, _⟩, rfl, 0, by decide, by decide⟩

/-! ### Resizing -/

/-- The client and the server agree on the size, and the window has the pages that
the size asks for. -/
structure Consistent (s : Proc) (fd : Word) (pte : Pte) : Prop where
  size : (s.contents pte.page).fSize = s.fileSize (s.contents pte.page).fFileid
  pages : ∀ o, o < 1024 →
    (s.vpt (vpn (pageOf (fd2data fd) o)) ≠ none ↔ o * PTMAP < s.sizeAt pte)

/-- What can be done with a descriptor afterwards: reads touch pages of the file only,
and `close` succeeds if the server grants what it asks for. -/
structure Usable (s : Proc) (i : Word) : Prop where
  reads : ∀ n offset, offset.toNat + n.toNat < 2 ^ 32 →
    wp (fileRead (index2fd i) n offset) (fun _ => False) (fun _ _ => False)
      (fun r _ => ∀ a, r.Has a → s.vpt (vpn a) ≠ none) s
  closes : wp (close i) (fun _ => False) (fun _ _ => False) (fun _ _ => True)
    { s with answers := [] }

section Failed

variable (hi : i.toNat < 32) (hpte : s.vpt (vpn (index2fd i)) = some pte)
variable (hdev : devLookup (s.contents pte.page).fdDevId = some .file)
include hi

/-- The bytes below the size lie in mapped pages. -/
theorem Consistent.mapped {r : Region} (h : Consistent s (index2fd i) pte)
    (hsize : s.sizeAt pte ≤ MAXFILESIZE) (hr : r.Within (index2fd i) (s.sizeAt pte)) (a : Word)
    (ha : r.Has a) : s.vpt (vpn a) ≠ none := by
  have hmax : MAXFILESIZE = 4194304 := by decide
  obtain ⟨k, hk, rfl⟩ := hr a ha
  have hpage : vpn (fd2data (index2fd i) + BitVec.ofNat 32 k) =
      vpn (pageOf (fd2data (index2fd i)) (k / 4096)) := by
    rw [fd2data_index2fd hi, vpn_window hi (by omega), vpn, toNat_add, toNat_ofNat,
      toNat_index2data hi, PTMAP]
    omega
  rw [hpage, h.pages _ (by omega), PTMAP]
  omega

include hpte hdev

theorem close_returns (hanswers : s.answers = []) (hsize : s.sizeAt pte ≤ MAXFILESIZE) :
    wp (close i) (fun _ => False) (fun _ _ => False) (fun _ _ => True) s := by
  have hmax : MAXFILESIZE = 4194304 := by decide
  have hgranted : ∀ u : Proc, u.answers = [] → wp (fsipc id) (fun _ => False)
      (fun _ _ => False) (fun _ u => u.answers = []) u := by
    intro u hu
    refine wp_fsipc (fun e he => ?_) (fun _ => ?_)
    · simp [hu] at he
    · simp [Proc.answered, hu]
  refine wp_bind.mpr (wp_fdLookup hi hpte (wp_bind.mpr (wp_deref hpte ?_)))
  rw [hdev]
  have hclose : wp (fileClose (index2fd i)) (fun _ => False) (fun _ _ => False)
      (fun _ _ => True) s := by
    refine wp_bind.mpr (wp_deref hpte (wp_bind.mpr (wp_forPages hsize ?_)))
    refine (wp_each (I := fun _ u => u.answers = []) (fun _ _ u hu => hgranted u hu) _
      hanswers).post (fun _ u hu => wp_bind.mpr ((hgranted u hu).post (fun _ u _ => ?_)))
    refine wp_forPages hsize ((wp_each (I := fun rest _ => ∀ o ∈ rest, o < 1024) ?_ _ ?_).post
      (fun _ _ _ => trivial))
    · intro o rest u hrest
      rw [fd2data_index2fd hi]
      exact wp_memUnmap (legal_window hi (hrest o (by simp))) (fun o ho => hrest o (by simp [ho]))
    · intro o ho
      have hlt := List.mem_range.mp ho
      change o < (s.sizeAt pte + 4095) / 4096 at hlt
      omega
  refine hclose.attempt (fun _ _ h => h.elim) (fun _ _ _ => wp_bind.mpr (wp_panicOn ?_))
  exact wp_memUnmap (legal_fd hi) trivial

/-- The call fails at once, or asks the server for the size that it has already. -/
theorem ftruncate_kept {e : FsErr} (hrun : ftruncate i size s = .ok (.error e, t))
    (h : MAXFILESIZE < size.toNat ∨ size = (s.contents pte.page).fSize) :
    ∃ answers, t = { s with answers } := by
  by_cases hmax : MAXFILESIZE < size.toNat
  · have hfail : wp (ftruncate i size) (fun _ => False) (fun _ t => t = s) (fun _ _ => True) s :=
      wp_pos hmax rfl
    exact ⟨_, hfail.error hrun⟩
  · exact ⟨_, (ftruncate_same hi hpte hdev (Nat.not_lt.mp hmax)
      (h.resolve_left hmax).symm).error hrun⟩

/-- A failed `ftruncate` of an open file leaves a consistent descriptor with the old
size exactly if the new size is above the limit or is the old one, whatever the
server has refused. The descriptor can be used as before then. -/
theorem ftruncate_failed {e : FsErr} (hcons : Consistent s (index2fd i) pte)
    (hrun : ftruncate i size s = .ok (.error e, t)) :
    (Consistent t (index2fd i) pte ∧ t.sizeAt pte = s.sizeAt pte ↔
      MAXFILESIZE < size.toNat ∨ size = (s.contents pte.page).fSize) ∧
    (MAXFILESIZE < size.toNat ∨ size = (s.contents pte.page).fSize →
      s.sizeAt pte ≤ MAXFILESIZE → Usable t i) := by
  refine ⟨⟨fun h => ?_, fun h => ?_⟩, fun h hsize => ?_⟩
  · rw [or_iff_not_imp_left]
    intro hmax
    have hset := (ftruncate_sets (E := fun _ => True) hi hpte hdev (Nat.not_lt.mp hmax)
      (fun _ _ => trivial)).error hrun
    exact eq_of_toNat_eq (hset.2.symm.trans h.2)
  · obtain ⟨answers, rfl⟩ := ftruncate_kept hi hpte hdev hrun h
    exact ⟨⟨hcons.size, hcons.pages⟩, rfl⟩
  · obtain ⟨answers, rfl⟩ := ftruncate_kept hi hpte hdev hrun h
    refine ⟨fun n offset hsum => ?_, close_returns hi hpte hdev rfl hsize⟩
    refine (fileRead_inside (s := { s with answers }) hpte
      (fun hwrap => absurd hsum (Nat.not_lt.mpr hwrap))).post (fun r u hr => ?_)
    exact hcons.mapped hi hsize hr.2.2

end Failed

/-- A size above the limit. -/
theorem ftruncate_failed_large :
    ∃ t, ftruncate 1 0x500000 (oneFile 0 [some .inval]) = .ok (.error .noDisk, t) ∧
      Consistent t (index2fd 1) ⟨.filefd 0, PTE_D ||| PTE_LIBRARY⟩ := by
  have hrun : ftruncate 1 0x500000 (oneFile 0 [some .inval]) =
      .ok (.error .noDisk, oneFile 0 [some .inval]) := rfl
  refine ⟨_, hrun, ((ftruncate_failed (i := 1) (by decide) rfl (by decide)
    ⟨rfl, fun o ho => ?_⟩ hrun).1.mpr (.inl (by decide))).1⟩
  have hnone : (oneFile 0 [some .inval]).vpt (vpn (pageOf (fd2data (index2fd 1)) o)) = none := by
    rw [fd2data_index2fd (by decide), vpn_window (by decide) ho]
    exact if_neg (by omega)
  exact iff_of_false (fun h => h hnone) (Nat.not_lt_zero _)

/-- The server refuses to set the size, or to map the second page: the client keeps
the new size, and in the second case the first page. -/
theorem ftruncate_inconsistent :
    (∃ t, ftruncate 1 8192 (oneFile 0 [some .inval]) = .ok (.error .inval, t) ∧
      (t.contents (.filefd 0)).fSize = 8192 ∧ t.fileSize 0 = 0) ∧
    ∃ t, ftruncate 1 8192 (oneFile 0 [none, none, some .noMem]) = .ok (.error .noMem, t) ∧
      (t.contents (.filefd 0)).fSize = 8192 ∧ t.fileSize 0 = 0 ∧
      t.vpt (vpn (fd2data (index2fd 1))) ≠ none := by
  exact ⟨⟨_, rfl, by decide, by decide⟩, _, rfl, by decide, by decide, by decide⟩

/-! ### Opening -/

end MosSmp.Client
