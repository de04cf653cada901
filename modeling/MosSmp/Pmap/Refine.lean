import MosSmp.Pmap.Frames

/-!
The page table as a finite map. What `page_lookup` and `va2pa` answer for an
address depends on one word, the table entry of the address, and `leaf` is the
map from addresses to these words. An insertion stores one word into a table,
or hangs a blank table into the directory and stores the word there, and
`Stored` says which words of memory that changes. On the map it is an update at
one 4 KiB page.

This is a matter of memory alone: the counters of the pages are not looked at.
What is needed is that the tables of the directory are its own, which is
`Private`.
-/

namespace MosSmp

open Lib Pmap BitVec Option

/-- `PTE_FLAGS`. -/
def pteFlags (pte : Word) : Word := pte &&& 0xfff#32

theorem getLsbD_lowTen (w : Word) (k : Nat) :
    (lowTen w).val.testBit k = (w.getLsbD k && decide (k < 10)) := by
  have hval : (lowTen w).val = w.toNat &&& (2 ^ 10 - 1) := toNat_and w _
  rw [hval, Nat.testBit_and, Nat.testBit_two_pow_sub_one]
  rfl

/-- The two indices of an address name its 4 KiB page. -/
theorem shift_eq_iff (va va' : Word) :
    va' >>> 12 = va >>> 12 ↔ pdx va' = pdx va ∧ ptx va' = ptx va := by
  constructor
  · intro h
    have hdir : va' >>> 22 = va >>> 22 := by
      have hcongr := congrArg (fun w : Word => w >>> 10) h
      simpa only [← shiftRight_add] using hcongr
    exact ⟨congrArg lowTen hdir, congrArg lowTen h⟩
  · rintro ⟨hd, ht⟩
    apply eq_of_getLsbD_eq
    intro k hk
    have hbit : ∀ {w w' : Word} {k : Nat}, lowTen w' = lowTen w → k < 10 →
        w'.getLsbD k = w.getLsbD k := by
      intro w w' k heq hlt
      have htest := congrArg (fun x : Idx => x.val.testBit k) heq
      simpa [getLsbD_lowTen, hlt] using htest
    by_cases hlow : k < 10
    · exact hbit ht hlow
    · by_cases hhigh : k < 20
      · have htop := hbit hd (show k - 10 < 10 by omega)
        rw [getLsbD_ushiftRight, getLsbD_ushiftRight] at htop
        rw [getLsbD_ushiftRight, getLsbD_ushiftRight]
        have hadd : 22 + (k - 10) = 12 + k := by omega
        rw [hadd] at htop
        exact htop
      · rw [getLsbD_ushiftRight, getLsbD_ushiftRight,
          getLsbD_of_ge _ _ (by omega), getLsbD_of_ge _ _ (by omega)]

theorem pteFlags_mapEntry {n : Nat} (pp : Page n) {perm : Word} (h : perm < 0x1000#32) :
    pteFlags (mapEntry pp perm) = perm ||| PTE_C_CACHEABLE ||| PTE_V := by
  have hlow : page2pa pp &&& 0xfff#32 = 0#32 := by
    rw [← pteAddr_page2pa]
    unfold pteAddr
    rw [BitVec.and_assoc, show ~~~0xfff#32 &&& 0xfff#32 = 0#32 from rfl, BitVec.and_zero]
  have hperm : perm &&& 0xfff#32 = perm := by
    apply eq_of_toNat_eq
    have hlt : perm.toNat < 2 ^ 12 := by simpa [lt_def] using h
    rw [toNat_and, show (0xfff#32).toNat = 2 ^ 12 - 1 from rfl,
      Nat.and_two_pow_sub_one_eq_mod, Nat.mod_eq_of_lt hlt]
  unfold pteFlags mapEntry
  rw [and_or_distrib_right, and_or_distrib_right, and_or_distrib_right, hlow, hperm, zero_or]
  rfl

namespace Pmap

variable {n : Nat}

/-- `va2pa`: the address of the page mapped at `va`, all ones if there is
none. -/
def va2pa (m : Pmap n) (pgdir : Page n) (va : Word) : Option Word :=
  if pteValid (m.read (pgdir, pdx va)) then
    (pa2page (pteAddr (m.read (pgdir, pdx va))) : Option (Page n)).map (fun table =>
      if pteValid (m.read (table, ptx va)) then pteAddr (m.read (table, ptx va)) else ~~~0#32)
  else some (~~~0#32)

/-- The page that `page_lookup` returns, with the flags of the entry to which
it makes `*ppte` point. -/
def lookupFlags (m : Pmap n) (pgdir : Page n) (va : Word) : Option (Option (Page n × Word)) :=
  (m.pageLookup pgdir va).map (Option.map (fun r => (r.1, pteFlags (m.read r.2))))

/-- The valid table entry for `va`, if there is one. Reading it panics when
the directory entry lies beyond the last page. -/
def leaf (m : Pmap n) (d : Page n) (va : Word) : Option (Option (EntryPtr n × Word)) :=
  if pteValid (m.mem d (pdx va)) then
    (pa2page (m.mem d (pdx va))).map (fun t =>
      if pteValid (m.mem t (ptx va)) then some ((t, ptx va), m.mem t (ptx va)) else none)
  else some none

variable {m m' : Pmap n} {dirs : Page n → Prop} {d d' q t pp : Page n} {va va' w perm : Word}

theorem leaf_of_no_table (hno : pteValid (m.mem d (pdx va)) = false) : m.leaf d va = some none := by
  unfold leaf
  rw [hno]
  rfl

theorem leaf_of_table (ht : entryPage (m.mem d (pdx va)) = some t) :
    m.leaf d va = some (if pteValid (m.mem t (ptx va)) then
      some ((t, ptx va), m.mem t (ptx va)) else none) := by
  obtain ⟨hv, hpa⟩ := entryPage_some ht
  unfold leaf
  rw [if_pos hv, hpa]
  rfl

theorem leaf_some {pte : EntryPtr n} (h : m.leaf d va = some (some (pte, w))) :
    ∃ t, entryPage (m.mem d (pdx va)) = some t ∧ pte = (t, ptx va) ∧ m.mem t (ptx va) = w ∧
      pteValid w = true := by
  unfold leaf at h
  split at h
  · next hv =>
    obtain ⟨t, hpa, ht⟩ := map_eq_some_iff.mp h
    split at ht <;> cases ht
    next hw =>
    refine ⟨t, ?_, rfl, rfl, hw⟩
    unfold entryPage
    rw [if_pos hv, hpa]
  · cases h

theorem leaf_none (h : m.leaf d va = some none) :
    pteValid (m.mem d (pdx va)) = false ∨ ∃ t, entryPage (m.mem d (pdx va)) = some t ∧
      pteValid (m.mem t (ptx va)) = false := by
  unfold leaf at h
  split at h
  · next hv =>
    obtain ⟨t, hpa, ht⟩ := map_eq_some_iff.mp h
    split at ht
    · cases ht
    · next hw =>
      refine .inr ⟨t, ?_, by simpa using hw⟩
      unfold entryPage
      rw [if_pos hv, hpa]
  · next hv => exact .inl (by simpa using hv)

/-- The entry of an address depends on one word of the directory and one word
of the table. -/
theorem leaf_congr (hdir : m'.mem d (pdx va) = m.mem d (pdx va))
    (htable : ∀ t, entryPage (m.mem d (pdx va)) = some t →
      m'.mem t (ptx va) = m.mem t (ptx va)) : m'.leaf d va = m.leaf d va := by
  unfold leaf
  rw [hdir]
  split
  · next hv =>
    cases ht : (pa2page (m.mem d (pdx va)) : Option (Page n)) with
    | none => rfl
    | some t =>
      have hentry : entryPage (m.mem d (pdx va)) = some t := by
        unfold entryPage
        rw [if_pos hv, ht]
      simp only [map_some, htable t hentry]
  · rfl

/-- What `page_lookup` answers, from the entry. -/
def answer : Option (EntryPtr n × Word) → Option (Option (Page n × EntryPtr n))
  | none => some none
  | some (pte, w) => (pa2page w).map (fun pp => some (pp, pte))

theorem pageLookup_eq (m : Pmap n) (d : Page n) (va : Word) :
    m.pageLookup d va = (m.leaf d va).bind answer := by
  unfold pageLookup pgdirWalk leaf entryOf read
  rw [pa2page_pteAddr]
  by_cases hv : pteValid (m.mem d (pdx va)) = true
  · rw [if_pos hv, if_pos hv]
    cases ht : (pa2page (m.mem d (pdx va)) : Option (Page n)) with
    | none => rfl
    | some =>
      simp only [map_some, bind_some]
      split <;> rfl
  · rw [if_neg hv, if_neg hv]
    rfl

theorem va2pa_eq (m : Pmap n) (d : Page n) (va : Word) :
    m.va2pa d va = (m.leaf d va).map (fun r => r.elim (~~~0#32) (fun e => pteAddr e.2)) := by
  unfold va2pa leaf read
  rw [pa2page_pteAddr]
  split
  · rw [map_map]
    congr 1
    funext t
    simp only [Function.comp_apply]
    split <;> rfl
  · rfl

theorem lookupFlags_eq (m : Pmap n) (d : Page n) (va : Word) :
    m.lookupFlags d va = (m.leaf d va).bind (fun r => match r with
      | none => some none
      | some e => (pa2page e.2).map (fun pp => some (pp, pteFlags e.2))) := by
  unfold lookupFlags
  rw [pageLookup_eq]
  cases hleaf : m.leaf d va with
  | none => rfl
  | some r =>
    cases r with
    | none => rfl
    | some e =>
      obtain ⟨_, w⟩ := e
      obtain ⟨t, _, rfl, hw, _⟩ := leaf_some hleaf
      have hread : m.read (t, ptx va) = w := hw
      simp only [Option.bind_some, answer, Option.map_map, Function.comp_def, Option.map_some,
        hread]

/-- The two states answer alike for `va`: `page_lookup` with the pointer it
gives out, the flags behind that pointer, and `va2pa`. -/
structure SameAnswers (m m' : Pmap n) (d : Page n) (va : Word) : Prop where
  lookup : m'.pageLookup d va = m.pageLookup d va
  flags : m'.lookupFlags d va = m.lookupFlags d va
  address : m'.va2pa d va = m.va2pa d va

theorem sameAnswers_of_leaf (h : m'.leaf d va = m.leaf d va) : SameAnswers m m' d va where
  lookup := by rw [pageLookup_eq, pageLookup_eq, h]
  flags := by rw [lookupFlags_eq, lookupFlags_eq, h]
  address := by rw [va2pa_eq, va2pa_eq, h]

/-- From `m` to `m'` the map of directory `d` is changed at the 4 KiB page of
`va` and nowhere else, and no other directory is affected. -/
structure Updated (m m' : Pmap n) (dirs : Page n → Prop) (d : Page n) (va : Word)
    (target : Option (Page n × Word)) : Prop where
  lookup : ∀ va' : Word, va' >>> 12 = va >>> 12 → m'.lookupFlags d va' = some target
  address : ∀ va' : Word, va' >>> 12 = va >>> 12 →
    m'.va2pa d va' = some (target.elim (~~~0#32) (fun r => page2pa r.1))
  elsewhere : ∀ va' : Word, va' >>> 12 ≠ va >>> 12 → SameAnswers m m' d va'
  others : ∀ d' (va' : Word), dirs d' → d' ≠ d → SameAnswers m m' d' va'

/-- The pages with `dirs` are the page directories, and the tables of the
directory `d` are its own: each is used once, by no other directory, and is
neither a directory itself nor free for allocation. -/
structure Private (m : Pmap n) (dirs : Page n → Prop) (d : Page n) : Prop where
  dir : dirs d
  once : ∀ i i' (t : Page n), entryPage (m.mem d i) = some t → entryPage (m.mem d i') = some t →
    i = i'
  plain : ∀ i (t : Page n), entryPage (m.mem d i) = some t → ¬ dirs t
  apart : ∀ d' i' (t : Page n), dirs d' → d' ≠ d → entryPage (m.mem d' i') = some t →
    t ≠ d ∧ ∀ i, entryPage (m.mem d i) ≠ some t
  list : m.pageFreeList.Holds m.Free
  unused : ∀ p, m.Free p → ¬ dirs p ∧ ∀ d' i', dirs d' → entryPage (m.mem d' i') ≠ some p

/-- In an accounted state in which no directory shares a table, every
directory has its tables to itself. -/
theorem Accounted.private {own : Page n → Nat} {s : Page n → Bool}
    (h : m.Accounted (fun d _ => s d) own) (hd : s d = true) :
    m.Private (fun p => s p = true) d := by
  have htable : ∀ {d i t}, s d = true → entryPage (m.mem d i) = some t →
      m.tableAt (fun d _ => s d) d i = some t := by
    intro d i t hs ht
    unfold tableAt
    rw [if_pos hs, ht]
  refine ⟨hd, ?_, ?_, ?_, h.list, ?_⟩
  · intro i i' t ht ht'
    exact (h.tables.alone d i d i' t (htable hd ht) (htable hd ht')).2
  · intro i t ht hs
    exact absurd hs (by simp [h.tables.plain d i t (htable hd ht) 0])
  · intro d' i' t hs hne ht
    refine ⟨?_, fun i ht' => ?_⟩
    · rintro rfl
      exact h.tables.ne_dir (j := 0) (htable hs ht) hd rfl
    · exact hne (h.tables.alone d' i' d i t (htable hs ht) (htable hd ht')).1
  · intro p hfree
    obtain ⟨hdir, hslot⟩ := h.unused_of_free hfree
    refine ⟨fun hs => absurd hs (by simp [hdir 0]), fun d' i' hs ht => ?_⟩
    exact hslot (.inl (d', i')) (htable hs ht)

/-- The words of memory that storing `w` as the entry of `va` changes. -/
inductive Stored (m m' : Pmap n) (d : Page n) (va w : Word) : Prop
  | table (t : Page n) (ht : entryPage (m.mem d (pdx va)) = some t)
      (hmem : ∀ q j, m'.mem q j = if q = t ∧ j = ptx va then w else m.mem q j)
  | fresh (t : Page n) (hno : pteValid (m.mem d (pdx va)) = false) (hfree : m.Free t)
      (hmem : ∀ q j, m'.mem q j = if q = d ∧ j = pdx va then tableEntry t
        else if q = t then if j = ptx va then w else 0 else m.mem q j)

section

variable (hn : n ≤ 2 ^ 20)
include hn

section

variable (h : Stored m m' d va w)
include h

/-- On the map, storing an entry is an update at one page. -/
theorem Stored.leaf_at (hdir : ∀ t, entryPage (m.mem d (pdx va)) = some t → t ≠ q)
    (htab : ∀ t, entryPage (m.mem q (pdx va')) = some t → t ≠ d ∧
      (entryPage (m.mem d (pdx va)) = some t → q = d ∧ pdx va' = pdx va))
    (hfree : ∀ t, m.Free t → t ≠ d ∧ t ≠ q ∧ entryPage (m.mem q (pdx va')) ≠ some t) :
    ∃ t, m'.leaf q va' = if q = d ∧ va' >>> 12 = va >>> 12 then
      some (if pteValid w then some ((t, ptx va), w) else none) else m.leaf q va' := by
  have hsame := shift_eq_iff va va'
  cases h with
  | table t ht hmem =>
    refine ⟨t, ?_⟩
    have hkept : m'.mem q (pdx va') = m.mem q (pdx va') := by
      rw [hmem, if_neg (fun heq => hdir t ht heq.1.symm)]
    by_cases hhere : q = d ∧ va' >>> 12 = va >>> 12
    · obtain ⟨rfl, hshift⟩ := hhere
      obtain ⟨hpd, hpt⟩ := hsame.mp hshift
      have hentry : entryPage (m'.mem q (pdx va')) = some t := by rw [hkept, hpd, ht]
      have hword : m'.mem t (ptx va') = w := by rw [hmem, if_pos ⟨rfl, hpt⟩]
      rw [if_pos ⟨rfl, hshift⟩, leaf_of_table hentry, hword, hpt]
    · rw [if_neg hhere]
      -- another address has another table or another index into this one
      refine leaf_congr hkept (fun t' ht' => ?_)
      have hne : ¬ (t' = t ∧ ptx va' = ptx va) := by
        rintro ⟨rfl, hpt⟩
        obtain ⟨hqd, hpd⟩ := (htab t' ht').2 ht
        exact hhere ⟨hqd, hsame.mpr ⟨hpd, hpt⟩⟩
      rw [hmem, if_neg hne]
  | fresh t hno hft hmem =>
    refine ⟨t, ?_⟩
    obtain ⟨htd, htq, hunused⟩ := hfree t hft
    by_cases hpd : q = d ∧ pdx va' = pdx va
    · obtain ⟨rfl, hpd⟩ := hpd
      have hentry : entryPage (m'.mem q (pdx va')) = some t := by
        rw [hmem, if_pos ⟨rfl, hpd⟩]
        exact entryPage_tableEntry hn t
      have hword : m'.mem t (ptx va') = if ptx va' = ptx va then w else 0 := by
        rw [hmem, if_neg (fun heq => htd heq.1), if_pos rfl]
      rw [leaf_of_table hentry, hword]
      by_cases hpt : ptx va' = ptx va
      · have hhere : q = q ∧ va' >>> 12 = va >>> 12 := ⟨rfl, hsame.mpr ⟨hpd, hpt⟩⟩
        rw [if_pos hpt, if_pos hhere, hpt]
      · -- the rest of the new table is blank, and there was no table before
        have hout : ¬ (q = q ∧ va' >>> 12 = va >>> 12) := fun heq => hpt (hsame.mp heq.2).2
        rw [if_neg hpt, if_neg hout, leaf_of_no_table (by rw [hpd, hno])]
        rfl
    · rw [if_neg (fun heq => hpd ⟨heq.1, (hsame.mp heq.2).1⟩)]
      refine leaf_congr ?_ (fun t' ht' => ?_)
      · rw [hmem, if_neg hpd, if_neg htq.symm]
      · have hne : t' ≠ t := by
          rintro rfl
          exact hunused ht'
        rw [hmem, if_neg (fun heq => (htab t' ht').1 heq.1), if_neg hne]

theorem Stored.leaf (hp : m.Private dirs d) (va' : Word) :
    ∃ t, m'.leaf d va' = if va' >>> 12 = va >>> 12 then
      some (if pteValid w then some ((t, ptx va), w) else none) else m.leaf d va' := by
  have hne : ∀ i t, entryPage (m.mem d i) = some t → t ≠ d := by
    rintro i t ht rfl
    exact hp.plain _ _ ht hp.dir
  have hfree : ∀ t, m.Free t → t ≠ d ∧ t ≠ d ∧ entryPage (m.mem d (pdx va')) ≠ some t := by
    intro t hfree
    obtain ⟨hplain, hunused⟩ := hp.unused t hfree
    have htd : t ≠ d := fun heq => hplain (heq ▸ hp.dir)
    exact ⟨htd, htd, hunused d _ hp.dir⟩
  obtain ⟨t, ht⟩ := h.leaf_at hn (hne _)
    (fun t ht => ⟨hne _ t ht, fun ht' => ⟨rfl, hp.once _ _ t ht ht'⟩⟩) hfree
  simp only [true_and] at ht
  exact ⟨t, ht⟩

theorem Stored.leaf_other (hp : m.Private dirs d) (hd : dirs d') (hne : d' ≠ d) (va' : Word) :
    m'.leaf d' va' = m.leaf d' va' := by
  have htab : ∀ t, entryPage (m.mem d' (pdx va')) = some t → t ≠ d ∧
      (entryPage (m.mem d (pdx va)) = some t → d' = d ∧ pdx va' = pdx va) := by
    intro t ht
    obtain ⟨htd, hno⟩ := hp.apart d' _ t hd hne ht
    exact ⟨htd, fun ht' => absurd ht' (hno _)⟩
  have hfree : ∀ t, m.Free t → t ≠ d ∧ t ≠ d' ∧ entryPage (m.mem d' (pdx va')) ≠ some t := by
    intro t hfree
    obtain ⟨hplain, hunused⟩ := hp.unused t hfree
    exact ⟨fun heq => hplain (heq ▸ hp.dir), fun heq => hplain (heq ▸ hd), hunused d' _ hd⟩
  obtain ⟨t, ht⟩ := h.leaf_at hn (fun t ht heq => hp.plain _ _ ht (heq ▸ hd)) htab hfree
  rwa [if_neg (fun hc => hne hc.1)] at ht

end

/-- Storing a valid entry maps its page. -/
theorem Stored.mapped (h : Stored m m' d va (mapEntry pp perm)) (hp : m.Private dirs d)
    (hperm : perm < 0x1000#32) :
    Updated m m' dirs d va (some (pp, perm ||| PTE_C_CACHEABLE ||| PTE_V)) := by
  have haddr := pteAddr_mapEntry_of_lt pp hperm
  have hleaf : ∀ va' : Word, va' >>> 12 = va >>> 12 →
      ∃ t, m'.leaf d va' = some (some ((t, ptx va), mapEntry pp perm)) := by
    intro va' hshift
    obtain ⟨t, ht⟩ := h.leaf hn hp va'
    rw [if_pos hshift, if_pos (pteValid_mapEntry pp perm)] at ht
    exact ⟨t, ht⟩
  refine ⟨fun va' hshift => ?_, fun va' hshift => ?_, fun va' hshift => ?_,
    fun d' va' hd hne => sameAnswers_of_leaf (h.leaf_other hn hp hd hne va')⟩
  · obtain ⟨t, ht⟩ := hleaf va' hshift
    rw [lookupFlags_eq, ht]
    simp only [bind_some, pa2page_of_addr hn haddr, map_some, pteFlags_mapEntry pp hperm]
  · obtain ⟨t, ht⟩ := hleaf va' hshift
    rw [va2pa_eq, ht]
    simp only [map_some, elim_some, haddr]
  · obtain ⟨t, ht⟩ := h.leaf hn hp va'
    rw [if_neg hshift] at ht
    exact sameAnswers_of_leaf ht

/-- Storing a zero unmaps the page of the address. -/
theorem Stored.unmapped (h : Stored m m' d va 0) (hp : m.Private dirs d) :
    Updated m m' dirs d va none := by
  have hleaf : ∀ va' : Word, va' >>> 12 = va >>> 12 → m'.leaf d va' = some none := by
    intro va' hshift
    obtain ⟨t, ht⟩ := h.leaf hn hp va'
    rw [if_pos hshift] at ht
    exact ht
  refine ⟨fun va' hshift => ?_, fun va' hshift => ?_, fun va' hshift => ?_,
    fun d' va' hd hne => sameAnswers_of_leaf (h.leaf_other hn hp hd hne va')⟩
  · rw [lookupFlags_eq, hleaf va' hshift]
    rfl
  · rw [va2pa_eq, hleaf va' hshift]
    rfl
  · obtain ⟨t, ht⟩ := h.leaf hn hp va'
    rw [if_neg hshift] at ht
    exact sameAnswers_of_leaf ht

end

theorem pgdirWalk_of_table (ht : entryPage (m.mem d (pdx va)) = some t) (create : Bool) :
    m.pgdirWalk d va create = some (.ok (some (t, ptx va)), m) := by
  obtain ⟨hv, hpa⟩ := entryPage_some ht
  unfold pgdirWalk entryOf read
  rw [if_pos hv, pa2page_pteAddr, hpa]
  rfl

theorem pgdirWalk_of_no_table (hno : pteValid (m.mem d (pdx va)) = false) :
    m.pgdirWalk d va false = some (.ok none, m) := by
  unfold pgdirWalk read
  simp only [hno, Bool.false_eq_true, if_false]

/-- With a table in place, mapping a page is one store. -/
theorem mapPage_of_table (ht : entryPage (m.mem d (pdx va)) = some t) : m.mapPage d pp va perm =
      some (.ok (), (m.write (t, ptx va) (mapEntry pp perm)).incref pp) := by
  unfold mapPage
  rw [pgdirWalk_of_table ht]

/-- Mapping a page where there is no table yet: the head of the free list
becomes the table. -/
theorem mapPage_newTable (hn : n ≤ 2 ^ 20) (hno : pteValid (m.mem d (pdx va)) = false)
    (hfirst : m.pageFreeList.first = some t) :
    m.mapPage d pp va perm = some (.ok (), (((({ m with
      pageFreeList := m.pageFreeList.remove t
      mem := Function.update m.mem t (fun _ => 0) } : Pmap n).write (d, pdx va)
        (tableEntry t)).incref t).write (t, ptx va) (mapEntry pp perm)).incref pp) := by
  have hno' : pteValid (m.read (d, pdx va)) = false := hno
  unfold mapPage pgdirWalk pageAlloc
  simp only [hno', hfirst, Bool.false_eq_true, if_false, if_true, entryOf_newTable hn,
    Option.map_some]

/-- Without one, the table is a page off the free list; if there is none,
nothing has happened. -/
theorem mapPage_of_no_table (pp : Page n) (perm : Word) (hn : n ≤ 2 ^ 20)
    (hlist : m.pageFreeList.Holds m.Free)
    (hd : ¬ m.Free d) (hno : pteValid (m.mem d (pdx va)) = false) :
    m.mapPage d pp va perm = some (.error .noMem, m) ∨
      ∃ m', m.mapPage d pp va perm = some (.ok (), m') ∧ Stored m m' d va (mapEntry pp perm) := by
  cases hfirst : m.pageFreeList.first with
  | none =>
    left
    unfold mapPage pgdirWalk pageAlloc read
    simp only [hno, hfirst, Bool.false_eq_true, if_false, if_true]
  | some t =>
    right
    have hfree : m.Free t := hlist.first hfirst
    have htd : t ≠ d := by
      rintro rfl
      exact hd hfree
    refine ⟨_, mapPage_newTable hn hno hfirst, .fresh t hno hfree (fun q j => ?_)⟩
    -- the entry is in the new table, the table in the directory, and the rest is cleared
    change ((write _ _ _).mem q j) = _
    rw [mem_write]
    by_cases hq : q = t
    · subst hq
      by_cases hj : j = ptx va
      · simp [hj, htd]
      · simp [hj, htd, incref, mem_write]
    · simp [hq, incref, mem_write]

variable {r : Except Err Unit}

/-- `page_insert` where the address has a table: it stores the entry, over an
old one or not. -/
theorem pageInsert_of_table (htd : t ≠ d) (ht : entryPage (m.mem d (pdx va)) = some t)
    (h : m.pageInsert d pp va perm = some (r, m')) :
    r = .ok () ∧ Stored m m' d va (mapEntry pp perm) := by
  unfold pageInsert at h
  rw [pgdirWalk_of_table ht] at h
  simp only at h
  split at h
  · split at h
    · cases h
    · next old hold =>
      split at h
      · -- another page is mapped: its entry is cleared before the new one is stored
        obtain ⟨m₁, hdec, hmap⟩ := bind_eq_some_iff.mp h
        have hmem : m₁.mem = m.mem := mem_pageDecref hdec
        have ht₁ : entryPage ((m₁.write (t, ptx va) 0).mem d (pdx va)) = some t := by
          rw [mem_write, if_neg (fun heq => htd heq.1.symm), hmem, ht]
        rw [mapPage_of_table ht₁] at hmap
        cases hmap
        refine ⟨rfl, .table t ht (fun q j => ?_)⟩
        change ((write _ _ _).mem q j) = _
        rw [mem_write, mem_write, hmem]
        split <;> rfl
      · cases h
        exact ⟨rfl, .table t ht (fun q j => mem_write m t q _ j _)⟩
  · rw [mapPage_of_table ht] at h
    cases h
    exact ⟨rfl, .table t ht (fun q j => mem_write m t q _ j _)⟩

/-- `page_insert` stores the entry, or reports that there is no memory for a
table and has changed nothing. -/
theorem pageInsert_stored (hn : n ≤ 2 ^ 20) (hlist : m.pageFreeList.Holds m.Free) (hd : ¬ m.Free d)
    (hself : entryPage (m.mem d (pdx va)) ≠ some d) (h : m.pageInsert d pp va perm = some (r, m')) :
    (r = .ok () ∧ Stored m m' d va (mapEntry pp perm)) ∨ (r = .error .noMem ∧ m' = m) := by
  cases hv : pteValid (m.mem d (pdx va)) with
  | false =>
    unfold pageInsert at h
    rw [pgdirWalk_of_no_table hv] at h
    rcases mapPage_of_no_table pp perm hn hlist hd hv with
      hfull | ⟨m₁, hmap, hstored⟩
    · cases h.symm.trans hfull
      exact .inr ⟨rfl, rfl⟩
    · cases h.symm.trans hmap
      exact .inl ⟨rfl, hstored⟩
  | true =>
    left
    cases ht : (entryPage (m.mem d (pdx va)) : Option (Page n)) with
    | none =>
      have hpa : (pa2page (m.mem d (pdx va)) : Option (Page n)) = none := by
        unfold entryPage at ht
        rwa [if_pos hv] at ht
      unfold pageInsert pgdirWalk entryOf read at h
      simp only [hv, if_true, pa2page_pteAddr, hpa, map_none] at h
      cases h
    | some t =>
      have htd : t ≠ d := by
        rintro rfl
        exact hself ht
      exact pageInsert_of_table htd ht h

theorem Private.pageInsert (hn : n ≤ 2 ^ 20) (hp : m.Private dirs d)
    (h : m.pageInsert d pp va perm = some (r, m')) :
    (r = .ok () ∧ Stored m m' d va (mapEntry pp perm)) ∨ (r = .error .noMem ∧ m' = m) :=
  pageInsert_stored hn hp.list (fun hfree => (hp.unused d hfree).1 hp.dir)
    (fun hself => hp.plain _ _ hself hp.dir) h

/-- `page_remove` clears the entry, if there is one. -/
theorem pageRemove_stored (h : m.pageRemove d va = some m') :
    Stored m m' d va 0 ∨ (m.leaf d va = some none ∧ m' = m) := by
  unfold pageRemove at h
  rw [pageLookup_eq] at h
  cases hleaf : m.leaf d va with
  | none =>
    rw [hleaf] at h
    cases h
  | some r =>
    rw [hleaf, bind_some] at h
    cases r with
    | none => exact .inr ⟨rfl, (some.inj h).symm⟩
    | some e =>
      left
      obtain ⟨_, w⟩ := e
      obtain ⟨t, ht, rfl, _, _⟩ := leaf_some hleaf
      cases hpa : (pa2page w : Option (Page n)) with
      | none =>
        simp only [answer, hpa, map_none] at h
        cases h
      | some =>
        simp only [answer, hpa, map_some] at h
        obtain ⟨_, hdec, rfl⟩ := map_eq_some_iff.mp h
        refine .table t ht (fun q j => ?_)
        rw [mem_write, mem_pageDecref hdec]

theorem updated_of_unmapped (h : m.leaf d va = some none) : Updated m m dirs d va none := by
  have hleaf : ∀ va' : Word, va' >>> 12 = va >>> 12 → m.leaf d va' = some none := by
    intro va' hshift
    obtain ⟨hpd, hpt⟩ := (shift_eq_iff va va').mp hshift
    unfold leaf at h ⊢
    rw [hpd, hpt, h]
  refine ⟨fun va' hshift => ?_, fun va' hshift => ?_, fun _ _ => ⟨rfl, rfl, rfl⟩,
    fun _ _ _ _ => ⟨rfl, rfl, rfl⟩⟩
  · rw [lookupFlags_eq, hleaf va' hshift]
    rfl
  · rw [va2pa_eq, hleaf va' hshift]
    rfl

theorem pageDecref_isSome (h : m.ppRef pp ≠ 0) : ∃ m', m.pageDecref pp = some m' := by
  unfold pageDecref
  rw [if_neg h]
  simp only
  split <;> exact ⟨_, rfl⟩

/-- The lookup of `va` does not panic, and the page found has a reference to
give back. -/
def Counted (m : Pmap n) (d : Page n) (va : Word) : Prop :=
  ∃ r, m.lookupFlags d va = some r ∧ ∀ q ∈ r, m.ppRef q.1 ≠ 0

theorem Counted.leaf (h : m.Counted d va) :
    m.leaf d va = some none ∨ ∃ pte w p, m.leaf d va = some (some (pte, w)) ∧
      pa2page w = some p ∧ m.ppRef p ≠ 0 := by
  obtain ⟨_, hr, href⟩ := h
  rw [lookupFlags_eq] at hr
  obtain ⟨e, he, hmatch⟩ := bind_eq_some_iff.mp hr
  cases e with
  | none => exact .inl he
  | some e =>
    obtain ⟨p, hp, rfl⟩ := map_eq_some_iff.mp hmatch
    exact .inr ⟨e.1, e.2, p, he, hp, href _ rfl⟩

theorem Counted.pageRemove (h : m.Counted d va) : ∃ m', m.pageRemove d va = some m' := by
  unfold Pmap.pageRemove
  rw [pageLookup_eq]
  rcases h.leaf with hleaf | ⟨_, _, _, hleaf, hpa, href⟩
  · rw [hleaf]
    exact ⟨m, rfl⟩
  · obtain ⟨_, hdec⟩ := pageDecref_isSome href
    simp only [hleaf, bind_some, answer, hpa, map_some, hdec]
    exact ⟨_, rfl⟩

theorem Counted.pageInsert (hn : n ≤ 2 ^ 20) (h : m.Counted d va) (hp : m.Private dirs d) :
    ∃ r, m.pageInsert d pp va perm = some r := by
  have hd : ¬ m.Free d := fun hfree => (hp.unused d hfree).1 hp.dir
  rcases h.leaf with hleaf | ⟨_, _, p, hleaf, hpa, href⟩
  · rcases leaf_none hleaf with hno | ⟨t, ht, hinv⟩
    · unfold Pmap.pageInsert
      rw [pgdirWalk_of_no_table hno]
      rcases mapPage_of_no_table pp perm hn hp.list hd hno with
        hfull | ⟨m₁, hmap, _⟩
      · exact ⟨_, hfull⟩
      · exact ⟨_, hmap⟩
    · have hinv' : pteValid (m.read (t, ptx va)) = false := hinv
      unfold Pmap.pageInsert
      simp only [pgdirWalk_of_table ht, hinv', Bool.false_eq_true, if_false, mapPage_of_table ht]
      exact ⟨_, rfl⟩
  · obtain ⟨t, ht, rfl, rfl, hv⟩ := leaf_some hleaf
    have htd : t ≠ d := by
      rintro rfl
      exact hp.plain _ _ ht hp.dir
    obtain ⟨m₁, hdec⟩ := pageDecref_isSome href
    have ht₁ : entryPage ((m₁.write (t, ptx va) 0).mem d (pdx va)) = some t := by
      rw [mem_write, if_neg (fun heq => htd heq.1.symm), mem_pageDecref hdec, ht]
    have hv' : pteValid (m.read (t, ptx va)) = true := hv
    have hpa' : pa2page (m.read (t, ptx va)) = some p := hpa
    unfold Pmap.pageInsert
    simp only [pgdirWalk_of_table ht, hv', if_true, hpa', hdec, bind_some, mapPage_of_table ht₁]
    split <;> exact ⟨_, rfl⟩

end Pmap

/-- The page table of a directory with its own tables is a finite map from
4 KiB pages to pages with flags: `page_insert` updates it at one page or
reports that there is no memory and leaves the whole state as it was, and
`page_remove` erases one page. Both return when the page they take away has a
reference. -/
theorem pageTable_refines_map {memsize : Word} {m : Pmap (npage memsize)}
    {dirs : Page (npage memsize) → Prop} {d : Page (npage memsize)} (hp : m.Private dirs d)
    (pp : Page (npage memsize)) (va perm : Word) (hperm : perm < 0x1000#32) :
    (∀ m', m.pageInsert d pp va perm = some (.ok (), m') →
      m.Updated m' dirs d va (some (pp, perm ||| PTE_C_CACHEABLE ||| PTE_V))) ∧
    (∀ err m', m.pageInsert d pp va perm = some (.error err, m') → err = .noMem ∧ m' = m) ∧
    (∀ m', m.pageRemove d va = some m' → m.Updated m' dirs d va none) ∧
    (m.Counted d va → (∃ r, m.pageInsert d pp va perm = some r) ∧
      ∃ m', m.pageRemove d va = some m') := by
  have hn := npage_le memsize
  refine ⟨fun m' h => ?_, fun err m' h => ?_, fun m' h => ?_, fun h => ?_⟩
  · rcases hp.pageInsert hn h with ⟨_, hstored⟩ | ⟨hr, _⟩
    · exact hstored.mapped hn hp hperm
    · cases hr
  · rcases hp.pageInsert hn h with ⟨hr, _⟩ | ⟨hr, hsame⟩
    · cases hr
    · exact ⟨Except.error.inj hr, hsame⟩
  · rcases pageRemove_stored h with hstored | ⟨hleaf, rfl⟩
    · exact hstored.unmapped hn hp
    · exact updated_of_unmapped hleaf
  · exact ⟨h.pageInsert hn hp, h.pageRemove⟩

theorem pageTable_refines_map_of_mapAndReplace : ∃ m m₁ m₂ : Pmap (npage 0x8000),
      m.Private (fun p => p.val = 7) ⟨7, by decide⟩ ∧
      m.pageInsert ⟨7, by decide⟩ ⟨6, by decide⟩ 0x400000 0x100 = some (.ok (), m₁) ∧
      m.Updated m₁ (fun p => p.val = 7) ⟨7, by decide⟩ 0x400000
        (some (⟨6, by decide⟩, 0x100 ||| PTE_C_CACHEABLE ||| PTE_V)) ∧
      m.pageRemove ⟨7, by decide⟩ 0x400000 = some m₂ ∧
      m.Updated m₂ (fun p => p.val = 7) ⟨7, by decide⟩ 0x400000 none := by
  have hstart : (frames 0x8000).ReachableUnder Frames.Allowed
      (Frames.start _ 2 (fun _ _ => 0)) := .init ⟨2, fun _ _ => 0, rfl⟩
  obtain ⟨s, hs, hdirs, hins, hrem⟩ := Machine.exists_reachableUnder_of_exec
    (P := fun s : Frames (npage 0x8000) => (∀ p, s.dirs p = true ↔ p.val = 7) ∧
      ((s.pm.pageInsert ⟨7, by decide⟩ ⟨6, by decide⟩ 0x400000 0x100).bind
        (fun r => r.1.toOption)).isSome = true ∧
      (s.pm.pageRemove ⟨7, by decide⟩ 0x400000).isSome = true)
    mapAndReplace hstart (by decide +kernel)
  have hacc : s.pm.Accounted (fun d _ => s.dirs d) s.own := Frames.inv_of_allowed hs
  have hdir : (fun p => s.dirs p = true) = fun p : Page (npage 0x8000) => p.val = 7 :=
    funext (fun p => propext (hdirs p))
  have hp : s.pm.Private (fun p => p.val = 7) ⟨7, by decide⟩ := by
    rw [← hdir]
    exact hacc.private ((hdirs _).mpr rfl)
  obtain ⟨_, hu⟩ := isSome_iff_exists.mp hins
  obtain ⟨⟨r, m₁⟩, hr, hok⟩ := bind_eq_some_iff.mp hu
  obtain ⟨m₂, hm₂⟩ := isSome_iff_exists.mp hrem
  obtain ⟨hmap, _, hunmap, _⟩ := pageTable_refines_map hp ⟨6, by decide⟩ 0x400000 0x100 (by decide)
  cases r with
  | error => cases hok
  | ok => exact ⟨s.pm, m₁, m₂, hp, hr, hmap m₁ hr, hm₂, hunmap m₂ hm₂⟩

end MosSmp
