import MosSmp.Pmap.Slots

/-!
The accounting invariant of the page layer and what each function does to it.
`Accounted m user own` says that the free list is a list of pages without
references and that every counter is exact: it is the number of slots that
refer to the page plus the references its owners hold. The functions of
`kern/pmap.c` are taken apart into the operations of the reference ledger: a
table entry is filled or cleared, a table is hung into a directory, an owner
takes a reference or gives one back.
-/

namespace MosSmp

open Lib Function

namespace Pmap

variable {n : Nat} {m m' : Pmap n} {user : Page n → Idx → Bool} {own : Page n → Nat}
variable {d t p q pp : Page n} {i j : Idx} {w va perm : Word}

/-- The page is on the free list. -/
def Free (m : Pmap n) (p : Page n) : Prop :=
  m.pageFreeList.Listed p

instance (m : Pmap n) (p : Page n) : Decidable (m.Free p) :=
  inferInstanceAs (Decidable (m.pageFreeList.Listed p))

structure Accounted (m : Pmap n) (user : Page n → Idx → Bool) (own : Page n → Nat) : Prop where
  tables : m.Tables user
  list : m.pageFreeList.Holds m.Free
  idle : ∀ p, m.Free p → m.ppRef p = 0
  count : Ledger.Counts (fun p => (m.ppRef p).toNat) ⟨m.slots user, own⟩
  dirs : ∀ d i, user d i = true → 0 < own d

variable {r : Page n → BitVec 16}

theorem toNat_incr (h : (r p).toNat < 65535) :
    (fun q => (update r p (r p + 1) q).toNat) =
      update (fun q => (r q).toNat) p ((r p).toNat + 1) := by
  funext q
  rw [update_apply, update_apply]
  split
  · rw [BitVec.toNat_add, show (1 : BitVec 16).toNat = 1 from rfl]
    omega
  · rfl

theorem toNat_decr (h : r p ≠ 0) :
    (fun q => (update r p (r p - 1) q).toNat) =
      update (fun q => (r q).toNat) p ((r p).toNat - 1) := by
  have hpos : (r p).toNat ≠ 0 := by
    intro hzero
    exact h (BitVec.eq_of_toNat_eq hzero)
  funext q
  rw [update_apply, update_apply]
  split
  · rw [BitVec.toNat_sub, show (1 : BitVec 16).toNat = 1 from rfl]
    omega
  · rfl

section

variable (h : m.Accounted user own)
include h

theorem Accounted.ref_of_slot {x : Slot n} (hx : m.slots user x = some p) : m.ppRef p ≠ 0 := by
  have hpos : 0 < (m.ppRef p).toNat := h.count.pos hx
  intro hzero
  rw [hzero] at hpos
  exact absurd hpos (by decide)

theorem Accounted.ref_of_own (hown : 0 < own p) : m.ppRef p ≠ 0 := by
  have hcount : (m.ppRef p).toNat = own p + _ := h.count p
  intro hzero
  rw [hzero] at hcount
  have hnil : (0 : BitVec 16).toNat = 0 := rfl
  omega

theorem Accounted.not_free_of_slot {x : Slot n} (hx : m.slots user x = some p) : ¬ m.Free p :=
  fun hfree => h.ref_of_slot hx (h.idle p hfree)

theorem Accounted.not_free_of_own (hown : 0 < own p) : ¬ m.Free p :=
  fun hfree => h.ref_of_own hown (h.idle p hfree)

/-- A free page is neither a directory nor a table, and nothing maps it. -/
theorem Accounted.unused_of_free (hfree : m.Free p) :
    (∀ i, user p i = false) ∧ ∀ x, m.slots user x ≠ some p := by
  refine ⟨fun i => ?_, fun x hx => h.not_free_of_slot hx hfree⟩
  by_contra hu
  exact h.not_free_of_own (h.dirs p i (by simpa using hu)) hfree

/-- A successful `page_alloc` takes a free page and clears it. -/
theorem Accounted.pageAlloc (ha : m.pageAlloc = .ok (p, m')) :
    m'.Accounted user own ∧ m.Free p ∧ m'.ppRef = m.ppRef ∧ m'.slots user = m.slots user ∧
      m'.mem p = (fun _ => 0) ∧ (∀ q, q ≠ p → m'.mem q = m.mem q) ∧
      ∀ q, m'.Free q ↔ q ≠ p ∧ m.Free q := by
  unfold Pmap.pageAlloc at ha
  split at ha
  · cases ha
  · next f hfirst =>
    obtain ⟨rfl, rfl⟩ := Prod.mk.inj (Except.ok.inj ha)
    have hfree : m.Free f := h.list.first hfirst
    obtain ⟨hdir, hslot⟩ := h.unused_of_free hfree
    have hremove := h.list.remove hfree
    have hmem : ∀ q, q ≠ f → update m.mem f (fun _ => 0) q = m.mem q :=
      fun q hq => update_of_ne hq _ _
    have htab : ∀ d i, m.tableAt user d i ≠ some f := fun d i => hslot (.inl (d, i))
    have hiff : ∀ q, (m.pageFreeList.remove f).Listed q ↔ q ≠ f ∧ m.Free q :=
      fun q => hremove.listed_iff
    have hslots : ({ m with
        pageFreeList := m.pageFreeList.remove f
        mem := update m.mem f (fun _ => 0) } : Pmap n).slots user = m.slots user :=
      slots_of_data hdir htab hmem
    refine ⟨⟨?_, ?_, ?_, ?_, h.dirs⟩, hfree, rfl, hslots, ?_, hmem, hiff⟩
    · refine h.tables.congr (fun d i hu => ?_) (fun d i t ht => ?_)
      · have hne : d ≠ f := by
          rintro rfl
          rw [hdir i] at hu
          cases hu
        exact congrFun (hmem d hne) i
      · have hne : t ≠ f := by
          rintro rfl
          exact htab d i ht
        exact hmem t hne
    · exact hremove.congr (fun q => (hiff q).symm)
    · intro q hq
      exact h.idle q ((hiff q).mp hq).2
    · rw [hslots]
      exact h.count
    · exact update_self ..

end

theorem mem_pageDecref (h : m.pageDecref p = some m') : m'.mem = m.mem := by
  unfold pageDecref at h
  split at h
  · cases h
  · dsimp only at h
    split at h <;> cases h <;> rfl

/-- `page_decref` of a page with references. -/
theorem pageDecref_spec (hlist : m.pageFreeList.Holds m.Free)
    (hidle : ∀ q, m.Free q → m.ppRef q = 0) (hfree : ¬ m.Free p) (href : m.ppRef p ≠ 0) :
    ∃ m', m.pageDecref p = some m' ∧ m'.mem = m.mem ∧ m'.ppRef = update m.ppRef p (m.ppRef p - 1) ∧
      m'.pageFreeList.Holds m'.Free ∧ (∀ q, m'.Free q → m'.ppRef q = 0) ∧
      ∀ q, m'.Free q ↔ m.Free q ∨ q = p ∧ m'.ppRef p = 0 := by
  have hold : ∀ q, m.Free q → update m.ppRef p (m.ppRef p - 1) q = 0 := by
    intro q hq
    have hne : q ≠ p := by
      rintro rfl
      exact hfree hq
    rw [update_of_ne hne]
    exact hidle q hq
  have hself : update m.ppRef p (m.ppRef p - 1) p = m.ppRef p - 1 := update_self ..
  unfold pageDecref
  rw [if_neg href]
  simp only [update_self]
  by_cases hlast : m.ppRef p - 1 = 0
  · rw [if_pos hlast]
    have hinsert := hlist.insertHead hfree
    have hiff : ∀ q, (m.pageFreeList.insertHead p).Listed q ↔ q = p ∨ m.Free q :=
      fun q => hinsert.listed_iff
    refine ⟨_, rfl, rfl, rfl, hinsert.congr (fun q => (hiff q).symm), fun q hq => ?_, fun q => ?_⟩
    · rcases (hiff q).mp hq with rfl | hq
      · exact hself.trans hlast
      · exact hold q hq
    · refine (hiff q).trans (or_comm.trans (or_congr_right ?_))
      exact (and_iff_left (hself.trans hlast)).symm
  · rw [if_neg hlast]
    refine ⟨_, rfl, rfl, rfl, hlist, hold, fun q => (or_iff_left ?_).symm⟩
    exact fun hp => hlast (hself.symm.trans hp.2)

theorem idle_incref (hidle : ∀ q, m.Free q → m.ppRef q = 0) (hfree : ¬ m.Free p) :
    ∀ q, (m.incref p).Free q → (m.incref p).ppRef q = 0 := by
  intro q hq
  have hne : q ≠ p := by
    rintro rfl
    exact hfree hq
  show update m.ppRef p (m.ppRef p + 1) q = 0
  rw [update_of_ne hne]
  exact hidle q hq

section

variable (h : m.Accounted user own)
include h

section

variable (ht : m.tableAt user d i = some t)
include ht

/-- A table entry gives up its page, as in `page_insert` and in
`page_remove`. -/
theorem Accounted.unmap (hp : m.pageAt user d i j = some p) :
    ∃ m', m.pageDecref p = some m' ∧ (m'.write (t, j) 0).Accounted user own ∧
      (m'.write (t, j) 0).slots user = update (m.slots user) (.inr (d, i, j)) none ∧
      (∀ q, q ≠ p → (m'.write (t, j) 0).ppRef q = m.ppRef q) ∧
      ∀ q, (m'.write (t, j) 0).Free q → m.Free q ∨ q = p := by
  have href := h.ref_of_slot (x := .inr (d, i, j)) hp
  have hfree := h.not_free_of_slot (x := .inr (d, i, j)) hp
  obtain ⟨m', hdec, hmem, href', hlist, hidle, hnew⟩ := pageDecref_spec h.list h.idle hfree href
  have hslots' : m'.slots user = m.slots user :=
    slots_congr (fun d i _ => by rw [hmem]) (fun d i t j _ => by rw [hmem])
  have htab' : m'.Tables user :=
    h.tables.congr (fun d i _ => by rw [hmem]) (fun d i t _ => by rw [hmem])
  have ht' : m'.tableAt user d i = some t := by
    rw [← slots_inl, hslots', slots_inl, ht]
  have hslots := htab'.slots_writePte (j := j) (w := 0) ht'
  rw [hslots', entryPage_zero] at hslots
  refine ⟨m', hdec, ⟨?_, hlist, hidle, ?_, h.dirs⟩, hslots, ?_,
    fun q hq => ((hnew q).mp hq).imp_right And.left⟩
  · refine htab'.writePte ht' (fun hv => ?_)
    cases hv
  · rw [hslots]
    show Ledger.Counts (fun q => (m'.ppRef q).toNat) _
    rw [href', toNat_decr href]
    exact h.count.clear (L := ⟨m.slots user, own⟩) hp
  · intro q hq
    show m'.ppRef q = m.ppRef q
    rw [href', update_of_ne hq]

/-- An empty table entry takes a page that is not free. -/
theorem Accounted.map (hnone : m.pageAt user d i j = none) (hw : entryPage w = some p)
    (hfree : ¬ m.Free p) (href : (m.ppRef p).toNat < 65535) :
    ((m.write (t, j) w).incref p).Accounted user own ∧ ((m.write (t, j) w).incref p).slots user =
        update (m.slots user) (.inr (d, i, j)) (some p) := by
  have hslots : ((m.write (t, j) w).incref p).slots user =
      update (m.slots user) (.inr (d, i, j)) (some p) := by
    rw [← hw]
    exact h.tables.slots_writePte ht
  refine ⟨⟨?_, h.list, idle_incref h.idle hfree, ?_, h.dirs⟩, hslots⟩
  · exact (h.tables.writePte (j := j) ht (fun _ => ⟨p, (entryPage_some hw).2⟩)).congr
      (fun _ _ _ => rfl) (fun _ _ _ _ => rfl)
  · rw [hslots]
    show Ledger.Counts (fun q => (update m.ppRef p (m.ppRef p + 1) q).toNat) _
    rw [toNat_incr href]
    exact h.count.assign (L := ⟨m.slots user, own⟩) hnone

/-- A table entry is stored again with other permissions. -/
theorem Accounted.remap (hp : m.pageAt user d i j = some p) (hw : entryPage w = some p) :
    (m.write (t, j) w).Accounted user own ∧ (m.write (t, j) w).slots user = m.slots user := by
  have hslots : (m.write (t, j) w).slots user = m.slots user := by
    rw [h.tables.slots_writePte ht, hw, ← hp]
    exact update_eq_self _ _
  refine ⟨⟨?_, h.list, h.idle, ?_, h.dirs⟩, hslots⟩
  · exact h.tables.writePte ht (fun _ => ⟨p, (entryPage_some hw).2⟩)
  · rw [hslots]
    exact h.count

end

/-- `pgdir_walk` without `create` returns the pointer into the table, if
there is one. -/
theorem Accounted.walk (hu : user d (pdx va) = true) : m.pgdirWalk d va false =
      some (.ok ((m.tableAt user d (pdx va)).map (fun t => (t, ptx va))), m) := by
  unfold pgdirWalk
  cases hv : pteValid (m.read (d, pdx va)) with
  | false =>
    rw [tableAt_of_not_valid hv]
    rfl
  | true =>
    obtain ⟨t, htable, ht⟩ := h.tables.tableAt_of_valid hu hv
    have hptr : (entryOf (m.read (d, pdx va)) va : Option (EntryPtr n)) = some (t, ptx va) := by
      unfold entryOf
      rw [pa2page_pteAddr, show pa2page (m.read (d, pdx va)) = some t from ht]
      rfl
    rw [if_pos rfl, hptr, htable]
    rfl

end

/-- The page has been handed out and nothing refers to it yet. -/
def Spare (m : Pmap n) (p : Page n) : Prop :=
  ¬ m.Free p ∧ m.ppRef p = 0

/-- A spare page is neither a directory nor a table, nothing maps it, and
nobody owns it. -/
theorem Accounted.spare (h : m.Accounted user own) (hs : m.Spare p) :
    (∀ i, user p i = false) ∧ (∀ x, m.slots user x ≠ some p) ∧ own p = 0 := by
  refine ⟨fun i => ?_, fun x hx => h.ref_of_slot hx hs.2, ?_⟩
  · by_contra hu
    exact h.ref_of_own (h.dirs p i (by simpa using hu)) hs.2
  · by_contra hown
    exact h.ref_of_own (Nat.pos_of_ne_zero hown) hs.2

section

variable (hn : n ≤ 2 ^ 20)
include hn

theorem entryPage_tableEntry (t : Page n) : entryPage (tableEntry t) = some t := by
  unfold entryPage
  rw [pteValid_tableEntry, if_pos rfl, pa2page_of_addr hn (pteAddr_tableEntry t)]

/-- The walk finds the entry in a table that has just been hung into the directory. -/
theorem entryOf_newTable (m : Pmap n) (d t : Page n) (va : Word) :
    entryOf (((m.write (d, pdx va) (tableEntry t)).incref t).read (d, pdx va)) va =
      some (t, ptx va) := by
  unfold read incref entryOf
  rw [mem_write, if_pos ⟨rfl, rfl⟩, pa2page_pteAddr, pa2page_of_addr hn (pteAddr_tableEntry t)]
  rfl

section

variable (h : m.Accounted user own) (hu : user d i = true) (hinv : pteValid (m.mem d i) = false)
include h hu hinv

/-- A blank spare page is hung into a directory as a table. -/
theorem Accounted.hang (hs : m.Spare t) (hblank : m.Blank t) :
    ((m.write (d, i) (tableEntry t)).incref t).Accounted user own ∧
      ((m.write (d, i) (tableEntry t)).incref t).slots user =
        update (m.slots user) (.inl (d, i)) (some t) := by
  obtain ⟨hplain, hunused, _⟩ := h.spare hs
  have hentry := entryPage_tableEntry hn t
  have hne : t ≠ d := by
    rintro rfl
    rw [hplain i] at hu
    cases hu
  have hnot : m.slots user (.inl (d, i)) = none := tableAt_of_not_valid hinv
  have hnone : ∀ j, m.pageAt user d i j = none := by
    intro j
    unfold pageAt
    rw [← slots_inl, hnot]
    rfl
  have hslots : ((m.write (d, i) (tableEntry t)).incref t).slots user =
      update (m.slots user) (.inl (d, i)) (some t) := by
    rw [← hentry]
    refine h.tables.slots_writePde hu hnone (fun t' ht' => ?_)
    cases hentry.symm.trans ht'
    exact ⟨hne, hblank⟩
  refine ⟨⟨?_, h.list, idle_incref h.idle hs.1, ?_, h.dirs⟩, hslots⟩
  · refine (h.tables.writePde hu (fun _ => ⟨t, (entryPage_some hentry).2⟩)
      (fun t' ht' => ?_)).congr (fun _ _ _ => rfl) (fun _ _ _ _ => rfl)
    cases hentry.symm.trans ht'
    exact ⟨hplain, fun d' i' => hunused (.inl (d', i')), hblank⟩
  · rw [hslots]
    show Ledger.Counts (fun q => (update m.ppRef t (m.ppRef t + 1) q).toNat) _
    rw [toNat_incr (by rw [hs.2]; decide)]
    exact h.count.assign (L := ⟨m.slots user, own⟩) hnot

/-- A new table is hung into a directory. -/
theorem Accounted.newTable (ha : m.pageAlloc = .ok (t, m')) :
    ((m'.write (d, i) (tableEntry t)).incref t).Accounted user own ∧
      ((m'.write (d, i) (tableEntry t)).incref t).slots user =
        update (m.slots user) (.inl (d, i)) (some t) := by
  obtain ⟨h', hfree, href, hslots, hzero, hmem, hiff⟩ := h.pageAlloc ha
  obtain ⟨hplain, _⟩ := h.unused_of_free hfree
  have hne : d ≠ t := by
    rintro rfl
    rw [hplain i] at hu
    cases hu
  have hspare : m'.Spare t := by
    refine ⟨fun hq => ((hiff t).mp hq).1 rfl, ?_⟩
    rw [href]
    exact h.idle t hfree
  have hblank : m'.Blank t := by
    intro j
    rw [hzero]
    exact pteValid_zero
  rw [← hslots]
  exact h'.hang hn hu (by rw [hmem d hne]; exact hinv) hspare hblank

end

theorem entryPage_mapEntry (hfits : pteAddr (mapEntry pp perm) = page2pa pp) :
    entryPage (mapEntry pp perm) = some pp := by
  unfold entryPage
  rw [pteValid_mapEntry, if_pos rfl, pa2page_of_addr hn hfits]

end

theorem pageAt_of_no_table (ht : m.tableAt user d i = none) : m.pageAt user d i j = none := by
  unfold pageAt
  rw [ht]
  rfl

/-- A valid entry of a table maps a page. -/
theorem Tables.pageAt_of_valid (h : m.Tables user) (ht : m.tableAt user d i = some t)
    (hv : pteValid (m.mem t j) = true) :
    ∃ p, m.pageAt user d i j = some p ∧ pa2page (m.mem t j) = some p := by
  obtain ⟨p, hp⟩ := h.pageIn d i t j ht hv
  refine ⟨p, ?_, hp⟩
  rw [pageAt_of_table ht]
  unfold entryPage
  rw [hv, if_pos rfl, hp]

/-- What `page_insert` may change, for the entry at `va` of directory `d` and
the page `pp`: that entry, a free page that becomes the table for it, and
mapped pages that become free. -/
structure Inserted (m m' : Pmap n) (user : Page n → Idx → Bool) (d : Page n) (va : Word)
    (pp : Page n) : Prop where
  pages : ∀ d' i' j', m'.pageAt user d' i' j' = m.pageAt user d' i' j' ∨
    (d' = d ∧ i' = pdx va ∧ j' = ptx va ∧
      (m'.pageAt user d' i' j' = none ∨ m'.pageAt user d' i' j' = some pp))
  tables : ∀ d' i' t, m'.tableAt user d' i' = some t →
    m.tableAt user d' i' = some t ∨ (m.Free t ∧ m.tableAt user d (pdx va) = none)
  free : ∀ q, m'.Free q → m.Free q ∨ ∃ d' i' j', m.pageAt user d' i' j' = some q

/-- The table entry for `va` holds the word `w`. -/
def Stores (m : Pmap n) (user : Page n → Idx → Bool) (d : Page n) (va w : Word) : Prop :=
  ∃ t, m.tableAt user d (pdx va) = some t ∧ m.mem t (ptx va) = w

theorem Inserted.refl : m.Inserted m user d va pp :=
  ⟨fun _ _ _ => .inl rfl, fun _ _ _ ht => .inl ht, fun _ hq => .inl hq⟩

/-- `pgdir_walk` with `create` fails only for lack of memory; otherwise it
returns the pointer into the table, which may be a new one. -/
theorem Accounted.walkCreate (hn : n ≤ 2 ^ 20) (h : m.Accounted user own)
    (hu : user d (pdx va) = true) (pp : Page n) :
    m.pgdirWalk d va true = some (.error .noMem, m) ∧ m.tableAt user d (pdx va) = none ∨
      ∃ t m', m.pgdirWalk d va true = some (.ok (some (t, ptx va)), m') ∧
        m'.Accounted user own ∧ m'.tableAt user d (pdx va) = some t ∧
        (∀ d' i' j', m'.pageAt user d' i' j' = m.pageAt user d' i' j') ∧
        m.Inserted m' user d va pp ∧ ∀ q, ¬ m.Free q → ¬ m'.Free q ∧ m'.ppRef q = m.ppRef q := by
  cases hv : pteValid (m.read (d, pdx va)) with
  | true =>
    obtain ⟨t, htable, _⟩ := h.tables.tableAt_of_valid hu hv
    have hwalk := h.walk hu
    rw [htable] at hwalk
    unfold pgdirWalk at hwalk ⊢
    rw [hv, if_pos rfl] at hwalk ⊢
    exact .inr ⟨t, m, hwalk, h, htable, fun _ _ _ => rfl, .refl, fun q hq => ⟨hq, rfl⟩⟩
  | false =>
    unfold pgdirWalk
    rw [hv, if_neg (by simp), if_pos rfl]
    cases ha : m.pageAlloc with
    | error =>
      unfold Pmap.pageAlloc at ha
      split at ha
      · obtain rfl := Except.error.inj ha
        exact .inl ⟨rfl, tableAt_of_not_valid hv⟩
      · cases ha
    | ok r =>
      obtain ⟨t, m'⟩ := r
      obtain ⟨_, hfree, href, _, _, _, hiff⟩ := h.pageAlloc ha
      obtain ⟨hacc, hslots⟩ := h.newTable hn hu hv ha
      refine .inr ⟨t, (m'.write (d, pdx va) (tableEntry t)).incref t, ?_, hacc, ?_, ?_,
        ⟨?_, ?_, ?_⟩, ?_⟩
      · simp only [entryOf_newTable hn]
        rfl
      · rw [← slots_inl, hslots, update_self]
      · intro d' i' j'
        rw [← slots_inr, hslots, update_of_ne (by simp), slots_inr]
      · intro d' i' j'
        rw [← slots_inr, hslots, update_of_ne (by simp), slots_inr]
        exact .inl rfl
      · intro d' i' t' ht'
        rw [← slots_inl, hslots, update_apply] at ht'
        split at ht'
        · cases ht'
          exact .inr ⟨hfree, tableAt_of_not_valid hv⟩
        · exact .inl ht'
      · intro q hq
        exact .inl ((hiff q).mp hq).2
      · intro q hq
        have hne : q ≠ t := by
          rintro rfl
          exact hq hfree
        refine ⟨fun hq' => hq ((hiff q).mp hq').2, ?_⟩
        show update m'.ppRef t (m'.ppRef t + 1) q = m.ppRef q
        rw [update_of_ne hne, href]

section

variable (hn : n ≤ 2 ^ 20) (h : m.Accounted user own) (hu : user d (pdx va) = true)
  (hfits : pteAddr (mapEntry pp perm) = page2pa pp) (hfree : ¬ m.Free pp)
include hn h hu hfits hfree

/-- `page_insert` at an address where nothing is mapped. -/
theorem Accounted.mapPage (href : (m.ppRef pp).toNat < 65535)
    (hnone : m.pageAt user d (pdx va) (ptx va) = none) :
    ∃ r m', m.mapPage d pp va perm = some (r, m') ∧ m'.Accounted user own ∧
      m.Inserted m' user d va pp ∧
      (r = .ok () ∧ m'.Stores user d va (mapEntry pp perm) ∨
        r = .error .noMem ∧ m' = m ∧ m.tableAt user d (pdx va) = none) := by
  unfold Pmap.mapPage
  rcases h.walkCreate hn hu pp with ⟨hwalk, hno⟩ | ⟨t, m', hwalk, h', ht, hpages, hins, hkeep⟩
  · rw [hwalk]
    exact ⟨_, m, rfl, h, .refl, .inr ⟨rfl, rfl, hno⟩⟩
  · rw [hwalk]
    obtain ⟨hfree', href'⟩ := hkeep pp hfree
    obtain ⟨hacc, hslots⟩ := h'.map (j := ptx va) ht (by rw [hpages, hnone])
      (entryPage_mapEntry hn hfits) hfree' (by rwa [href'])
    refine ⟨_, _, rfl, hacc, ⟨?_, ?_, hins.free⟩, .inl ⟨rfl, t, ?_, ?_⟩⟩
    · intro d' i' j'
      rw [← slots_inr, hslots, update_apply]
      split
      · next heq =>
        simp only [Sum.inr.injEq, Prod.mk.injEq] at heq
        exact .inr ⟨heq.1, heq.2.1, heq.2.2, .inr rfl⟩
      · rw [slots_inr, hpages]
        exact .inl rfl
    · intro d' i' t' ht'
      rw [← slots_inl, hslots, update_of_ne (by simp), slots_inl] at ht'
      exact hins.tables d' i' t' ht'
    · rw [← slots_inl, hslots, update_of_ne (by simp), slots_inl, ht]
    · show (m'.write (t, ptx va) (mapEntry pp perm)).mem t (ptx va) = _
      rw [mem_write, if_pos ⟨rfl, rfl⟩]

/-- `page_insert` at an address where another page is mapped. That page may
lose its last reference, but the table stays. -/
theorem Accounted.replace {old : Page n} (href : (m.ppRef pp).toNat < 65535)
    (ht : m.tableAt user d (pdx va) = some t) (hold : m.pageAt user d (pdx va) (ptx va) = some old)
    (hne : old ≠ pp) :
    ∃ r m', (m.pageDecref old).bind
        (fun m₁ => (m₁.write (t, ptx va) 0).mapPage d pp va perm) = some (r, m') ∧
      m'.Accounted user own ∧ m.Inserted m' user d va pp ∧
      r = .ok () ∧ m'.Stores user d va (mapEntry pp perm) := by
  obtain ⟨m₁, hdec, h₁, hslots, href₁, hfree₁⟩ := h.unmap ht hold
  have ht₁ : (m₁.write (t, ptx va) 0).tableAt user d (pdx va) = some t := by
    rw [← slots_inl, hslots, update_of_ne (by simp), slots_inl, ht]
  have hnone : (m₁.write (t, ptx va) 0).pageAt user d (pdx va) (ptx va) = none := by
    rw [← slots_inr, hslots, update_self]
  have hpp : ¬ (m₁.write (t, ptx va) 0).Free pp := by
    intro hq
    rcases hfree₁ pp hq with hq | hq
    · exact hfree hq
    · exact hne hq.symm
  obtain ⟨r, m', hrun, h', hins, hout⟩ := h₁.mapPage hn hu hfits hpp
    (by rwa [href₁ pp (Ne.symm hne)]) hnone
  have hstores : r = .ok () ∧ m'.Stores user d va (mapEntry pp perm) := by
    rcases hout with hok | ⟨_, _, hno⟩
    · exact hok
    · rw [ht₁] at hno
      cases hno
  refine ⟨r, m', by rw [hdec]; exact hrun, h', ⟨?_, ?_, ?_⟩, hstores⟩
  · intro d' i' j'
    rcases hins.pages d' i' j' with hsame | hhere
    · rw [hsame, ← slots_inr, hslots, update_apply]
      split
      · next heq =>
        simp only [Sum.inr.injEq, Prod.mk.injEq] at heq
        exact .inr ⟨heq.1, heq.2.1, heq.2.2, .inl rfl⟩
      · exact .inl rfl
    · exact .inr hhere
  · intro d' i' t' ht'
    rcases hins.tables d' i' t' ht' with hsame | ⟨_, hno⟩
    · rw [← slots_inl, hslots, update_of_ne (by simp)] at hsame
      exact .inl hsame
    · rw [ht₁] at hno
      cases hno
  · intro q hq
    rcases hins.free q hq with hq | ⟨d', i', j', hq⟩
    · rcases hfree₁ q hq with hq | rfl
      · exact .inl hq
      · exact .inr ⟨_, _, _, hold⟩
    · rw [← slots_inr, hslots, update_apply] at hq
      split at hq
      · cases hq
      · exact .inr ⟨d', i', j', hq⟩

/-- `page_insert` on all of its paths. It never panics, keeps the accounting,
and stores nothing but an entry for `pp`; when it fails it changes nothing. -/
theorem Accounted.pageInsert
    (href : (m.ppRef pp).toNat < 65535 ∨ m.pageAt user d (pdx va) (ptx va) = some pp) :
    ∃ r m', m.pageInsert d pp va perm = some (r, m') ∧ m'.Accounted user own ∧
      m.Inserted m' user d va pp ∧
      (r = .ok () ∧ m'.Stores user d va (mapEntry pp perm) ∨ r = .error .noMem ∧ m' = m) := by
  have hmap : m.pageAt user d (pdx va) (ptx va) = none → ∃ r m',
      m.mapPage d pp va perm = some (r, m') ∧ m'.Accounted user own ∧ m.Inserted m' user d va pp ∧
        (r = .ok () ∧ m'.Stores user d va (mapEntry pp perm) ∨ r = .error .noMem ∧ m' = m) := by
    intro hnone
    rw [hnone] at href
    obtain ⟨r, m', hrun, h', hins, hout⟩ := h.mapPage hn hu hfits hfree (by simpa using href) hnone
    refine ⟨r, m', hrun, h', hins, ?_⟩
    rcases hout with hok | ⟨herr, hsame, _⟩
    · exact .inl hok
    · exact .inr ⟨herr, hsame⟩
  unfold Pmap.pageInsert
  rw [h.walk hu]
  cases ht : m.tableAt user d (pdx va) with
  | none => exact hmap (pageAt_of_no_table ht)
  | some t =>
    simp only [Option.map_some]
    cases hv : pteValid (m.read (t, ptx va)) with
    | false => exact hmap ((pageAt_of_table ht).trans (entryPage_of_not_valid hv))
    | true =>
      obtain ⟨old, hold, hpage⟩ := h.tables.pageAt_of_valid ht hv
      rw [if_pos rfl, show pa2page (m.read (t, ptx va)) = some old from hpage]
      by_cases hne : old ≠ pp
      · have hlt : (m.ppRef pp).toNat < 65535 := by
          rcases href with hlt | hsame
          · exact hlt
          · exact absurd (Option.some.inj (hold.symm.trans hsame)) hne
        simp only [hne, ne_eq, not_false_eq_true, if_true]
        obtain ⟨r, m', hrun, h', hins, hok⟩ := h.replace hn hu hfits hfree hlt ht hold hne
        exact ⟨r, m', hrun, h', hins, .inl hok⟩
      · obtain rfl : old = pp := not_not.mp hne
        obtain ⟨h', hslots⟩ := h.remap ht hold (entryPage_mapEntry hn hfits)
        simp only [ne_eq, not_true_eq_false, if_false]
        refine ⟨_, _, rfl, h', ⟨?_, ?_, fun q hq => .inl hq⟩, .inl ⟨rfl, t, ?_, ?_⟩⟩
        · intro d' i' j'
          rw [← slots_inr, hslots, slots_inr]
          exact .inl rfl
        · intro d' i' t' ht'
          rw [← slots_inl, hslots, slots_inl] at ht'
          exact .inl ht'
        · rw [← slots_inl, hslots, slots_inl, ht]
        · rw [mem_write, if_pos ⟨rfl, rfl⟩]

end

section

variable (h : m.Accounted user own)
include h

/-- `page_lookup` finds what the slots say. -/
theorem Accounted.pageLookup (hu : user d (pdx va) = true) :
    m.pageLookup d va = some none ∧ m.pageAt user d (pdx va) (ptx va) = none ∨
      ∃ p t, m.pageLookup d va = some (some (p, (t, ptx va))) ∧ m.tableAt user d (pdx va) = some t ∧
        m.pageAt user d (pdx va) (ptx va) = some p := by
  unfold Pmap.pageLookup
  rw [h.walk hu]
  cases ht : m.tableAt user d (pdx va) with
  | none => exact .inl ⟨rfl, pageAt_of_no_table ht⟩
  | some t =>
    simp only [Option.map_some]
    cases hv : pteValid (m.read (t, ptx va)) with
    | false =>
      exact .inl ⟨rfl, (pageAt_of_table ht).trans (entryPage_of_not_valid hv)⟩
    | true =>
      obtain ⟨p, hp, hpage⟩ := h.tables.pageAt_of_valid ht hv
      refine .inr ⟨p, t, ?_, rfl, hp⟩
      rw [if_pos rfl, show pa2page (m.read (t, ptx va)) = some p from hpage]
      rfl

/-- `page_remove` never panics, keeps the accounting, and only takes a
mapping away. -/
theorem Accounted.pageRemove (hu : user d (pdx va) = true) :
    ∃ m', m.pageRemove d va = some m' ∧ m'.Accounted user own ∧
      (∀ d' i', m'.tableAt user d' i' = m.tableAt user d' i') ∧
      ∀ d' i' j' p, m'.pageAt user d' i' j' = some p → m.pageAt user d' i' j' = some p := by
  unfold Pmap.pageRemove
  rcases h.pageLookup hu with ⟨hlook, _⟩ | ⟨p, _, hlook, ht, hp⟩
  · rw [hlook]
    exact ⟨m, rfl, h, fun _ _ => rfl, fun _ _ _ _ hq => hq⟩
  · rw [hlook]
    obtain ⟨_, hdec, h₁, hslots, _⟩ := h.unmap ht hp
    refine ⟨_, by simp only [hdec]; rfl, h₁, fun d' i' => ?_, fun d' i' j' q hq => ?_⟩
    · rw [← slots_inl, hslots, update_of_ne (by simp), slots_inl]
    · rw [← slots_inr, hslots, update_apply] at hq
      split at hq
      · cases hq
      · exact hq

/-- An owner takes a reference. -/
theorem Accounted.acquire (hfree : ¬ m.Free p) (href : (m.ppRef p).toNat < 65535) :
    (m.incref p).Accounted user (update own p (own p + 1)) := by
  refine ⟨h.tables.congr (fun _ _ _ => rfl) (fun _ _ _ _ => rfl), h.list,
    idle_incref h.idle hfree, ?_, ?_⟩
  · show Ledger.Counts (fun q => (update m.ppRef p (m.ppRef p + 1) q).toNat) _
    rw [toNat_incr href]
    exact h.count.acquire (L := ⟨m.slots user, own⟩)
  · intro d i hu
    have hd := h.dirs d i hu
    rw [update_apply]
    split <;> omega

/-- An owner gives a reference back with `page_decref`. -/
theorem Accounted.release (hown : 0 < own p) (hdir : ∀ i, user p i = true → 1 < own p) :
    ∃ m', m.pageDecref p = some m' ∧ m'.Accounted user (update own p (own p - 1)) := by
  have href := h.ref_of_own hown
  have hfree := h.not_free_of_own hown
  obtain ⟨m', hdec, hmem, href', hlist, hidle, _⟩ := pageDecref_spec h.list h.idle hfree href
  have hslots : m'.slots user = m.slots user :=
    slots_congr (fun d i _ => by rw [hmem]) (fun d i t j _ => by rw [hmem])
  refine ⟨m', hdec, ?_, hlist, hidle, ?_, ?_⟩
  · exact h.tables.congr (fun d i _ => by rw [hmem]) (fun d i t _ => by rw [hmem])
  · rw [hslots, href', toNat_decr href]
    exact h.count.release (L := ⟨m.slots user, own⟩) hown
  · intro d i hu
    have hd := h.dirs d i hu
    rw [update_apply]
    split
    · next heq =>
      subst heq
      have htwo := hdir i hu
      omega
    · exact hd

/-- `page_free` of a held page without references. -/
theorem Accounted.pageFree (hfree : ¬ m.Free p) (href : m.ppRef p = 0) :
    ∃ m', m.pageFree p = some m' ∧ m'.Accounted user own := by
  unfold Pmap.pageFree
  rw [if_pos href]
  have hinsert := h.list.insertHead hfree
  have hiff : ∀ q, (m.pageFreeList.insertHead p).Listed q ↔ q = p ∨ m.Free q :=
    fun q => hinsert.listed_iff
  refine ⟨_, rfl, h.tables.congr (fun _ _ _ => rfl) (fun _ _ _ _ => rfl),
    hinsert.congr (fun q => (hiff q).symm), ?_, h.count, h.dirs⟩
  intro q hq
  rcases (hiff q).mp hq with rfl | hq
  · exact href
  · exact h.idle q hq

/-- A change to the contents of a page that is neither a directory nor a
table. -/
theorem Accounted.data (hdir : ∀ i, user p i = false) (htab : ∀ d i, m.tableAt user d i ≠ some p)
    (href : m'.ppRef = m.ppRef) (hlist : m'.pageFreeList = m.pageFreeList)
    (hmem : ∀ q, q ≠ p → m'.mem q = m.mem q) : m'.Accounted user own := by
  have hfree : m'.Free = m.Free := by
    funext q
    unfold Free
    rw [hlist]
  refine ⟨h.tables.congr (fun d i hu => ?_) (fun d i t ht => ?_), ?_, ?_, ?_, h.dirs⟩
  · have hne : d ≠ p := by
      rintro rfl
      rw [hdir i] at hu
      cases hu
    rw [hmem d hne]
  · have hne : t ≠ p := by
      rintro rfl
      exact htab d i ht
    exact hmem t hne
  · rw [hlist, hfree]
    exact h.list
  · rw [hfree, href]
    exact h.idle
  · rw [slots_of_data hdir htab hmem, href]
    exact h.count

/-- Directories come and go while they have no tables. -/
theorem Accounted.ofUser {user' : Page n → Idx → Bool}
    (htable : ∀ d i, m.tableAt user' d i = m.tableAt user d i)
    (hdir : ∀ d i, user' d i = true → user d i = true ∨ pteValid (m.mem d i) = false)
    (hplain : ∀ d i t, m.tableAt user d i = some t → ∀ j, user' t j = false)
    (hown : ∀ d i, user' d i = true → 0 < own d) : m.Accounted user' own := by
  refine ⟨h.tables.ofUser htable hdir hplain, h.list, h.idle, ?_, hown⟩
  rw [slots_ofUser htable]
  exact h.count

/-- A page from `page_alloc` becomes a directory whose entries in `u` are
not valid. -/
theorem Accounted.newDir {m₂ : Pmap n} {u : Idx → Bool} (ha : m.pageAlloc = .ok (p, m'))
    (href : m₂.ppRef = (m'.incref p).ppRef) (hlist : m₂.pageFreeList = m'.pageFreeList)
    (hmem : ∀ q, q ≠ p → m₂.mem q = m'.mem q)
    (hblank : ∀ i, u i = true → pteValid (m₂.mem p i) = false) :
    m₂.Accounted (update user p u) (update own p (own p + 1)) ∧
      m₂.slots (update user p u) = m.slots user := by
  obtain ⟨h', hfree, href', hslots, _, _, hiff⟩ := h.pageAlloc ha
  obtain ⟨hdir, hunused⟩ := h.unused_of_free hfree
  have htab : ∀ d i, m'.tableAt user d i ≠ some p := by
    intro d i
    rw [← slots_inl, hslots]
    exact hunused _
  have hzero : m'.ppRef p = 0 := by
    rw [href']
    exact h.idle p hfree
  have hfree' : ¬ m'.Free p := fun hq => ((hiff p).mp hq).1 rfl
  have hacq := h'.acquire hfree' (by rw [hzero]; decide)
  have h₂ : m₂.Accounted user (update own p (own p + 1)) := hacq.data hdir htab href hlist hmem
  have hslots₂ : m₂.slots user = m'.slots user := slots_of_data hdir htab hmem
  have htable : ∀ d i, m₂.tableAt (update user p u) d i = m₂.tableAt user d i := by
    intro d i
    by_cases hd : d = p
    · subst hd
      unfold tableAt
      rw [update_self, hdir i]
      cases hu : u i with
      | false => rfl
      | true => simpa using entryPage_of_not_valid (hblank i hu)
    · unfold tableAt
      rw [update_of_ne hd]
  refine ⟨h₂.ofUser htable ?_ ?_ ?_, ?_⟩
  · intro d i hu
    by_cases hd : d = p
    · subst hd
      rw [update_self] at hu
      exact .inr (hblank i hu)
    · rw [update_of_ne hd] at hu
      exact .inl hu
  · intro d i t ht j
    have hne : t ≠ p := by
      rintro rfl
      rw [← slots_inl, hslots₂] at ht
      exact htab d i ht
    rw [update_of_ne hne]
    exact h₂.tables.plain d i t ht j
  · intro d i hu
    by_cases hd : d = p
    · subst hd
      rw [update_self]
      omega
    · rw [update_of_ne hd] at hu ⊢
      exact h.dirs d i hu
  · rw [slots_ofUser htable, hslots₂, hslots]

/-- A directory without tables is given up. -/
theorem Accounted.dropDir (hempty : ∀ i, m.tableAt user p i = none) :
    m.Accounted (update user p (fun _ => false)) own := by
  have hsub : ∀ d i, update user p (fun _ => false) d i = true → user d i = true := by
    intro d i hu
    by_cases hd : d = p
    · subst hd
      rw [update_self] at hu
      cases hu
    · rwa [update_of_ne hd] at hu
  refine h.ofUser ?_ (fun d i hu => .inl (hsub d i hu)) ?_ (fun d i hu => h.dirs d i (hsub d i hu))
  · intro d i
    by_cases hd : d = p
    · subst hd
      rw [hempty i]
      unfold tableAt
      rw [update_self]
      rfl
    · unfold tableAt
      rw [update_of_ne hd]
  · intro d i t ht j
    by_cases ht' : t = p
    · subst ht'
      rw [update_self]
    · rw [update_of_ne ht']
      exact h.tables.plain d i t ht j

/-- A table without valid entries is taken out of its directory and given
back, as in `env_free`. -/
theorem Accounted.releaseTable (ht : m.tableAt user d i = some t) (hblank : m.Blank t) :
    ∃ m', (m.write (d, i) 0).pageDecref t = some m' ∧ m'.Accounted user own ∧
      m'.slots user = update (m.slots user) (.inl (d, i)) none ∧
      ∀ q, m'.Free q → m.Free q ∨ q = t := by
  obtain ⟨hu, _⟩ := tableAt_some ht
  have href := h.ref_of_slot (x := .inl (d, i)) ht
  have hfree := h.not_free_of_slot (x := .inl (d, i)) ht
  have hnone : ∀ j, m.pageAt user d i j = none := by
    intro j
    rw [pageAt_of_table ht]
    exact entryPage_of_not_valid (hblank j)
  have htab : (m.write (d, i) 0).Tables user := by
    exact h.tables.writePde hu nofun nofun
  have hslots : (m.write (d, i) 0).slots user = update (m.slots user) (.inl (d, i)) none := by
    refine h.tables.slots_writePde hu hnone (fun t' ht' => ?_)
    cases ht'
  obtain ⟨m', hdec, hmem, href', hlist, hidle, hnew⟩ :=
    pageDecref_spec (m := m.write (d, i) 0) h.list h.idle hfree href
  have hslots' : m'.slots user = (m.write (d, i) 0).slots user :=
    slots_congr (fun d i _ => by rw [hmem]) (fun d i t j _ => by rw [hmem])
  refine ⟨m', hdec, ⟨?_, hlist, hidle, ?_, h.dirs⟩, hslots'.trans hslots,
    fun q hq => ((hnew q).mp hq).imp_right And.left⟩
  · exact htab.congr (fun d i _ => by rw [hmem]) (fun d i t _ => by rw [hmem])
  · rw [hslots', hslots, href']
    show Ledger.Counts (fun q => (update m.ppRef t (m.ppRef t - 1) q).toNat) _
    rw [toNat_decr href]
    exact h.count.clear (L := ⟨m.slots user, own⟩) ht

end

end Pmap

end MosSmp
