import MosSmp.Pmap.Refine

/-!
What the functions of `kern/pmap.c` leave alone. An operation on a directory
changes words of that directory, of its tables, and of pages that were free,
and nothing else. What another CPU has found in another directory, or in a page
that it has been given and has not mapped yet, is therefore still there.
-/

namespace MosSmp

open Lib Function

namespace Pmap

variable {n : Nat} {m m' : Pmap n} {user : Page n → Idx → Bool} {own : Page n → Nat}
variable {d t p q : Page n} {pp : Option (Page n)} {i j : Idx} {w va perm : Word}

/-- The operation from `m` to `m'` was one on directory `d`, and gave out a
reference to no other page than `pp`. -/
structure Local (m m' : Pmap n) (user : Page n → Idx → Bool) (d : Page n)
    (pp : Option (Page n)) : Prop where
  mem : ∀ q j, m'.mem q j ≠ m.mem q j →
    (q = d ∧ user d j = true) ∨ (∃ i, m.tableAt user d i = some q) ∨ m.Free q
  slots : ∀ x q, m'.slots user x = some q → m.slots user x = some q ∨ some q = pp ∨ m.Free q
  free : ∀ q, m'.Free q → m.Free q ∨ ∃ x, m.slots user x = some q

theorem Local.refl : Local m m user d pp :=
  ⟨fun _ _ h => absurd rfl h, fun _ _ h => .inl h, fun _ h => .inl h⟩

theorem Accounted.not_free_of_dir (h : m.Accounted user own) (hu : user d i = true) : ¬ m.Free d :=
  h.not_free_of_own (h.dirs d i hu)

/-- Words of `d`, of its tables and of free pages may have changed. -/
def Within (m m' : Pmap n) (user : Page n → Idx → Bool) (d : Page n) : Prop :=
  ∀ q j, m'.mem q j ≠ m.mem q j →
    (q = d ∧ user d j = true) ∨ (∃ i, m.tableAt user d i = some q) ∨ m.Free q

section

variable (hl : Within m m' user d)
include hl

section

variable (h : m.Accounted user own)
include h

/-- No directory changes but `d`, and that one only in entries of its own. -/
theorem Within.dirWord (hq : user q j = true) (hne : q ≠ d ∨ user d i = false) :
    m'.mem q i = m.mem q i := by
  by_contra hchanged
  rcases hl q i hchanged with ⟨rfl, hu⟩ | ⟨_, hk⟩ | hfree
  · rcases hne with hne | hno
    · exact hne rfl
    · rw [hno] at hu
      cases hu
  · exact h.tables.ne_dir hk hq rfl
  · exact h.not_free_of_dir hq hfree

/-- The tables of the other directories stay as they are. -/
theorem Within.table (hne : q ≠ d) (ht : m.tableAt user q i = some t) : m'.mem t = m.mem t := by
  funext j
  by_contra hchanged
  rcases hl t j hchanged with ⟨rfl, hu⟩ | ⟨k, hk⟩ | hfree
  · exact h.tables.ne_dir ht hu rfl
  · exact hne (h.tables.alone q i d k t ht hk).1
  · exact h.not_free_of_slot (x := .inl (q, i)) ht hfree

theorem Within.tableAt (hne : q ≠ d) (i : Idx) : m'.tableAt user q i = m.tableAt user q i := by
  unfold Pmap.tableAt
  split
  · next hu => rw [hl.dirWord h hu (.inl hne)]
  · rfl

theorem Within.pageAt (hne : q ≠ d) (i j : Idx) : m'.pageAt user q i j = m.pageAt user q i j := by
  unfold Pmap.pageAt
  rw [hl.tableAt h hne]
  cases ht : m.tableAt user q i with
  | none => rfl
  | some => rw [Option.bind_some, Option.bind_some, hl.table h hne ht]

end

end

section

variable (hl : Local m m' user d pp)
include hl

theorem Local.within : Within m m' user d := hl.mem

section

variable (h : m.Accounted user own)
include h

theorem Local.dirWord (hq : user q j = true) (hne : q ≠ d ∨ user d i = false) :
    m'.mem q i = m.mem q i :=
  hl.within.dirWord h hq hne

theorem Local.table (hne : q ≠ d) (ht : m.tableAt user q i = some t) : m'.mem t = m.mem t :=
  hl.within.table h hne ht

theorem Local.tableAt (hne : q ≠ d) (i : Idx) : m'.tableAt user q i = m.tableAt user q i :=
  hl.within.tableAt h hne i

/-- A spare page stays spare, with what it contains, unless it is the page
that is inserted. -/
theorem Local.spare (h' : m'.Accounted user own) (hs : m.Spare q) (hne : pp ≠ some q) :
    m'.Spare q ∧ m'.mem q = m.mem q := by
  obtain ⟨hdir, hslots, hown⟩ := h.spare hs
  have hslots' : ∀ x, m'.slots user x ≠ some q := by
    intro x hx
    rcases hl.slots x q hx with hold | hnew | hfree
    · exact hslots x hold
    · exact hne hnew.symm
    · exact hs.1 hfree
  refine ⟨⟨fun hfree => ?_, ?_⟩, funext fun j => ?_⟩
  · rcases hl.free q hfree with hold | ⟨x, hx⟩
    · exact hs.1 hold
    · exact hslots x hx
  · have hcount : (m'.ppRef q).toNat = own q + Ledger.refs (m'.slots user) q := h'.count q
    rw [hown, Ledger.refs_eq_zero hslots'] at hcount
    exact BitVec.eq_of_toNat_eq hcount
  · by_contra hchanged
    rcases hl.mem q j hchanged with ⟨rfl, hu⟩ | ⟨k, hk⟩ | hfree
    · rw [hdir j] at hu
      cases hu
    · exact hslots (.inl (d, k)) hk
    · exact hs.1 hfree

end

end

/-- `page_alloc` hands out a blank spare page. -/
theorem Accounted.pageAlloc_local (h : m.Accounted user own) (ha : m.pageAlloc = .ok (p, m')) :
    m'.Accounted user own ∧ Local m m' user d none ∧ m.Free p ∧ m'.Spare p ∧
      m'.mem p = fun _ => 0 := by
  obtain ⟨hacc, hfree, href, hslots, hzero, hmem, hiff⟩ := h.pageAlloc ha
  refine ⟨hacc, ⟨fun q j hne => ?_, fun x q hx => ?_, fun q hq => ?_⟩, hfree, ⟨?_, ?_⟩, hzero⟩
  · have hq : q = p := by
      by_contra hqp
      rw [hmem q hqp] at hne
      exact hne rfl
    exact .inr (.inr (hq ▸ hfree))
  · rw [hslots] at hx
    exact .inl hx
  · exact .inl ((hiff q).mp hq).2
  · exact fun hq => ((hiff p).mp hq).1 rfl
  · rw [href]
    exact h.idle p hfree

/-- The words that change when an entry is stored. -/
theorem Stored.changed (hst : Stored m m' d va w) (hu : user d (pdx va) = true) (q : Page n)
    (j : Idx) (hne : m'.mem q j ≠ m.mem q j) :
    (q = d ∧ user d j = true) ∨ (∃ i, m.tableAt user d i = some q) ∨ m.Free q := by
  cases hst with
  | table t ht hmem =>
    have hq : q = t := by
      by_contra hqt
      rw [hmem, if_neg (fun heq => hqt heq.1)] at hne
      exact hne rfl
    refine .inr (.inl ⟨pdx va, ?_⟩)
    unfold Pmap.tableAt
    rw [if_pos hu, hq, ht]
  | fresh t hno hfree hmem =>
    by_cases hd : q = d ∧ j = pdx va
    · exact .inl ⟨hd.1, hd.2 ▸ hu⟩
    · rw [hmem, if_neg hd] at hne
      by_cases hq : q = t
      · exact .inr (.inr (hq ▸ hfree))
      · rw [if_neg hq] at hne
        exact absurd rfl hne

theorem entryPage_ne_self (h : m.Accounted user own) (hu : user d i = true) :
    entryPage (m.mem d i) ≠ some d := by
  intro hself
  have ht : m.tableAt user d i = some d := by
    unfold Pmap.tableAt
    rw [if_pos hu, hself]
  exact h.tables.ne_dir ht hu rfl

theorem tableAt_congr (h : m'.mem d i = m.mem d i) : m'.tableAt user d i = m.tableAt user d i := by
  unfold Pmap.tableAt
  rw [h]

/-- Storing an entry takes no table away. -/
theorem Stored.tables (hst : Stored m m' d va w) (h : m.Accounted user own)
    (hu : user d (pdx va) = true) (ht : m.tableAt user q i = some t) :
    m'.tableAt user q i = some t := by
  obtain ⟨hq, hentry⟩ := tableAt_some ht
  rw [← ht]
  apply tableAt_congr
  cases hst with
  | table t' ht' hmem =>
    have htable : m.tableAt user d (pdx va) = some t' := by
      unfold Pmap.tableAt
      rw [if_pos hu, ht']
    have hne := h.tables.ne_dir htable hq
    rw [hmem, if_neg (fun heq => hne heq.1)]
  | fresh t' hno hfree hmem =>
    have hne : ¬ (q = d ∧ i = pdx va) := by
      rintro ⟨rfl, rfl⟩
      rw [entryPage_of_not_valid hno] at hentry
      cases hentry
    have hnt : q ≠ t' := by
      rintro rfl
      exact h.not_free_of_dir hq hfree
    rw [hmem, if_neg hne, if_neg hnt]

/-- `page_insert` on all of its paths, with what it leaves alone. -/
theorem Accounted.pageInsert_local {p : Page n} (hn : n ≤ 2 ^ 20) (h : m.Accounted user own)
    (hu : user d (pdx va) = true) (hfits : pteAddr (mapEntry p perm) = page2pa p)
    (hfree : ¬ m.Free p) (href : (m.ppRef p).toNat < 65535) :
    ∃ r m', m.pageInsert d p va perm = some (r, m') ∧ m'.Accounted user own ∧
      Local m m' user d (some p) ∧
      (r = .ok () ∧ m'.pageAt user d (pdx va) (ptx va) = some p ∨ r = .error .noMem ∧ m' = m) ∧
      (∀ q i j, m'.pageAt user q i j = m.pageAt user q i j ∨
        (q = d ∧ i = pdx va ∧ j = ptx va ∧ m'.pageAt user q i j = some p)) ∧
      ∀ q i t, m.tableAt user q i = some t → m'.tableAt user q i = some t := by
  obtain ⟨r, m', hrun, h', hins, hout⟩ := h.pageInsert hn hu hfits hfree (.inl href)
  rcases hout with ⟨rfl, t, ht, hw⟩ | ⟨rfl, rfl⟩
  · have hst : Stored m m' d va (mapEntry p perm) := by
      rcases pageInsert_stored hn h.list (h.not_free_of_dir hu) (entryPage_ne_self h hu) hrun with
        ⟨_, hst⟩ | ⟨hr, _⟩
      · exact hst
      · cases hr
    have hhere : m'.pageAt user d (pdx va) (ptx va) = some p := by
      rw [pageAt_of_table ht, hw, entryPage_mapEntry hn hfits]
    have hpages : ∀ q i j, m'.pageAt user q i j = m.pageAt user q i j ∨
        (q = d ∧ i = pdx va ∧ j = ptx va ∧ m'.pageAt user q i j = some p) := by
      intro q i j
      rcases hins.pages q i j with hsame | ⟨rfl, rfl, rfl, _⟩
      · exact .inl hsame
      · exact .inr ⟨rfl, rfl, rfl, hhere⟩
    refine ⟨_, m', hrun, h', ⟨hst.changed hu, ?_, ?_⟩, .inl ⟨rfl, hhere⟩, hpages,
      fun q i t ht => hst.tables h hu ht⟩
    · intro x q hx
      rcases x with ⟨d', i'⟩ | ⟨d', i', j'⟩
      · rcases hins.tables d' i' q hx with hold | ⟨hfree, _⟩
        · exact .inl hold
        · exact .inr (.inr hfree)
      · rcases hpages d' i' j' with hsame | ⟨_, _, _, hnew⟩
        · exact .inl (hsame.symm.trans hx)
        · exact .inr (.inl (hx.symm.trans hnew))
    · intro q hq
      rcases hins.free q hq with hold | ⟨d', i', j', hq⟩
      · exact .inl hold
      · exact .inr ⟨.inr (d', i', j'), hq⟩
  · exact ⟨_, m', hrun, h', .refl, .inr ⟨rfl, rfl⟩, fun _ _ _ => .inl rfl, fun _ _ _ ht => ht⟩

/-- The page is in use or on the free list, so it can still be handed out. -/
def Tracked (m : Pmap n) (p : Page n) : Prop :=
  m.ppRef p ≠ 0 ∨ m.Free p

theorem pageDecref_tracked (hlist : m.pageFreeList.Holds m.Free)
    (hidle : ∀ q, m.Free q → m.ppRef q = 0) (hfree : ¬ m.Free p) (href : m.ppRef p ≠ 0)
    (hdec : m.pageDecref p = some m') (q : Page n) : m'.Tracked q ↔ m.Tracked q := by
  obtain ⟨_, hdec₁, _, href₁, _, _, hnew⟩ := pageDecref_spec hlist hidle hfree href
  cases hdec₁.symm.trans hdec
  unfold Tracked
  rw [hnew]
  by_cases hq : q = p
  · subst hq
    have hend : m'.ppRef q ≠ 0 ∨ m'.ppRef q = 0 := (em _).symm
    exact iff_of_true (hend.imp_right (fun hzero => .inr ⟨rfl, hzero⟩)) (.inl href)
  · rw [href₁, update_of_ne hq]
    simp [hq]

/-- From `m` to `m'` mappings and tables of the directory `d` have been taken
away, and no page has been lost. -/
structure Cleared (m m' : Pmap n) (user : Page n → Idx → Bool) (d : Page n) : Prop where
  words : ∀ q j, m'.mem q j ≠ m.mem q j →
    (q = d ∧ user d j = true) ∨ ∃ i, m.tableAt user d i = some q
  tables : ∀ i t, m'.tableAt user d i = some t → m.tableAt user d i = some t
  tracked : ∀ p, m'.Tracked p ↔ m.Tracked p

theorem Cleared.refl : Cleared m m user d :=
  ⟨fun _ _ hne => absurd rfl hne, fun _ _ ht => ht, fun _ => Iff.rfl⟩

theorem Cleared.trans {m'' : Pmap n} (h₁ : Cleared m m' user d) (h₂ : Cleared m' m'' user d) :
    Cleared m m'' user d := by
  refine ⟨fun q j hne => ?_, fun i t ht => h₁.tables i t (h₂.tables i t ht),
    fun p => (h₂.tracked p).trans (h₁.tracked p)⟩
  by_cases hsame : m''.mem q j = m'.mem q j
  · exact h₁.words q j (hsame ▸ hne)
  · rcases h₂.words q j hsame with hdir | ⟨i, hi⟩
    · exact .inl hdir
    · exact .inr ⟨i, h₁.tables i q hi⟩

theorem Cleared.within (h : Cleared m m' user d) : Within m m' user d :=
  fun q j hne => (h.words q j hne).imp_right .inl

section

variable (h : m.Accounted user own)
include h

/-- `page_remove` with what it leaves alone. -/
theorem Accounted.pageRemove_local (hu : user d (pdx va) = true) :
    ∃ m', m.pageRemove d va = some m' ∧ m'.Accounted user own ∧ Local m m' user d none ∧
      (∀ q i, m'.tableAt user q i = m.tableAt user q i) ∧
      (∀ q i j, m'.pageAt user q i j = m.pageAt user q i j ∨
        (q = d ∧ i = pdx va ∧ j = ptx va ∧ m'.pageAt user q i j = none)) ∧
      m'.pageAt user d (pdx va) (ptx va) = none ∧
      ∀ q j, m'.mem q j = m.mem q j ∨ m'.mem q j = 0 := by
  unfold Pmap.pageRemove
  rcases h.pageLookup hu with ⟨hlook, hnone⟩ | ⟨_, t, hlook, ht, hp⟩
  · rw [hlook]
    exact ⟨m, rfl, h, .refl, fun _ _ => rfl, fun _ _ _ => .inl rfl, hnone, fun _ _ => .inl rfl⟩
  · rw [hlook]
    obtain ⟨m₁, hdec, h₁, hslots, _, hfree⟩ := h.unmap ht hp
    have hmem : ∀ q j, (m₁.write (t, ptx va) 0).mem q j =
        if q = t ∧ j = ptx va then 0 else m.mem q j := by
      intro q j
      rw [mem_write, mem_pageDecref hdec]
    refine ⟨_, by simp only [hdec]; rfl, h₁, ⟨?_, ?_, ?_⟩, ?_, ?_, ?_, ?_⟩
    · intro q j hne
      have hq : q = t := by
        by_contra hqt
        rw [hmem, if_neg (fun heq => hqt heq.1)] at hne
        exact hne rfl
      exact .inr (.inl ⟨pdx va, hq ▸ ht⟩)
    · intro x q hx
      rw [hslots, update_apply] at hx
      split at hx
      · cases hx
      · exact .inl hx
    · intro q hq
      rcases hfree q hq with hold | rfl
      · exact .inl hold
      · exact .inr ⟨.inr (d, pdx va, ptx va), hp⟩
    · intro q i
      rw [← slots_inl, hslots, update_of_ne (by simp), slots_inl]
    · intro q i j
      rw [← slots_inr, hslots, update_apply]
      split
      · next heq =>
        obtain ⟨rfl, rfl, rfl⟩ := by simpa using heq
        exact .inr ⟨rfl, rfl, rfl, rfl⟩
      · exact .inl rfl
    · rw [← slots_inr, hslots, update_self]
    · intro q j
      rw [hmem]
      split
      · exact .inr rfl
      · exact .inl rfl

/-- The release of a table in `env_free`, with what it leaves alone. -/
theorem Accounted.releaseTable_local (ht : m.tableAt user d i = some t) (hblank : m.Blank t) :
    ∃ m', (m.write (d, i) 0).pageDecref t = some m' ∧ m'.Accounted user own ∧
      Local m m' user d none ∧
      (∀ q j, m'.mem q j = if q = d ∧ j = i then 0 else m.mem q j) ∧
      ∀ q k j, m'.pageAt user q k j = m.pageAt user q k j := by
  obtain ⟨hu, _⟩ := tableAt_some ht
  obtain ⟨m', hdec, h', hslots, hfree⟩ := h.releaseTable ht hblank
  have hmem : ∀ q j, m'.mem q j = if q = d ∧ j = i then 0 else m.mem q j := by
    intro q j
    rw [mem_pageDecref hdec, mem_write]
  refine ⟨m', hdec, h', ⟨?_, ?_, ?_⟩, hmem, ?_⟩
  · intro q j hne
    by_cases heq : q = d ∧ j = i
    · exact .inl ⟨heq.1, heq.2 ▸ hu⟩
    · rw [hmem, if_neg heq] at hne
      exact absurd rfl hne
  · intro x q hx
    rw [hslots, update_apply] at hx
    split at hx
    · cases hx
    · exact .inl hx
  · intro q hq
    rcases hfree q hq with hold | rfl
    · exact .inl hold
    · exact .inr ⟨.inl (d, i), ht⟩
  · intro q k j
    rw [← slots_inr, hslots, update_of_ne (by simp), slots_inr]

theorem Accounted.pageRemove_cleared (hu : user d (pdx va) = true)
    (hrun : m.pageRemove d va = some m') : Cleared m m' user d := by
  obtain ⟨_, hrun₁, _, _, htables, _⟩ := h.pageRemove_local hu
  cases hrun₁.symm.trans hrun
  unfold Pmap.pageRemove at hrun
  rcases h.pageLookup hu with ⟨hlook, _⟩ | ⟨_, t, hlook, ht, hp⟩
  · rw [hlook] at hrun
    cases hrun
    exact .refl
  · rw [hlook] at hrun
    obtain ⟨_, hdec, rfl⟩ := Option.map_eq_some_iff.mp hrun
    refine ⟨fun q j hne => .inr ⟨pdx va, ?_⟩, fun i t ht => (htables d i).symm.trans ht, ?_⟩
    · by_contra hqt
      have hno : ¬ (q = t ∧ j = ptx va) := by
        rintro ⟨rfl, _⟩
        exact hqt ht
      rw [mem_write, mem_pageDecref hdec, if_neg hno] at hne
      exact hne rfl
    · intro q
      exact pageDecref_tracked h.list h.idle (h.not_free_of_slot (x := .inr (d, pdx va, ptx va)) hp)
        (h.ref_of_slot (x := .inr (d, pdx va, ptx va)) hp) hdec q

theorem Accounted.releaseTable_cleared (ht : m.tableAt user d i = some t)
    (hdec : (m.write (d, i) 0).pageDecref t = some m') : Cleared m m' user d := by
  obtain ⟨hu, _⟩ := tableAt_some ht
  have hmem : ∀ q j, m'.mem q j = if q = d ∧ j = i then 0 else m.mem q j := by
    intro q j
    rw [mem_pageDecref hdec, mem_write]
  refine ⟨fun q j hne => .inl ?_, fun k x hx => ?_, ?_⟩
  · by_contra hno
    refine hne ((hmem q j).trans (if_neg ?_))
    rintro ⟨rfl, rfl⟩
    exact hno ⟨rfl, hu⟩
  · by_cases hk : k = i
    · rw [tableAt_of_not_valid (by rw [hmem, if_pos ⟨rfl, hk⟩]; exact pteValid_zero)] at hx
      cases hx
    · rw [← hx]
      exact (tableAt_congr (by rw [hmem, if_neg (fun heq => hk heq.2)])).symm
  · exact pageDecref_tracked (m := m.write (d, i) 0) h.list h.idle
      (h.not_free_of_slot (x := .inl (d, i)) ht) (h.ref_of_slot (x := .inl (d, i)) ht) hdec

/-- A word of a directory that is not one of its entries in `user`. -/
theorem Accounted.dirWord (hu : user d i = true) (hj : user d j = false) :
    (m.write (d, j) w).Accounted user own ∧
      (m.write (d, j) w).slots user = m.slots user := by
  have hdir : ∀ q k, user q k = true → (m.write (d, j) w).mem q k = m.mem q k := by
    intro q k hq
    have hne : ¬ (q = d ∧ k = j) := by
      rintro ⟨rfl, rfl⟩
      rw [hj] at hq
      cases hq
    rw [mem_write, if_neg hne]
  have htable : ∀ q k t, m.tableAt user q k = some t → (m.write (d, j) w).mem t = m.mem t := by
    intro q k t ht
    have hne := h.tables.ne_dir ht hu
    funext x
    rw [mem_write, if_neg (fun heq => hne heq.1.symm)]
  have hslots : (m.write (d, j) w).slots user = m.slots user :=
    slots_congr hdir (fun q k t x ht => by rw [htable q k t ht])
  refine ⟨⟨h.tables.congr hdir htable, h.list, h.idle, ?_, h.dirs⟩, hslots⟩
  rw [hslots]
  exact h.count

end

/-- `page_insert` at an address whose table is the directory itself. -/
theorem pageInsert_self {p : Page n} (hself : entryPage (m.mem d (pdx va)) = some d)
    (hno : pteValid (m.mem d (ptx va)) = false) :
    m.pageInsert d p va perm = some (.ok (), (m.write (d, ptx va) (mapEntry p perm)).incref p) := by
  have hno' : pteValid (m.read (d, ptx va)) = false := hno
  unfold Pmap.pageInsert
  simp only [pgdirWalk_of_table hself, hno', Bool.false_eq_true, if_false, mapPage_of_table hself]

theorem mapEntry_zero (p : Page n) : mapEntry p 0 = tableEntry p := by
  unfold mapEntry tableEntry
  rw [show page2pa p ||| (0 : Word) = page2pa p from BitVec.or_zero]

/-- A spare page becomes a table of the directory, as when `passive_alloc`
fills the window at `UVPT`. -/
theorem Accounted.hang_local (hn : n ≤ 2 ^ 20) (h : m.Accounted user own) (hu : user d i = true)
    (hinv : pteValid (m.mem d i) = false) (hs : m.Spare t) (hblank : m.Blank t) :
    ((m.write (d, i) (tableEntry t)).incref t).Accounted user own ∧
      Local m ((m.write (d, i) (tableEntry t)).incref t) user d (some t) ∧
      ∀ q k j, ((m.write (d, i) (tableEntry t)).incref t).pageAt user q k j =
        m.pageAt user q k j := by
  obtain ⟨h', hslots⟩ := h.hang hn hu hinv hs hblank
  refine ⟨h', ⟨fun q j hne => ?_, fun x q hx => ?_, fun q hq => .inl hq⟩, fun q k j => ?_⟩
  · by_cases heq : q = d ∧ j = i
    · exact .inl ⟨heq.1, heq.2 ▸ hu⟩
    · have hsame : ((m.write (d, i) (tableEntry t)).incref t).mem q j = m.mem q j := by
        show (m.write (d, i) (tableEntry t)).mem q j = _
        rw [mem_write, if_neg heq]
      exact absurd hsame hne
  · rw [hslots, update_apply] at hx
    split at hx
    · exact .inr (.inl hx.symm)
    · exact .inl hx
  · rw [← slots_inr, hslots, update_of_ne (by simp), slots_inr]

end Pmap

end MosSmp
