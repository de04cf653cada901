import MosSmp.Pmap.Confine
import MosSmp.Pmap.Refine

/-!
Reference counts and their width. `pp_ref` has sixteen bits and `page_insert`
increments it without a test, while one address space has room for more than
half a million mappings of the same page. As long as no counter is about to
overflow, and calls pass permission bits only, every counter is the number of
references to its page, and a page that is mapped is not on the free list.

The other case needs a long run: one environment maps one page again and
again. After 65537 mappings, which take 65 tables, the counter is 1, and the
removal of any one of them puts the page on the free list.
-/

namespace MosSmp

open Lib Function Pmap MemSys BitVec List

namespace MemSys

variable {n : Nat}

/-- The number of valid table entries that map `p`. -/
def mappings (s : MemSys n) (p : Page n) : Nat :=
  Ledger.refs (fun x : Page n × Idx × Idx => s.pageAt x.1 x.2.1 x.2.2) p

/-- The number of directory entries that have `p` as their table. -/
def tableRefs (s : MemSys n) (p : Page n) : Nat :=
  Ledger.refs (fun x : Page n × Idx => s.tableAt x.1 x.2) p

/-- Reference counts are exact. -/
structure RefsExact (s : MemSys n) : Prop where
  /-- Kernel memory and directories have owners, a table has its directory
  entry, and every other reference is a mapping. -/
  counts : ∀ p, (s.pm.ppRef p).toNat = s.mappings p + s.tableRefs p + s.own p
  /-- For a page of an environment the mappings are all there is. -/
  user : ∀ e d i j p, s.pgdir e = some d → i < pdx UTOP → s.pageAt d i j = some p →
    (s.pm.ppRef p).toNat = s.mappings p
  /-- A page with a mapping has not been released. -/
  kept : ∀ d i j p, s.pageAt d i j = some p → ¬ s.pm.Free p

theorem Inv.refsExact {s : MemSys n} (hinv : s.Inv) : s.RefsExact := by
  have hcounts : ∀ p, (s.pm.ppRef p).toNat = s.mappings p + s.tableRefs p + s.own p := by
    intro p
    have hcount : (s.pm.ppRef p).toNat = s.own p + Ledger.refs (s.pm.slots s.user) p :=
      hinv.acc.count p
    have hsplit : Ledger.refs (s.pm.slots s.user) p = s.tableRefs p + s.mappings p :=
      Ledger.refs_sum _ p
    omega
  refine ⟨hcounts, fun e d i j p hd hi hp => ?_, fun d i j p hp => ?_⟩
  · obtain ⟨_, htab, _⟩ := hinv.mapped e d i j p hd hi hp
    have hnone : s.tableRefs p = 0 := Ledger.refs_eq_zero fun x => htab x.1 x.2
    have hcount := hcounts p
    omega
  · exact hinv.acc.not_free_of_slot (x := .inr (d, i, j)) hp

end MemSys

/-- In every run of calls that pass permission bits only, and that start with
no counter at its limit, the reference counts are exact. -/
theorem refsExact_of_lowPerm {memsize : Word} {s : MemSys (npage memsize)}
    (hrun : (memCalls memsize).ReachableUnder MemSys.LowPerm s) : s.RefsExact := by
  have hinv : s.Inv := by
    apply hrun.invariant
    · intro s hs
      exact MemSys.Inv.start hs
    · intro s call s' _ hinv hok hstep
      exact hinv.step (npage_le memsize) hok hstep
  exact hinv.refsExact

/-- An environment maps a page twice and removes one of the mappings. -/
theorem refsExact_mappedAndRemoved :
    ∃ s : MemSys (npage 0x8000), (memCalls 0x8000).ReachableUnder MemSys.LowPerm s ∧
      (s.pm.ppRef ⟨5, by decide⟩ = 1 ∧
        s.pageAt ⟨6, by decide⟩ 1 1 = some ⟨5, by decide⟩) ∧ s.RefsExact := by
  have hstart : (memCalls 0x8000).ReachableUnder MemSys.LowPerm bootMem := .init bootMem_init
  obtain ⟨s, hs, hmapped⟩ := Machine.exists_reachableUnder_of_exec
    (P := fun s : MemSys (npage 0x8000) => s.pm.ppRef ⟨5, by decide⟩ = 1 ∧
      s.pageAt ⟨6, by decide⟩ 1 1 = some ⟨5, by decide⟩)
    [.setupVm 0, .memAlloc 0 0 0x400000 0x100, .memMap 0 0 0x400000 0 0x401000 0x100,
      .memUnmap 0 0 0x400000]
    hstart (by decide +kernel)
  exact ⟨s, hs, hmapped, refsExact_of_lowPerm hs⟩

/-- The address of the `q`-th page from the start of the second directory
entry on. -/
def pageVa (q : Nat) : Word := BitVec.ofNat 32 ((1024 + q) * 4096)

section PageVa

variable {q : Nat}

theorem pdx_pageVa (hq : q < 2 ^ 18) : (pdx (pageVa q)).val = q / 1024 + 1 := by
  rw [pdx_val, pageVa, toNat_ofNat]
  omega

theorem ptx_pageVa (q : Nat) : (ptx (pageVa q)).val = q % 1024 := by
  rw [ptx_val, pageVa, toNat_ofNat]
  omega

theorem legal_pageVa (hq : q < 2 ^ 18) : isIllegalVa (pageVa q) = false := by
  have hva : (pageVa q).toNat = (1024 + q) * 4096 := by
    rw [pageVa, toNat_ofNat]
    omega
  have htemp : UTEMP.toNat = 0x3fe000 := by decide
  have htop : UTOP.toNat = 0x7f400000 := by decide
  simp only [isIllegalVa, Bool.or_eq_false_iff, decide_eq_false_iff_not, lt_def, le_def, hva]
  omega

end PageVa

namespace Pmap

variable {n : Nat} {m : Pmap n} {d t pp : Page n} {va perm : Word}

theorem pageInsert_emptyEntry (ht : entryPage (m.mem d (pdx va)) = some t)
    (hempty : pteValid (m.mem t (ptx va)) = false) :
    m.pageInsert d pp va perm =
      some (.ok (), (m.write (t, ptx va) (mapEntry pp perm)).incref pp) := by
  have hempty' : pteValid (m.read (t, ptx va)) = false := hempty
  unfold pageInsert
  rw [pgdirWalk_of_table ht]
  simp only [hempty', Bool.false_eq_true, if_false]
  exact mapPage_of_table ht

theorem pageInsert_noTable (hno : pteValid (m.mem d (pdx va)) = false) :
    m.pageInsert d pp va perm = m.mapPage d pp va perm := by
  unfold pageInsert
  rw [pgdirWalk_of_no_table hno]

theorem pageAlloc_first (h : m.pageFreeList.first = some pp) : m.pageAlloc = .ok (pp, { m with
      pageFreeList := m.pageFreeList.remove pp
      mem := update m.mem pp (fun _ => 0) }) := by
  unfold pageAlloc
  rw [h]

/-- The number of tables that `k` mappings take. -/
def tablesFor (k : Nat) : Nat := (k + 1023) / 1024

/-- The first `k` pages from `pageVa 0` on are mapped to `p`, through the
tables `T 0`, `T 1` and so on; the tables still to come are on the free
list. -/
structure Filled (m : Pmap n) (d p : Page n) (T : Nat → Page n) (k : Nat) : Prop where
  count : m.ppRef p = BitVec.ofNat 16 k
  spare : ∃ r, tablesFor k + r = 123 ∧ m.pageFreeList.Rep ((range' (tablesFor k) r).map T)
  table : ∀ i : Idx, 0 < i.val → i.val ≤ tablesFor k → m.mem d i = tableEntry (T (i.val - 1))
  noTable : ∀ i : Idx, tablesFor k < i.val → i.val ≤ 65 → m.mem d i = 0
  entry : ∀ i (j : Idx), i < tablesFor k →
    m.mem (T i) j = if i * 1024 + j.val < k then mapEntry p 0x100 else 0

/-- The tables are different pages, and neither the directory nor the page
that is mapped. -/
structure Apart (d p : Page n) (T : Nat → Page n) : Prop where
  inj : ∀ i j, i < 123 → j < 123 → T i = T j → i = j
  dir : ∀ i, i < 123 → T i ≠ d
  page : ∀ i, i < 123 → T i ≠ p

variable {p : Page n} {T : Nat → Page n} {k : Nat}

theorem ofNat_succ (k : Nat) : BitVec.ofNat 16 k + 1 = BitVec.ofNat 16 (k + 1) := by
  rw [BitVec.ofNat_add]
  rfl

section

variable (hn : n ≤ 2 ^ 20) (h : m.Filled d p T k)
include hn h

section

variable (hT : Apart d p T) (hk : k ≤ 65536)
include hT hk

theorem Filled.next_entry (hin : k % 1024 ≠ 0) :
    ∃ m', m.pageInsert d p (pageVa k) 0x100 = some (.ok (), m') ∧ m'.Filled d p T (k + 1) := by
  have hused : tablesFor k = k / 1024 + 1 := by
    unfold tablesFor
    omega
  have hnext : tablesFor (k + 1) = tablesFor k := by
    unfold tablesFor
    omega
  have hpdx := pdx_pageVa (q := k) (by omega)
  have hptx := ptx_pageVa k
  have hdir : m.mem d (pdx (pageVa k)) = tableEntry (T (k / 1024)) := by
    rw [h.table _ (by omega) (by omega), hpdx, Nat.add_sub_cancel]
  have htable : entryPage (m.mem d (pdx (pageVa k))) = some (T (k / 1024)) := by
    rw [hdir]
    exact entryPage_tableEntry hn _
  have hempty : pteValid (m.mem (T (k / 1024)) (ptx (pageVa k))) = false := by
    rw [h.entry _ _ (by omega), if_neg (by omega)]
    exact pteValid_zero
  have hmem : ∀ q j, q ≠ T (k / 1024) →
      ((m.write (T (k / 1024), ptx (pageVa k)) (mapEntry p 0x100)).incref p).mem q j =
        m.mem q j := by
    intro q j hq
    show (Pmap.write _ _ _).mem q j = _
    rw [mem_write, if_neg fun heq => hq heq.1]
  have hd : d ≠ T (k / 1024) := (hT.dir _ (by omega)).symm
  refine ⟨_, pageInsert_emptyEntry htable hempty, ?_, ?_, ?_, ?_, ?_⟩
  · show update m.ppRef p (m.ppRef p + 1) p = _
    rw [update_self, h.count, ofNat_succ]
  · rw [hnext]
    exact h.spare
  · intro i hpos hle
    rw [hmem d i hd]
    exact h.table i hpos (hnext ▸ hle)
  · intro i hlt hle
    rw [hmem d i hd]
    exact h.noTable i (hnext ▸ hlt) hle
  · intro i j hi
    rw [hnext] at hi
    by_cases hsame : i = k / 1024
    · subst hsame
      show (Pmap.write _ _ _).mem _ _ = _
      rw [mem_write, h.entry _ _ hi]
      by_cases hj : j = ptx (pageVa k)
      · rw [if_pos ⟨rfl, hj⟩, hj, if_pos (by omega)]
      · rw [if_neg fun heq => hj heq.2]
        have hne : j.val ≠ k % 1024 := fun heq => hj (Fin.ext (heq.trans hptx.symm))
        have hiff : k / 1024 * 1024 + j.val < k + 1 ↔ k / 1024 * 1024 + j.val < k := by omega
        simp only [hiff]
    · have hne : T i ≠ T (k / 1024) := fun heq => hsame (hT.inj _ _ (by omega) (by omega) heq)
      rw [hmem _ _ hne, h.entry _ _ hi]
      have hiff : i * 1024 + j.val < k + 1 ↔ i * 1024 + j.val < k := by omega
      simp only [hiff]

theorem Filled.next_table (hin : k % 1024 = 0) :
    ∃ m', m.pageInsert d p (pageVa k) 0x100 = some (.ok (), m') ∧ m'.Filled d p T (k + 1) := by
  have hused : tablesFor k = k / 1024 := by
    unfold tablesFor
    omega
  have hnext : tablesFor (k + 1) = k / 1024 + 1 := by
    unfold tablesFor
    omega
  obtain ⟨r, _, hrep⟩ := h.spare
  obtain ⟨r, rfl⟩ : ∃ r', r = r' + 1 := ⟨r - 1, by omega⟩
  rw [hused, range'_succ, map_cons] at hrep
  have hpdx := pdx_pageVa (q := k) (by omega)
  have hptx := ptx_pageVa k
  have hno : pteValid (m.mem d (pdx (pageVa k))) = false := by
    rw [h.noTable _ (by omega) (by omega)]
    exact pteValid_zero
  have hd : d ≠ T (k / 1024) := (hT.dir _ (by omega)).symm
  have hp : p ≠ T (k / 1024) := (hT.page _ (by omega)).symm
  have hmem : ∀ q j, (((({ m with
      pageFreeList := m.pageFreeList.remove (T (k / 1024))
      mem := update m.mem (T (k / 1024)) (fun _ => 0) } : Pmap n).write
        (d, pdx (pageVa k)) (tableEntry (T (k / 1024)))).incref (T (k / 1024))).write
        (T (k / 1024), ptx (pageVa k)) (mapEntry p 0x100)).mem q j =
      if q = T (k / 1024) then if j = ptx (pageVa k) then mapEntry p 0x100 else 0
      else if q = d ∧ j = pdx (pageVa k) then tableEntry (T (k / 1024)) else m.mem q j := by
    intro q j
    rw [mem_write]
    show (if _ then _ else (Pmap.write _ _ _).mem q j) = _
    rw [mem_write]
    by_cases hq : q = T (k / 1024)
    · simp [hq, hd.symm]
    · simp [hq]
  refine ⟨_, (pageInsert_noTable hno).trans (mapPage_newTable hn hno hrep.first_eq), ?_, ?_, ?_,
    ?_, ?_⟩
  · show update (update m.ppRef (T (k / 1024)) _) p _ p = _
    rw [update_self]
    show update m.ppRef (T (k / 1024)) _ p + 1 = _
    rw [update_of_ne hp, h.count, ofNat_succ]
  · refine ⟨r, by omega, ?_⟩
    have hrest := hrep.remove mem_cons_self
    rw [erase_cons_head] at hrest
    rw [hnext]
    exact hrest
  · intro i hpos hle
    rw [hnext] at hle
    refine (hmem d i).trans ?_
    rw [if_neg hd]
    by_cases hi : i = pdx (pageVa k)
    · rw [if_pos ⟨rfl, hi⟩, hi, hpdx, Nat.add_sub_cancel]
    · have hne : i.val ≠ k / 1024 + 1 := fun heq => hi (Fin.ext (heq.trans hpdx.symm))
      rw [if_neg fun heq => hi heq.2]
      exact h.table i hpos (by omega)
  · intro i hlt hle
    rw [hnext] at hlt
    refine (hmem d i).trans ?_
    have hne : i ≠ pdx (pageVa k) := by
      rintro rfl
      omega
    rw [if_neg hd, if_neg fun heq => hne heq.2]
    exact h.noTable i (by omega) hle
  · intro i j hi
    rw [hnext] at hi
    refine (hmem (T i) j).trans ?_
    by_cases hsame : i = k / 1024
    · subst hsame
      rw [if_pos rfl]
      by_cases hj : j = ptx (pageVa k)
      · rw [if_pos hj, hj, if_pos (by omega)]
      · have hne : j.val ≠ k % 1024 := fun heq => hj (Fin.ext (heq.trans hptx.symm))
        rw [if_neg hj, if_neg (by omega)]
    · have hne : T i ≠ T (k / 1024) := fun heq => hsame (hT.inj _ _ (by omega) (by omega) heq)
      rw [if_neg hne, if_neg fun heq => hT.dir i (by omega) heq.1, h.entry i j (by omega)]
      have hiff : i * 1024 + j.val < k + 1 ↔ i * 1024 + j.val < k := by omega
      simp only [hiff]

/-- One more mapping. -/
theorem Filled.next :
    ∃ m', m.pageInsert d p (pageVa k) 0x100 = some (.ok (), m') ∧ m'.Filled d p T (k + 1) := by
  by_cases hin : k % 1024 = 0
  · exact h.next_table hn hT hk hin
  · exact h.next_entry hn hT hk hin

end

/-- The entry of a page that has been mapped. -/
theorem Filled.leaf (hk : k ≤ 65537) {q : Nat} (hq : q < k) :
    entryPage (m.mem d (pdx (pageVa q))) = some (T (q / 1024)) ∧
      m.mem (T (q / 1024)) (ptx (pageVa q)) = mapEntry p 0x100 := by
  have hpdx := pdx_pageVa (q := q) (by omega)
  have hptx := ptx_pageVa q
  have hused : q / 1024 < tablesFor k := by
    unfold tablesFor
    omega
  constructor
  · rw [h.table _ (by omega) (by omega), hpdx, Nat.add_sub_cancel]
    exact entryPage_tableEntry hn _
  · rw [h.entry _ _ hused, if_pos (by omega)]

theorem Filled.pageLookup (hk : k ≤ 65537) {q : Nat} (hq : q < k) :
    m.pageLookup d (pageVa q) = some (some (p, (T (q / 1024), ptx (pageVa q)))) := by
  obtain ⟨htable, hentry⟩ := h.leaf hn hk hq
  have hread : m.read (T (q / 1024), ptx (pageVa q)) = mapEntry p 0x100 := hentry
  have hpage : pa2page (mapEntry p 0x100) = some p :=
    pa2page_of_addr hn (pteAddr_mapEntry_of_lt p (by decide))
  unfold Pmap.pageLookup
  rw [pgdirWalk_of_table htable]
  simp only [hread, pteValid_mapEntry, if_true, hpage, Option.map_some]

end

end Pmap

namespace MemSys

/-- The call passes permission bits only. -/
def PermBits : MemCall → Prop
  | .memAlloc _ _ _ perm | .memMap _ _ _ _ _ perm | .ipcTrySend _ _ _ _ perm => perm < 0x1000#32
  | _ => True

variable {n : Nat} {s : MemSys n} {d p : Page n} {T : Nat → Page n} {k : Nat}

theorem insertInto_ok {m : Pmap n} {va perm : Word} (hd : s.pgdir 0 = some d)
    (h : s.pm.pageInsert d p va perm = some (.ok (), m)) :
    ∃ s', s.insertInto 0 p va perm = some (.ok (), s') ∧ s'.pm = m ∧ s'.pgdir 0 = some d := by
  refine ⟨{ s with
    pm := m
    grants := update s.grants 0 (update (s.grants 0) p true)
    stored := (p, m.entryAt d va) :: s.stored }, ?_, rfl, hd⟩
  unfold insertInto
  rw [hd]
  dsimp only
  rw [h]

/-- Environment 0 maps the page once more. -/
theorem exec_mapAgain (hn : n ≤ 2 ^ 20) (hd : s.pgdir 0 = some d) (h : s.pm.Filled d p T k)
    (hT : Pmap.Apart d p T) (hpos : 0 < k) (hk : k ≤ 65536) :
    ∃ s', s.exec (.memMap 0 0 (pageVa 0) 0 (pageVa k) 0x100) = some s' ∧
      s'.pgdir 0 = some d ∧ s'.pm.Filled d p T (k + 1) := by
  obtain ⟨_, hins, hfilled⟩ := h.next hn hT hk
  obtain ⟨s', hrun, rfl, hd'⟩ := insertInto_ok hd hins
  refine ⟨s', ?_, hd', hfilled⟩
  have hlook : s.lookupIn 0 (pageVa 0) = some (some p) := by
    unfold lookupIn
    rw [hd]
    dsimp only
    rw [h.pageLookup hn (by omega) hpos]
    rfl
  have hself : s.kern.envid2env 0 0 true = .ok 0 := rfl
  simp only [exec, sysMemMap, legal_pageVa (q := 0) (by omega), legal_pageVa (q := k) (by omega),
    Bool.or_false, Bool.false_eq_true, if_false, hself, hlook, hrun, Option.map_some]

/-- Environment 0 gets a directory. -/
theorem exec_setupVm_first {xs : List (Page n)} (hd : s.pgdir 0 = none)
    (hrep : s.pm.pageFreeList.Rep (d :: xs)) :
    ∃ s', s.exec (.setupVm 0) = some s' ∧ s'.pgdir 0 = some d ∧ s'.pm.pageFreeList.Rep xs ∧
      (∀ q, q ≠ d → s'.pm.ppRef q = s.pm.ppRef q) ∧
      ∀ i, i < pdx UTOP → s'.pm.mem d i = 0 := by
  have hrest := hrep.remove mem_cons_self
  rw [erase_cons_head] at hrest
  simp only [exec, if_pos hd, envSetupVm, pageAlloc_first hrep.first_eq]
  refine ⟨_, rfl, ?_, hrest, fun q hq => ?_, fun i hi => ?_⟩
  · show update s.pgdir 0 (some d) 0 = some d
    exact update_self ..
  · show update s.pm.ppRef d _ q = s.pm.ppRef q
    exact update_of_ne hq ..
  · show update (update s.pm.mem d fun _ => 0) d (s.template d) d i = 0
    rw [update_self]
    exact template_below hi

/-- Environment 0 allocates a page at `pageVa 0`. -/
theorem exec_memAlloc_first (hn : n ≤ 2 ^ 20) (hd : s.pgdir 0 = some d)
    (hrep : s.pm.pageFreeList.Rep (p :: (range' 0 123).map T)) (href : s.pm.ppRef p = 0)
    (hblank : ∀ i : Idx, i.val ≤ 65 → s.pm.mem d i = 0) (hne : d ≠ p) (hT : Pmap.Apart d p T) :
    ∃ s', s.exec (.memAlloc 0 0 (pageVa 0) 0x100) = some s' ∧ s'.pgdir 0 = some d ∧
      s'.pm.Filled d p T 1 := by
  have hrest := hrep.remove mem_cons_self
  rw [erase_cons_head] at hrest
  have hstart : Pmap.Filled { s.pm with
      pageFreeList := s.pm.pageFreeList.remove p
      mem := update s.pm.mem p (fun _ => 0) } d p T 0 := by
    refine ⟨href, ⟨123, rfl, hrest⟩, fun i hpos hle => ?_, fun i _ hle => ?_, fun i j hi => ?_⟩
    · exact absurd hle (Nat.not_le.mpr hpos)
    · show update s.pm.mem p (fun _ => 0) d i = 0
      rw [update_of_ne hne]
      exact hblank i hle
    · exact absurd hi (Nat.not_lt_zero i)
  obtain ⟨_, hins, hfilled⟩ := hstart.next hn hT (Nat.zero_le _)
  obtain ⟨s', hrun, rfl, hd'⟩ := insertInto_ok (s := { s with
    pm := { s.pm with
      pageFreeList := s.pm.pageFreeList.remove p
      mem := update s.pm.mem p (fun _ => 0) }
    grants := fun e' q => s.grants e' q && decide (q ≠ p) }) hd hins
  refine ⟨s', ?_, hd', hfilled⟩
  have hself : s.kern.envid2env 0 0 true = .ok 0 := rfl
  simp only [exec, sysMemAlloc, legal_pageVa (q := 0) (by omega), Bool.false_eq_true, if_false,
    hself, Pmap.pageAlloc_first hrep.first_eq, hrun, Option.map_some]

end MemSys

/-- A page of a machine with 128 pages. -/
def widePage (k : Nat) : Page (npage 0x80000) := Fin.ofNat 128 k

/-- The page layer of that machine right after `page_init`. -/
def widePages : Pmap (npage 0x80000) := pageInit _ 2 (fun _ _ => 0)

/-- 128 pages, of which the kernel has two and the base directory is the
last. -/
def wideMem : MemSys (npage 0x80000) where
  kern := Kern.envInit
  pm := ({ widePages with
    pageFreeList := widePages.pageFreeList.remove (widePage 127)
    mem := update widePages.mem (widePage 127) (fun _ => 0) } : Pmap _).incref
      (widePage 127)
  freemem := 2
  basePgdir := widePage 127
  sysDirs := update (fun _ => false) (widePage 127) true
  pgdir := fun _ => none
  own := update (fun p => if p.val < 2 then 1 else 0) (widePage 127) 1
  grants := fun _ _ => false
  stored := []

/-- The pages that become tables, in the order in which they do. -/
def wideTable (i : Nat) : Page (npage 0x80000) := widePage (124 - i)

theorem rep_widePages : widePages.pageFreeList.Rep
    (widePage 127 :: widePage 126 :: widePage 125 :: (range' 0 123).map wideTable) := by
  have hlist : ((finRange (npage 0x80000)).filter (fun pp => 2 ≤ pp.val)).reverse =
      widePage 127 :: widePage 126 :: widePage 125 :: (range' 0 123).map wideTable := by
    decide +kernel
  exact Links.rep_foldl_insertHead ((nodup_finRange _).filter _)

theorem widePage_inj {i j : Nat} (hi : i < 128) (hj : j < 128) (h : widePage i = widePage j) :
    i = j := by
  have hval := congrArg Fin.val h
  simp only [widePage, Fin.ofNat] at hval
  omega

theorem wideTables_apart : Pmap.Apart (widePage 126) (widePage 125) wideTable where
  inj := fun i j hi hj h => by
    have := widePage_inj (by omega) (by omega) h
    omega
  dir := fun i hi h => by
    have := widePage_inj (by omega) (by omega) h
    omega
  page := fun i hi h => by
    have := widePage_inj (by omega) (by omega) h
    omega

theorem wideMem_init : (memCalls 0x80000).init wideMem := by
  have hstart : (frames 0x80000).ReachableUnder Frames.Allowed
      (Frames.start _ 2 (fun _ _ => 0)) := .init ⟨2, fun _ _ => 0, rfl⟩
  refine ⟨{ pm := wideMem.pm, dirs := wideMem.sysDirs, own := wideMem.own },
    .step hstart (l := .newDir) trivial ?_, rfl, rfl, rfl, fun _ => rfl, ?_, ?_, rfl⟩
  · have halloc : (Frames.start (npage 0x80000) 2 (fun _ _ => 0)).pm.pageAlloc = _ :=
      pageAlloc_first rep_widePages.first_eq
    rfl
  · decide +kernel
  · intro e _
    rfl

/-- Environment 0 gets a directory and a page. -/
theorem exists_firstMapping : ∃ s, (memCalls 0x80000).ReachableUnder (fun _ => MemSys.PermBits) s ∧
    s.pgdir 0 = some (widePage 126) ∧
    s.pm.Filled (widePage 126) (widePage 125) wideTable 1 := by
  have hrep : wideMem.pm.pageFreeList.Rep
      (widePage 126 :: widePage 125 :: (range' 0 123).map wideTable) := by
    have h := rep_widePages.remove mem_cons_self
    rwa [erase_cons_head] at h
  have hstart : (memCalls 0x80000).ReachableUnder (fun _ => MemSys.PermBits) wideMem :=
    .init wideMem_init
  obtain ⟨s₁, hsetup, hd, hrep₁, href, hblank⟩ := MemSys.exec_setupVm_first rfl hrep
  have hne : widePage 126 ≠ widePage 125 := by decide
  have hzero : s₁.pm.ppRef (widePage 125) = 0 := (href _ hne.symm).trans (by decide)
  obtain ⟨s₂, halloc, hd₂, hfilled⟩ := MemSys.exec_memAlloc_first (npage_le _) hd hrep₁ hzero
    (fun i hi => hblank i (by rw [Fin.lt_def, pdx_utop.1]; omega)) hne wideTables_apart
  have hperm : MemSys.PermBits (.memAlloc 0 0 (pageVa 0) 0x100) := by
    show 0x100#32 < 0x1000#32
    decide
  exact ⟨s₂, .step _ (.step (l := .setupVm 0) hstart trivial hsetup) hperm halloc, hd₂, hfilled⟩

theorem exists_filled {k : Nat} (hpos : 0 < k) (hk : k ≤ 65537) :
    ∃ s, (memCalls 0x80000).ReachableUnder (fun _ => MemSys.PermBits) s ∧
      s.pgdir 0 = some (widePage 126) ∧
      s.pm.Filled (widePage 126) (widePage 125) wideTable k := by
  induction k with
  | zero => omega
  | succ k ih =>
    by_cases hfirst : k = 0
    · subst hfirst
      exact exists_firstMapping
    · obtain ⟨s, hs, hd, hfilled⟩ := ih (by omega) (by omega)
      obtain ⟨s', hstep, hd', hfilled'⟩ := MemSys.exec_mapAgain (npage_le _) hd hfilled
        wideTables_apart (by omega) (by omega)
      have hperm : MemSys.PermBits (.memMap 0 0 (pageVa 0) 0 (pageVa k) 0x100) := by
        show 0x100#32 < 0x1000#32
        decide
      exact ⟨s', .step _ hs hperm hstep, hd', hfilled'⟩

/-- The removal of the first of 65537 mappings. -/
theorem Pmap.Filled.pageRemove {n : Nat} {m : Pmap n} {d p : Page n} {T : Nat → Page n}
    (hn : n ≤ 2 ^ 20) (h : m.Filled d p T 65537) (hT : Apart d p T) :
    ∃ m', m.pageRemove d (pageVa 0) = some m' ∧ m'.ppRef p = 0 ∧ m'.Free p ∧
      ∀ q, 0 < q → q < 65537 → entryPage (m'.mem d (pdx (pageVa q))) = some (T (q / 1024)) ∧
        m'.mem (T (q / 1024)) (ptx (pageVa q)) = mapEntry p 0x100 := by
  have hone : m.ppRef p = 1 := h.count
  obtain ⟨r, _, hrep⟩ := h.spare
  have hnew : p ∉ (range' (tablesFor 65537) r).map T := by
    intro hin
    obtain ⟨i, hi, heq⟩ := mem_map.mp hin
    have hlt := mem_range'_1.mp hi
    exact hT.page i (by omega) heq
  have hdec : m.pageDecref p = some { m with
      ppRef := update m.ppRef p 0
      pageFreeList := m.pageFreeList.insertHead p } := by
    unfold pageDecref
    simp [hone]
  have hremove : m.pageRemove d (pageVa 0) = some (({ m with
      ppRef := update m.ppRef p 0
      pageFreeList := m.pageFreeList.insertHead p } : Pmap n).write
        (T (0 / 1024), ptx (pageVa 0)) 0) := by
    unfold Pmap.pageRemove
    rw [h.pageLookup hn (Nat.le_refl _) (by omega)]
    dsimp only
    rw [hdec]
    rfl
  refine ⟨_, hremove, ?_, ?_, fun q hpos hq => ?_⟩
  · show update m.ppRef p 0 p = 0
    exact update_self ..
  · exact (hrep.insertHead hnew).listed_iff.mpr mem_cons_self
  · obtain ⟨htable, hentry⟩ := h.leaf hn (Nat.le_refl _) hq
    have hptx := ptx_pageVa q
    have hptx0 := ptx_pageVa 0
    rw [mem_write, mem_write]
    have hd : d ≠ T (0 / 1024) := (hT.dir _ (by omega)).symm
    have hother : ¬ (T (q / 1024) = T (0 / 1024) ∧ ptx (pageVa q) = ptx (pageVa 0)) := by
      rintro ⟨hsame, heq⟩
      have := hT.inj _ _ (by omega) (by omega) hsame
      have := congrArg Fin.val heq
      omega
    rw [if_neg fun heq => hd heq.1, if_neg hother]
    exact ⟨htable, hentry⟩

/-- After 65537 mappings the counter of the page is 1, and the removal of one
mapping releases the page while the others stay. -/
theorem mappedPageFreed_reachable : ∃ s : MemSys (npage 0x80000),
      (memCalls 0x80000).ReachableUnder (fun _ => MemSys.PermBits) s ∧
      (s.pm.ppRef (widePage 125) = 0 ∧ s.pm.Free (widePage 125) ∧
        s.pgdir 0 = some (widePage 126) ∧ ∀ q, 0 < q → q < 65537 →
          s.pageAt (widePage 126) (pdx (pageVa q)) (ptx (pageVa q)) = some (widePage 125)) ∧
      ¬ s.RefsExact := by
  obtain ⟨s, hs, hd, hfilled⟩ := exists_filled (k := 65537) (by decide) (Nat.le_refl _)
  obtain ⟨m, hremove, hzero, hfree, hleaf⟩ := hfilled.pageRemove (npage_le _) wideTables_apart
  have hstep : s.exec (.memUnmap 0 0 (pageVa 0)) = some { s with pm := m } := by
    have hself : s.kern.envid2env 0 0 true = .ok 0 := rfl
    simp only [MemSys.exec, MemSys.sysMemUnmap, legal_pageVa (q := 0) (by omega),
      Bool.false_eq_true, if_false, hself, hd, hremove, Option.map_some]
  have hmapped : ∀ q, 0 < q → q < 65537 → MemSys.pageAt { s with pm := m } (widePage 126)
      (pdx (pageVa q)) (ptx (pageVa q)) = some (widePage 125) := by
    intro q hpos hq
    obtain ⟨htable, hentry⟩ := hleaf q hpos hq
    have huser : MemSys.user { s with pm := m } (widePage 126) (pdx (pageVa q)) = true :=
      MemSys.user_of_pgdir (e := 0) hd (pdx_lt_utop (legal_pageVa (by omega)))
    have htab : m.tableAt (MemSys.user { s with pm := m }) (widePage 126) (pdx (pageVa q)) =
        some (wideTable (q / 1024)) := by
      unfold Pmap.tableAt
      rw [if_pos huser]
      exact htable
    refine (Pmap.pageAt_of_table htab).trans ?_
    rw [hentry]
    exact Pmap.entryPage_mapEntry (npage_le _) (pteAddr_mapEntry_of_lt _ (by decide))
  refine ⟨_, .step (.memUnmap 0 0 (pageVa 0)) hs trivial hstep, ⟨hzero, hfree, hd, hmapped⟩, ?_⟩
  exact fun h => h.kept _ _ _ _ (hmapped 1 (by decide) (by decide)) hfree

end MosSmp
