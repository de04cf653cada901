import MosSmp.Calls.Frame
import MosSmp.Pmap.Failed

/-!
The calls on pages as updates of one map. Below `UTOP` every environment has a
translation from its pages to physical pages with flags. A successful
`page_insert` or `page_remove` changes the translation of one environment at one
page; `page_alloc`, and writes to a page that holds data, change no translation.
-/

namespace MosSmp

open Lib Pmap Option

namespace Pmap

variable {n : Nat} {m m' : Pmap n} {user : Page n → Idx → Bool} {own : Page n → Nat}
variable {d q p : Page n} {va va' w perm : Word}

/-- Storing an entry is an update at one page of one directory. -/
theorem Accounted.leaf_stored (hn : n ≤ 2 ^ 20) (h : m.Accounted user own)
    (hu : user d (pdx va) = true) (hst : Stored m m' d va w) (hq : user q (pdx va') = true) :
    ∃ t, m'.leaf q va' = if q = d ∧ va' >>> 12 = va >>> 12 then
      some (if pteValid w then some ((t, ptx va), w) else none) else m.leaf q va' := by
  have htable : ∀ {d i t}, user d i = true → entryPage (m.mem d i) = some t →
      m.tableAt user d i = some t := by
    intro d i t hs ht
    unfold tableAt
    rw [if_pos hs, ht]
  refine hst.leaf_at hn (fun t ht => (h.tables.ne_dir (htable hu ht) hq).symm)
    (fun t ht => ⟨(h.tables.ne_dir (htable hq ht) hu).symm, fun ht' => ?_⟩)
    (fun t hfree => ⟨?_, ?_, fun ht => ?_⟩)
  · exact h.tables.alone _ _ _ _ t (htable hq ht) (htable hu ht')
  · rintro rfl
    exact h.not_free_of_dir hu hfree
  · rintro rfl
    exact h.not_free_of_dir hq hfree
  · exact (h.unused_of_free hfree).2 (.inl (q, pdx va')) (htable hq ht)

/-- The contents of a page that is neither a directory nor a table do not
matter to a translation. -/
theorem leaf_data (hdir : ∀ i, user p i = false) (htab : ∀ d i, m.tableAt user d i ≠ some p)
    (hmem : ∀ q, q ≠ p → m'.mem q = m.mem q) (hq : user q (pdx va) = true) :
    m'.leaf q va = m.leaf q va := by
  have hne : q ≠ p := by
    rintro rfl
    rw [hdir] at hq
    cases hq
  refine leaf_congr (by rw [hmem q hne]) (fun t ht => ?_)
  have htp : t ≠ p := by
    rintro rfl
    refine htab q (pdx va) ?_
    unfold tableAt
    rw [if_pos hq, ht]
  rw [hmem t htp]

/-- `page_insert` does not panic, whatever the page and the permissions. -/
theorem Accounted.pageInsert_total (hn : n ≤ 2 ^ 20) (h : m.Accounted user own)
    (hu : user d (pdx va) = true) (pp : Page n) (perm : Word) :
    ∃ r m', m.pageInsert d pp va perm = some (r, m') := by
  have hmap : ∀ m₁ : Pmap n, m₁.Accounted user own →
      ∃ r m', m₁.mapPage d pp va perm = some (r, m') := by
    intro m₁ h₁
    unfold Pmap.mapPage
    obtain ⟨hwalk, _⟩ | ⟨t, m', hwalk, _⟩ := h₁.walkCreate hn hu pp <;> rw [hwalk] <;>
      exact ⟨_, _, rfl⟩
  unfold Pmap.pageInsert
  rw [h.walk hu]
  cases ht : m.tableAt user d (pdx va) with
  | none => exact hmap m h
  | some t =>
    simp only [map_some]
    cases hv : pteValid (m.read (t, ptx va)) with
    | false => exact hmap m h
    | true =>
      obtain ⟨old, hold, hpage⟩ := h.tables.pageAt_of_valid ht hv
      obtain ⟨m₁, hdec, h₁, _⟩ := h.unmap ht hold
      rw [if_pos rfl, show pa2page (m.read (t, ptx va)) = some old from hpage]
      dsimp only
      split
      · rw [hdec]
        exact hmap _ h₁
      · exact ⟨_, _, rfl⟩

/-- A page that is mapped for the first time has one reference. -/
theorem Accounted.ref_of_first (hn : n ≤ 2 ^ 20) (h : m.Accounted user own) (hown : own p = 0)
    (hunused : ∀ x, m.slots user x ≠ some p) (hfree : ¬ m.Free p)
    (hu : user d (pdx va) = true) (hfits : pteAddr (mapEntry p perm) = page2pa p)
    (href : (m.ppRef p).toNat < 65535) {r : Except Err Unit}
    (hrun : m.pageInsert d p va perm = some (r, m')) : (m'.ppRef p).toNat ≤ 1 := by
  obtain ⟨_, _, hrun', h', hins, _⟩ := h.pageInsert hn hu hfits hfree (.inl href)
  cases hrun'.symm.trans hrun
  have hslot : ∀ x, m'.slots user x = some p → x = .inr (d, pdx va, ptx va) := by
    intro x hx
    rcases x with ⟨d', i'⟩ | ⟨d', i', j'⟩
    · rcases hins.tables d' i' p hx with hold | ⟨hf, _⟩
      · exact absurd hold (hunused (.inl (d', i')))
      · exact absurd hf hfree
    · rcases hins.pages d' i' j' with hsame | ⟨rfl, rfl, rfl, _⟩
      · exact absurd (hsame.symm.trans hx) (hunused (.inr (d', i', j')))
      · rfl
  have hcount : (m'.ppRef p).toNat = own p + Ledger.refs (m'.slots user) p := h'.count p
  rw [hcount, hown, Nat.zero_add]
  exact Ledger.refs_le_one hslot

end Pmap

namespace MemSys

variable {n : Nat} {s t u : MemSys n} {e cur : EnvIdx} {d p pp : Page n} {va perm : Word}

/-- The page holds data: it is no kernel page, directory or table, and it is in
use. -/
structure Data (s : MemSys n) (p : Page n) : Prop where
  own : s.own p = 0
  table : ∀ d i, s.tableAt d i ≠ some p
  used : ¬ s.pm.Free p

theorem Data.dir (h : s.Data p) (hinv : s.Inv) (i : Idx) : s.user p i = false := by
  by_contra hu
  have hpos := hinv.acc.dirs p i (by simpa using hu)
  have hown := h.own
  omega

/-- What an environment maps holds data. -/
theorem Inv.data_of_translation {flags : Word} (hinv : s.Inv) (hva : pdx va < pdx UTOP)
    (h : s.translation e va = some (p, flags)) : s.Data p := by
  obtain ⟨d, t, hd, ht, hp⟩ := translation_some h
  have hu := user_of_pgdir hd hva
  have htab : s.pm.tableAt s.user d (pdx va) = some t := by
    unfold Pmap.tableAt
    rw [if_pos hu, ht]
  have hpage : s.pageAt d (pdx va) (ptx va) = some p := (pageAt_of_table htab).trans hp
  obtain ⟨hown, htable, _⟩ := hinv.mapped e d _ _ p hd hva hpage
  exact ⟨hown, htable, hinv.acc.not_free_of_slot (x := .inr (d, pdx va, ptx va)) hpage⟩

/-- From `s` to `t` the translation of `e` has become `target` at the page of
`va`, and nothing else that an environment sees has changed. -/
structure Remapped (s t : MemSys n) (e : EnvIdx) (va : Word)
    (target : Option (Page n × Word)) : Prop where
  inv : t.Inv
  kern : t.kern = s.kern
  pgdir : t.pgdir = s.pgdir
  translation : ∀ e' va', pdx va' < pdx UTOP → t.translation e' va' =
    if e' = e ∧ va' >>> 12 = va >>> 12 then target else s.translation e' va'
  contents : ∀ p, s.Data p → t.pm.mem p = s.pm.mem p

/-- No translation has changed. -/
structure SameSpaces (s t : MemSys n) : Prop where
  inv : t.Inv
  kern : t.kern = s.kern
  pgdir : t.pgdir = s.pgdir
  translation : ∀ e va, pdx va < pdx UTOP → t.translation e va = s.translation e va

theorem sameSpaces_of_leaf (hinv : t.Inv) (hkern : t.kern = s.kern) (hpgdir : t.pgdir = s.pgdir)
    (hleaf : ∀ q va, s.user q (pdx va) = true → t.pm.leaf q va = s.pm.leaf q va) :
    SameSpaces s t :=
  ⟨hinv, hkern, hpgdir, fun _ _ hva =>
    translation_congr (congrFun hpgdir _) (fun _ hd => hleaf _ _ (user_of_pgdir hd hva))⟩

/-- The words that storing an entry changes hold no data. -/
theorem Inv.contents_stored {m : Pmap n} {w : Word} (hinv : s.Inv)
    (hu : s.user d (pdx va) = true) (hst : Pmap.Stored s.pm m d va w) (hp : s.Data p) :
    m.mem p = s.pm.mem p := by
  funext j
  by_contra hne
  rcases hst.changed hu p j hne with ⟨rfl, hdir⟩ | ⟨i, hi⟩ | hfree
  · rw [hp.dir hinv j] at hdir
    cases hdir
  · exact hp.table d i hi
  · exact hp.used hfree

section

variable (hn : n ≤ 2 ^ 20) (hinv : s.Inv) (hd : s.pgdir e = some d) (hva : pdx va < pdx UTOP)
include hn hinv hd hva

/-- The translations after an entry has been stored. -/
theorem Inv.translation_stored {w va' : Word} {e' : EnvIdx} (hst : Pmap.Stored s.pm t.pm d va w)
    (hpgdir : t.pgdir = s.pgdir) (hva' : pdx va' < pdx UTOP) :
    t.translation e' va' = if e' = e ∧ va' >>> 12 = va >>> 12 then
      (if pteValid w then (pa2page w).map (fun pp => (pp, pteFlags w)) else none)
      else s.translation e' va' := by
  unfold translation
  rw [hpgdir]
  cases hd' : s.pgdir e' with
  | none =>
    have hne : e' ≠ e := by
      rintro rfl
      rw [hd] at hd'
      cases hd'
    rw [if_neg (fun hc => hne hc.1)]
    rfl
  | some d' =>
    have hdirs : e' = e ↔ d' = d := by
      constructor
      · rintro rfl
        exact some.inj (hd'.symm.trans hd)
      · rintro rfl
        exact hinv.apart e' e d' hd' hd
    obtain ⟨_, hleaf⟩ := hinv.acc.leaf_stored hn (user_of_pgdir hd hva) hst (user_of_pgdir hd' hva')
    simp only [bind_some, lookupFlags_eq, hleaf, hdirs]
    by_cases hhere : d' = d ∧ va' >>> 12 = va >>> 12
    · rw [if_pos hhere, if_pos hhere]
      cases hv : pteValid w with
      | false => rfl
      | true =>
        simp only [if_true, bind_some]
        cases hpa : (pa2page w : Option (Page n)) <;> rfl
    · rw [if_neg hhere, if_neg hhere]

/-- `page_insert` into the directory of `e` fails for want of memory or stores the
entry. -/
theorem Inv.insertInto_stored (pp : Page n) (perm : Word) :
    s.insertInto e pp va perm = some (.error .noMem, s) ∨
      ∃ t, s.insertInto e pp va perm = some (.ok (), t) ∧ t.kern = s.kern ∧ t.pgdir = s.pgdir ∧
        Pmap.Stored s.pm t.pm d va (mapEntry pp perm) ∧
        ∀ r m, s.pm.pageInsert d pp va perm = some (r, m) → t.pm = m := by
  have hu := user_of_pgdir hd hva
  obtain ⟨r, m, hins⟩ := hinv.acc.pageInsert_total hn hu pp perm
  unfold MemSys.insertInto
  rw [hd]
  obtain ⟨rfl, hst⟩ | ⟨rfl, rfl⟩ := pageInsert_stored hn hinv.acc.list
    (hinv.acc.not_free_of_dir hu) (entryPage_ne_self hinv.acc hu) hins
  · right
    simp only [hins]
    refine ⟨_, rfl, rfl, rfl, hst, ?_⟩
    rintro _ _ ⟨⟩
    rfl
  · left
    simp only [hins]

/-- A data page is mapped, unless there is no memory. -/
theorem Inv.insertInto_remapped (hperm : perm < 0x1000#32) (hdata : s.Data pp)
    (href : (s.pm.ppRef pp).toNat < 65535) :
    ∃ r t, s.insertInto e pp va perm = some (r, t) ∧ (r = .error .noMem ∨ r = .ok () ∧
        Remapped s t e va (some (pp, perm ||| PTE_C_CACHEABLE ||| PTE_V)) ∧
        ∀ r m, s.pm.pageInsert d pp va perm = some (r, m) → t.pm = m) := by
  obtain hrun | ⟨t, hrun, hkern, hpgdir, hst, hpm⟩ := hinv.insertInto_stored hn hd hva pp perm
  · exact ⟨_, _, hrun, .inl rfl⟩
  have hinv' := (hinv.insertInto hn hva hperm hdata.own hdata.table hdata.used href hrun).1
  refine ⟨_, t, hrun, .inr ⟨rfl, ⟨hinv', hkern, hpgdir, fun e' va' hva' => ?_,
    fun p hp => hinv.contents_stored (user_of_pgdir hd hva) hst hp⟩, hpm⟩⟩
  rw [hinv.translation_stored hn hd hva hst hpgdir hva', if_pos (pteValid_mapEntry pp perm),
    pa2page_of_addr hn (pteAddr_mapEntry_of_lt pp hperm), map_some, pteFlags_mapEntry pp hperm]

end

/-- New contents for a page. -/
def writePage (s : MemSys n) (p : Page n) (words : Idx → Word) : MemSys n :=
  { s with pm := { s.pm with mem := Function.update s.pm.mem p words } }

theorem writePage_mem_self (words : Idx → Word) : (s.writePage p words).pm.mem p = words :=
  Function.update_self ..

theorem writePage_mem_ne {q : Page n} (hne : q ≠ p) (words : Idx → Word) :
    (s.writePage p words).pm.mem q = s.pm.mem q :=
  Function.update_of_ne hne _ _

/-- The slots depend on the contents of directories and tables only. -/
theorem Data.slots_writePage (h : s.Data p) (hinv : s.Inv) (words : Idx → Word) :
    (s.writePage p words).pm.slots s.user = s.pm.slots s.user :=
  slots_of_data (h.dir hinv) h.table (fun _ hq => writePage_mem_ne hq words)

theorem Data.writePage_data {q : Page n} (h : s.Data p) (hinv : s.Inv) (words : Idx → Word)
    (hq : s.Data q) : (s.writePage p words).Data q := by
  refine ⟨hq.own, fun d i ht => hq.table d i ?_, hq.used⟩
  exact (congrFun (h.slots_writePage hinv words) (.inl (d, i))).symm.trans ht

/-- Writing to a data page changes no translation. -/
theorem Inv.writePage (hinv : s.Inv) (h : s.Data p) (words : Idx → Word) :
    SameSpaces s (s.writePage p words) := by
  have hslots := h.slots_writePage hinv words
  have hacc : (s.writePage p words).pm.Accounted s.user s.own :=
    hinv.acc.data (h.dir hinv) h.table rfl rfl (fun _ hq => writePage_mem_ne hq words)
  refine sameSpaces_of_leaf ⟨hacc, hinv.boot, hinv.apart, ?_, hinv.dstva, hinv.stored⟩ rfl rfl
    (fun q va hu => leaf_data (h.dir hinv) h.table (fun _ hq => writePage_mem_ne hq words) hu)
  intro e d i j q hd hi hq
  have hold : s.pageAt d i j = some q := (congrFun hslots (.inr (d, i, j))).symm.trans hq
  obtain ⟨hown, htab, hgrant⟩ := hinv.mapped e d i j q hd hi hold
  exact ⟨hown, fun d' i' ht => htab d' i' ((congrFun hslots (.inl (d', i'))).symm.trans ht), hgrant⟩

/-- Since `s` the page `p` has been taken from the free list and filled with
`words`, and nothing refers to it yet. -/
structure Taken (s t : MemSys n) (p : Page n) (words : Idx → Word) : Prop where
  same : SameSpaces s t
  data : t.Data p
  holds : t.pm.mem p = words
  unused : ∀ x, t.pm.slots t.user x ≠ some p
  ref : t.pm.ppRef p = 0
  kept : ∀ q, s.Data q → q ≠ p ∧ t.Data q ∧ t.pm.mem q = s.pm.mem q

theorem Inv.pageAlloc_taken {m : Pmap n} (hinv : s.Inv) (ha : s.pm.pageAlloc = .ok (p, m)) :
    Taken s { s with pm := m, grants := fun e' q => s.grants e' q && decide (q ≠ p) } p
      (fun _ => 0) := by
  obtain ⟨hinv', hown, htab, hfree', href⟩ := hinv.allocated ha
  obtain ⟨_, hfree, _, hslots, hzero, hmem, hiff⟩ := hinv.acc.pageAlloc ha
  obtain ⟨hdir, hunused⟩ := hinv.acc.unused_of_free hfree
  refine ⟨sameSpaces_of_leaf hinv' rfl rfl (fun q va hu => ?_), ⟨hown, htab, hfree'⟩, hzero,
    fun x hx => hunused x ((congrFun hslots x).symm.trans hx), href, fun q hq => ?_⟩
  · exact leaf_data hdir (fun d i => hunused (.inl (d, i))) hmem hu
  · have hne : q ≠ p := by
      rintro rfl
      exact hq.used hfree
    refine ⟨hne, ⟨hq.own, fun d i ht => hq.table d i ?_, fun hf => hq.used ((hiff q).mp hf).2⟩,
      hmem q hne⟩
    exact (congrFun hslots (.inl (d, i))).symm.trans ht

variable {words : Idx → Word}

theorem Taken.write (h : Taken s t p words) (words' : Idx → Word) :
    Taken s (t.writePage p words') p words' := by
  have hsame := h.same.inv.writePage h.data words'
  refine ⟨⟨hsame.inv, h.same.kern, h.same.pgdir, fun e va hva => ?_⟩,
    h.data.writePage_data h.same.inv words' h.data, writePage_mem_self words', fun x hx => ?_,
    h.ref,
    fun q hq => ?_⟩
  · rw [hsame.translation e va hva, h.same.translation e va hva]
  · exact h.unused x ((congrFun (h.data.slots_writePage h.same.inv words') x).symm.trans hx)
  · obtain ⟨hne, hdata, hmem⟩ := h.kept q hq
    exact ⟨hne, h.data.writePage_data h.same.inv words' hdata,
      (writePage_mem_ne hne words').trans hmem⟩

/-- A page that has been taken is mapped. -/
theorem Taken.insertInto (hn : n ≤ 2 ^ 20) (h : Taken s t p words) (hd : s.pgdir e = some d)
    (hva : pdx va < pdx UTOP) (hperm : perm < 0x1000#32) :
    ∃ r u, t.insertInto e p va perm = some (r, u) ∧ (r = .error .noMem ∨ r = .ok () ∧
        Remapped s u e va (some (p, perm ||| PTE_C_CACHEABLE ||| PTE_V)) ∧
        u.pm.mem p = words ∧ (u.pm.ppRef p).toNat ≤ 1) := by
  have hd' : t.pgdir e = some d := (congrFun h.same.pgdir e).trans hd
  have href : (t.pm.ppRef p).toNat < 65535 := by
    rw [h.ref]
    decide
  have hfits := pteAddr_mapEntry_of_lt p hperm
  obtain ⟨r, u, hrun, hout⟩ := h.same.inv.insertInto_remapped hn hd' hva hperm h.data href
  refine ⟨r, u, hrun, hout.imp_right ?_⟩
  rintro ⟨hr, hmap, hpm⟩
  refine ⟨hr, ⟨hmap.inv, hmap.kern.trans h.same.kern, hmap.pgdir.trans h.same.pgdir,
    fun e' va' hva' => ?_, fun q hq => ?_⟩, (hmap.contents p h.data).trans h.holds, ?_⟩
  · rw [hmap.translation e' va' hva', h.same.translation e' va' hva']
  · obtain ⟨_, hdata, hmem⟩ := h.kept q hq
    exact (hmap.contents q hdata).trans hmem
  · obtain ⟨r', m, hins, _⟩ := h.same.inv.acc.pageInsert hn (user_of_pgdir hd' hva) hfits
      h.data.used (.inl href)
    rw [hpm r' m hins]
    exact h.same.inv.acc.ref_of_first hn h.data.own h.unused h.data.used (user_of_pgdir hd' hva)
      hfits href hins

section Calls

variable {envid : Word} {err : Err}

theorem pageAlloc_error (h : s.pm.pageAlloc = .error err) : err = .noMem := by
  unfold pageAlloc at h
  split at h
  · exact (Except.error.inj h).symm
  · cases h

theorem pageLookup_of_translation {flags : Word} (h : s.translation e va = some (p, flags)) :
    ∃ d pte, s.pgdir e = some d ∧ s.pm.pageLookup d va = some (some (p, pte)) ∧
      pteFlags (s.pm.read pte) = flags := by
  obtain ⟨d, hd, hflags⟩ := bind_eq_some_iff.mp h
  unfold lookupFlags at hflags
  cases hlook : s.pm.pageLookup d va with
  | none =>
    rw [hlook] at hflags
    cases hflags
  | some r =>
    rw [hlook] at hflags
    cases r with
    | none => cases hflags
    | some x =>
      obtain ⟨rfl, hpte⟩ := Prod.mk.inj (some.inj hflags)
      exact ⟨d, x.2, hd, hlook, hpte⟩

theorem lookupIn_of_translation {flags : Word} (h : s.translation e va = some (p, flags)) :
    s.lookupIn e va = some (some p) := by
  obtain ⟨_, _, hd, hlook, _⟩ := pageLookup_of_translation h
  unfold lookupIn
  rw [hd]
  simp [hlook]

/-- `sys_mem_map` of a page that is mapped and has room in its counter. -/
theorem Inv.sysMemMap_remapped {srcid srcva dstid dstva flags : Word} {src dst : EnvIdx}
    (hn : n ≤ 2 ^ 20) (hinv : s.Inv) (hsrcva : isIllegalVa srcva = false)
    (hdstva : isIllegalVa dstva = false) (hsrc : s.kern.envid2env cur srcid true = .ok src)
    (hdst : s.kern.envid2env cur dstid true = .ok dst) (hd : s.pgdir dst = some d)
    (hpage : s.translation src srcva = some (p, flags)) (hperm : perm < 0x1000#32)
    (href : (s.pm.ppRef p).toNat < 65535) :
    ∃ r t, s.sysMemMap cur srcid srcva dstid dstva perm = some (r, t) ∧
      (r = .error .noMem ∧ t = s ∨ r = .ok () ∧
        Remapped s t dst dstva (some (p, perm ||| PTE_C_CACHEABLE ||| PTE_V))) := by
  have hdata := hinv.data_of_translation (pdx_lt_utop hsrcva) hpage
  obtain ⟨r, t, hrun, hout⟩ := hinv.insertInto_remapped hn hd (pdx_lt_utop hdstva) hperm hdata href
  have hcall : s.sysMemMap cur srcid srcva dstid dstva perm = some (r, t) := by
    unfold sysMemMap
    rw [if_neg (by simp [hsrcva, hdstva]), hsrc, hdst]
    simp only [lookupIn_of_translation hpage]
    exact hrun
  refine ⟨r, t, hcall, ?_⟩
  rcases hout with rfl | ⟨hr, hmap, _⟩
  · exact .inl ⟨rfl, memMap_error hinv.dirsApart hcall⟩
  · exact .inr ⟨hr, hmap⟩

section

variable (hn : n ≤ 2 ^ 20) (hinv : s.Inv) (hva : isIllegalVa va = false)
  (he : s.kern.envid2env cur envid true = .ok e) (hd : s.pgdir e = some d)
include hn hinv hva he hd

/-- `sys_mem_alloc` on an environment the caller may change. -/
theorem Inv.sysMemAlloc_remapped (hperm : perm < 0x1000#32) :
    ∃ r t, s.sysMemAlloc cur envid va perm = some (r, t) ∧ (r = .error .noMem ∨ r = .ok () ∧ ∃ p,
        Remapped s t e va (some (p, perm ||| PTE_C_CACHEABLE ||| PTE_V)) ∧
        t.pm.mem p = (fun _ => 0) ∧ (t.pm.ppRef p).toNat ≤ 1 ∧ ∀ q, s.Data q → q ≠ p) := by
  unfold sysMemAlloc
  rw [if_neg (by simp [hva]), he]
  simp only
  cases ha : s.pm.pageAlloc with
  | error err =>
    have herr : err = .noMem := pageAlloc_error ha
    exact ⟨_, _, rfl, .inl (herr ▸ rfl)⟩
  | ok r =>
    obtain ⟨p, _⟩ := r
    have htaken := hinv.pageAlloc_taken ha
    obtain ⟨r, t, hrun, hout⟩ := htaken.insertInto hn hd (pdx_lt_utop hva) hperm
    refine ⟨r, t, hrun, hout.imp_right ?_⟩
    rintro ⟨hr, hmap, hmem, href⟩
    exact ⟨hr, p, hmap, hmem, href, fun q hq => (htaken.kept q hq).1⟩

/-- `sys_mem_unmap` always succeeds on such an environment. -/
theorem Inv.sysMemUnmap_remapped :
    ∃ t, s.sysMemUnmap cur envid va = some (.ok (), t) ∧ Remapped s t e va none := by
  have hlt := pdx_lt_utop hva
  have hu := user_of_pgdir hd hlt
  obtain ⟨m, hrem, _⟩ := hinv.acc.pageRemove hu
  have hrun : s.sysMemUnmap cur envid va = some (.ok (), { s with pm := m }) := by
    unfold sysMemUnmap
    rw [if_neg (by simp [hva]), he]
    simp only [hd, hrem, map_some]
  refine ⟨_, hrun, hinv.memUnmap_step hrun, rfl, rfl, ?_, ?_⟩
  · intro e' va' hva'
    rcases pageRemove_stored hrem with hst | ⟨hleaf, rfl⟩
    · exact hinv.translation_stored (t := { s with pm := m }) hn hd hlt hst rfl hva'
    · by_cases hhere : e' = e ∧ va' >>> 12 = va >>> 12
      · obtain ⟨rfl, hshift⟩ := hhere
        obtain ⟨hpd, hpt⟩ := (shift_eq_iff va va').mp hshift
        have hleaf' : s.pm.leaf d va' = some none := by
          unfold leaf at hleaf ⊢
          rw [hpd, hpt, hleaf]
        rw [if_pos ⟨rfl, hshift⟩]
        unfold translation
        rw [show ({ s with pm := s.pm } : MemSys n).pgdir e' = some d from hd]
        simp only [bind_some, lookupFlags_eq, hleaf']
        rfl
      · rw [if_neg hhere]
  · intro q hq
    rcases pageRemove_stored hrem with hst | ⟨_, rfl⟩
    · exact hinv.contents_stored hu hst hq
    · rfl

end

end Calls

end MemSys

end MosSmp
