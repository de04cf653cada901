import MosSmp.Pmap.Confine
import MosSmp.Pmap.Refine
import MosSmp.Tlb.Entry

/-!
The self-map of an address space. `env_setup_vm` stores the directory's own
address in its entry for `UVPT`. Walking the tables at an address of that
window goes through the directory twice, so that the directory serves as a
page table, and for the addresses of `vpd` as a data page as well. User code
reads the entries of its tables there; the translations have no `PTE_D`.

A `DirOp` is an operation on a directory: its set-up, or a `page_insert` or
`page_remove` below `UTOP`, in any address space.
`Proper` is the condition that the inserted page is in use, that `perm` has
permission bits only and that no counter overflows.
-/

namespace MosSmp

open Lib Function Pmap BitVec Option

/-- `VPN`. -/
def vpn (va : Word) : Word := va >>> 12

/-- The address of `vpt[VPN(va)]`. -/
def vptVa (va : Word) : Word := UVPT + 4 * vpn va

/-- The address of `vpd[PDX(va)]`. -/
def vpdVa (va : Word) : Word := UVPT + (BitVec.ofNat 32 (pdx UVPT).val <<< 12) +
  4 * BitVec.ofNat 32 (pdx va).val

/-- The index of the word at `va` in its page. -/
def wordIdx (va : Word) : Idx := lowTen (va >>> 2)

section Addresses

theorem toNat_uvpt : UVPT.toNat = 511 * 2 ^ 22 := by decide

section

variable (va : Word)

theorem toNat_vptVa : (vptVa va).toNat = 511 * 2 ^ 22 + 4 * (va.toNat / 4096) := by
  have hvpn : (vpn va).toNat = va.toNat / 4096 := by
    rw [vpn, toNat_ushiftRight, Nat.shiftRight_eq_div_pow]
  have hfour : (4 : Word).toNat = 4 := rfl
  rw [vptVa, toNat_add, toNat_mul, hfour, hvpn, toNat_uvpt]
  omega

theorem wordIdx_val : (wordIdx va).val = va.toNat / 4 % 1024 := by
  unfold wordIdx
  rw [lowTen_val, toNat_ushiftRight, Nat.shiftRight_eq_div_pow]

theorem pdx_vptVa : pdx (vptVa va) = pdx UVPT := by
  apply Fin.ext
  rw [pdx_val, toNat_vptVa, pdx_utop.2]
  omega

theorem ptx_vptVa : ptx (vptVa va) = pdx va := by
  apply Fin.ext
  rw [ptx_val, toNat_vptVa, pdx_val]
  omega

theorem wordIdx_vptVa : wordIdx (vptVa va) = ptx va := by
  apply Fin.ext
  rw [wordIdx_val, toNat_vptVa, ptx_val]
  omega

theorem toNat_vpdVa : (vpdVa va).toNat = 511 * 2 ^ 22 + 511 * 4096 + 4 * (pdx va).val := by
  have h : (pdx va).val < 1024 := (pdx va).isLt
  have hfour : (4 : Word).toNat = 4 := rfl
  rw [vpdVa, toNat_add, toNat_add, toNat_mul, hfour, toNat_shiftLeft,
    toNat_ofNat, toNat_ofNat, pdx_utop.2, toNat_uvpt, Nat.shiftLeft_eq]
  omega

theorem pdx_vpdVa : pdx (vpdVa va) = pdx UVPT := by
  have h : (pdx va).val < 1024 := (pdx va).isLt
  apply Fin.ext
  rw [pdx_val, toNat_vpdVa, pdx_utop.2]
  omega

theorem ptx_vpdVa : ptx (vpdVa va) = pdx UVPT := by
  have h : (pdx va).val < 1024 := (pdx va).isLt
  apply Fin.ext
  rw [ptx_val, toNat_vpdVa, pdx_utop.2]
  omega

theorem wordIdx_vpdVa : wordIdx (vpdVa va) = pdx va := by
  have h : (pdx va).val < 1024 := (pdx va).isLt
  apply Fin.ext
  rw [wordIdx_val, toNat_vpdVa]
  omega

end

end Addresses

namespace Pmap

variable {n : Nat}

/-- The word that an access to `va` reaches through the tables of `pgdir`,
with the entry that translates the address. -/
def translate (m : Pmap n) (pgdir : Page n) (va : Word) : Option (EntryPtr n × Word) :=
  (m.leaf pgdir va).bind fun r => r.bind fun e =>
    (pa2page e.2).map fun p => ((p, wordIdx va), e.2)

variable {m m' : Pmap n} {d t : Page n} {va w : Word}

theorem translate_of_table (ht : entryPage (m.mem d (pdx va)) = some t) {p : Page n}
    (hp : entryPage (m.mem t (ptx va)) = some p) :
    m.translate d va = some ((p, wordIdx va), m.mem t (ptx va)) := by
  obtain ⟨hv, hpa⟩ := entryPage_some hp
  unfold translate
  rw [leaf_of_table ht, if_pos hv]
  simp only [bind_some, hpa, map_some]

/-- With the directory in its own entry for `UVPT`, the window shows the
entries of the directory and of its tables. -/
theorem translate_vptVa (hself : entryPage (m.mem d (pdx UVPT)) = some d)
    (ht : entryPage (m.mem d (pdx va)) = some t) :
    m.translate d (vptVa va) = some ((t, ptx va), m.mem d (pdx va)) := by
  have hdir : entryPage (m.mem d (pdx (vptVa va))) = some d := by rw [pdx_vptVa, hself]
  have htab : entryPage (m.mem d (ptx (vptVa va))) = some t := by rw [ptx_vptVa, ht]
  rw [translate_of_table hdir htab, wordIdx_vptVa, ptx_vptVa]

theorem translate_vpdVa (hself : entryPage (m.mem d (pdx UVPT)) = some d) (va : Word) :
    m.translate d (vpdVa va) = some ((d, pdx va), m.mem d (pdx UVPT)) := by
  have hdir : entryPage (m.mem d (pdx (vpdVa va))) = some d := by rw [pdx_vpdVa, hself]
  have htab : entryPage (m.mem d (ptx (vpdVa va))) = some d := by rw [ptx_vpdVa, hself]
  rw [translate_of_table hdir htab, wordIdx_vpdVa, ptx_vpdVa]

end Pmap

/-- A directory entry that leads to a table if it is valid, and that allows no
stores when it serves as a translation. -/
def TableWord (n : Nat) (w : Word) : Prop :=
  pteValid w = true → w &&& PTE_D = 0 ∧ ∃ t : Page n, pa2page w = some t

section TableWord

variable {n : Nat}

theorem tableWord_zero : TableWord n 0 := by
  intro h
  cases h

theorem page2pa_and_pteD (p : Page n) : page2pa p &&& PTE_D = 0 := by
  rw [← pteAddr_page2pa]
  unfold pteAddr
  rw [BitVec.and_assoc, show ~~~0xfff#32 &&& PTE_D = 0#32 by decide, BitVec.and_zero]
  rfl

theorem tableWord_tableEntry (hn : n ≤ 2 ^ 20) (t : Page n) : TableWord n (tableEntry t) := by
  refine fun _ => ⟨?_, t, pa2page_of_addr hn (pteAddr_tableEntry t)⟩
  unfold tableEntry
  rw [and_or_distrib_right, and_or_distrib_right, page2pa_and_pteD]
  decide

/-- The entry of `env_setup_vm` for `UVPT`. -/
def selfEntry (p : Page n) : Word := page2pa p ||| PTE_V

theorem entryPage_selfEntry (hn : n ≤ 2 ^ 20) (p : Page n) : entryPage (selfEntry p) = some p := by
  have haddr : pteAddr (selfEntry p) = page2pa p := by
    unfold selfEntry
    rw [pteAddr_or, pteAddr_page2pa, pteAddr_flags.2]
    simp
  have hvalid : pteValid (selfEntry p) = true := pteValid_or _
  unfold entryPage
  rw [if_pos hvalid]
  exact pa2page_of_addr hn haddr

theorem selfEntry_and_pteD (p : Page n) : selfEntry p &&& PTE_D = 0 := by
  unfold selfEntry
  rw [and_or_distrib_right, page2pa_and_pteD]
  decide

theorem tableWord_selfEntry (hn : n ≤ 2 ^ 20) (p : Page n) : TableWord n (selfEntry p) :=
  fun _ => ⟨selfEntry_and_pteD p, p, (entryPage_some (entryPage_selfEntry hn p)).2⟩

end TableWord

namespace Pmap

variable {n : Nat} {m m' : Pmap n} {user : Page n → Idx → Bool} {own : Page n → Nat}
variable {d d' : Page n} {va w : Word}

/-- Storing an entry for `va` leaves directories alone, but for a new table in
the directory itself. -/
theorem Stored.dirs (h : Stored m m' d va w) (hacc : m.Accounted user own)
    (hu : user d (pdx va) = true) {j : Idx} (hd' : user d' j = true) (i : Idx) :
    m'.mem d' i = m.mem d' i ∨
      d' = d ∧ i = pdx va ∧ ∃ t, m.Free t ∧ m'.mem d' i = tableEntry t := by
  cases h with
  | table t ht hmem =>
    left
    have htab : m.tableAt user d (pdx va) = some t := by
      unfold tableAt
      rw [if_pos hu, ht]
    rw [hmem, if_neg fun heq => hacc.tables.ne_dir htab hd' heq.1]
  | fresh t hno hfree hmem =>
    by_cases hhere : d' = d ∧ i = pdx va
    · exact .inr ⟨hhere.1, hhere.2, t, hfree, by rw [hmem, if_pos hhere]⟩
    · have hne : d' ≠ t := by
        rintro rfl
        rw [(hacc.unused_of_free hfree).1 j] at hd'
        cases hd'
      exact .inl (by rw [hmem, if_neg hhere, if_neg hne])

/-- Entries of directories stay what they are meant to be. -/
theorem Stored.tableWord (hn : n ≤ 2 ^ 20) (h : Stored m m' d va w) (hacc : m.Accounted user own)
    (hu : user d (pdx va) = true) {j : Idx} (hd' : user d' j = true) {i : Idx}
    (hw : TableWord n (m.mem d' i)) : TableWord n (m'.mem d' i) := by
  rcases h.dirs hacc hu hd' i with hsame | ⟨_, _, t, _, hnew⟩
  · rw [hsame]
    exact hw
  · rw [hnew]
    exact tableWord_tableEntry hn t

/-- `page_insert` and `page_remove` below a directory entry in use. -/
theorem Accounted.pageInsert_cases (hn : n ≤ 2 ^ 20) (hacc : m.Accounted user own)
    (hu : user d (pdx va) = true) {pp : Page n} {perm : Word} {r : Except Err Unit}
    (h : m.pageInsert d pp va perm = some (r, m')) :
    Stored m m' d va (mapEntry pp perm) ∨ m' = m := by
  have hd : ¬ m.Free d := hacc.not_free_of_own (hacc.dirs d _ hu)
  have hself : entryPage (m.mem d (pdx va)) ≠ some d := by
    intro hself
    have htab : m.tableAt user d (pdx va) = some d := by
      unfold tableAt
      rw [if_pos hu, hself]
    exact hacc.tables.ne_dir htab hu rfl
  rcases pageInsert_stored hn hacc.list hd hself h with ⟨_, hst⟩ | ⟨_, hsame⟩
  · exact .inl hst
  · exact .inr hsame

end Pmap

namespace Frames

variable {n : Nat} {s s' : Frames n}

/-- Every entry of a directory is empty or leads to a table. -/
def DirWords (s : Frames n) : Prop :=
  ∀ d, s.dirs d = true → ∀ i, TableWord n (s.pm.mem d i)

theorem DirWords.step {op : PageOp n} (hn : n ≤ 2 ^ 20) (h : s.DirWords) (hinv : s.Inv)
    (hok : s.Allowed op) (hstep : s.exec op = some s') : s'.DirWords := by
  -- A page that is taken off the free list is not a directory.
  have halloc : ∀ {pp : Page n} {m : Pmap n}, s.pm.pageAlloc = .ok (pp, m) →
      m.mem pp = (fun _ => 0) ∧ ∀ d, s.dirs d = true → m.mem d = s.pm.mem d := by
    intro pp m ha
    obtain ⟨_, hfree, _, _, hzero, hmem, _⟩ := hinv.pageAlloc ha
    refine ⟨hzero, fun d hd => hmem d ?_⟩
    rintro rfl
    have hno := (hinv.unused_of_free hfree).1 0
    unfold Frames.user at hno
    rw [hd] at hno
    cases hno
  cases op with
  | alloc =>
    simp only [exec] at hstep
    split at hstep <;> cases hstep
    · exact h
    · next pp m ha =>
      intro d hd i
      rw [(halloc ha).2 d hd]
      exact h d hd i
  | free =>
    obtain ⟨m, hfree, rfl⟩ := map_eq_some_iff.mp hstep
    unfold pageFree at hfree
    split at hfree <;> cases hfree
    exact h
  | insert pgdir pp va =>
    obtain ⟨⟨_, m⟩, hins, rfl⟩ := map_eq_some_iff.mp hstep
    have hu : s.user pgdir (pdx va) = true := hok.1
    rcases hinv.pageInsert_cases hn hu hins with hst | rfl
    · intro d hd i
      have hd' : s.user d i = true := hd
      exact hst.tableWord hn hinv hu hd' (h d hd i)
    · exact h
  | remove pgdir va =>
    obtain ⟨m, hrem, rfl⟩ := map_eq_some_iff.mp hstep
    have hu : s.user pgdir (pdx va) = true := hok
    rcases pageRemove_stored hrem with hst | ⟨_, rfl⟩
    · intro d hd i
      have hd' : s.user d i = true := hd
      exact hst.tableWord hn hinv hu hd' (h d hd i)
    · exact h
  | decref =>
    obtain ⟨m, hdec, rfl⟩ := map_eq_some_iff.mp hstep
    intro d hd i
    rw [mem_pageDecref hdec]
    exact h d hd i
  | incref =>
    cases hstep
    exact h
  | newDir =>
    simp only [exec] at hstep
    split at hstep <;> cases hstep
    · exact h
    · next pp m ha =>
      intro d hd i
      show TableWord n (m.mem d i)
      by_cases hnew : d = pp
      · rw [hnew, (halloc ha).1]
        exact tableWord_zero
      · have hold : s.dirs d = true := by
          change update s.dirs pp true d = true at hd
          rwa [update_of_ne hnew] at hd
        rw [(halloc ha).2 d hold]
        exact h d hold i
  | dropDir pgdir =>
    cases hstep
    intro d hd i
    change update s.dirs pgdir false d = true at hd
    refine h d ?_ i
    by_cases hdrop : d = pgdir
    · rw [hdrop, update_self] at hd
      cases hd
    · rwa [update_of_ne hdrop] at hd
  | releaseTable =>
    simp only [exec] at hstep
    split at hstep
    · cases hstep
    · obtain ⟨m, hdec, rfl⟩ := map_eq_some_iff.mp hstep
      intro d hd i
      show TableWord n (m.mem d i)
      rw [mem_pageDecref hdec, mem_write]
      split
      · exact tableWord_zero
      · exact h d hd i
  | store pp j w =>
    cases hstep
    intro d hd i
    have hne : d ≠ pp := by
      rintro rfl
      rw [hok.1] at hd
      cases hd
    show TableWord n ((s.pm.write (pp, j) w).mem d i)
    rw [mem_write, if_neg fun heq => hne heq.1]
    exact h d hd i

theorem dirWords_of_allowed {memsize : Word} {s : Frames (npage memsize)}
    (hrun : (frames memsize).ReachableUnder Frames.Allowed s) : s.DirWords := by
  apply hrun.invariant
  · rintro s ⟨_, _, rfl⟩ _ hd
    cases hd
  · intro s op s' hs h hok hstep
    exact h.step (npage_le memsize) (inv_of_allowed hs) hok hstep

end Frames

/-- What happens to directories: one is set up for an environment, a page is
allocated for whatever purpose, and mappings below `UTOP` are made and
removed. -/
inductive DirOp (n : Nat)
  | setupVm (e : EnvIdx)
  | alloc
  | insert (e : EnvIdx) (pp : Page n) (va perm : Word)
  | remove (e : EnvIdx) (va : Word)

namespace MemSys

variable {n : Nat}

def execDir (s : MemSys n) : DirOp n → Option (MemSys n)
  | .setupVm e => if s.pgdir e = none then some (s.envSetupVm e).2 else none
  | .alloc =>
    match s.pm.pageAlloc with
    | .error _ => some s
    | .ok (_, m) => some { s with pm := m }
  | .insert e pp va perm =>
    if va < UTOP then (s.insertInto e pp va perm).map Prod.snd else none
  | .remove e va =>
    match s.pgdir e with
    | none => none
    | some d =>
      if va < UTOP then (s.pm.pageRemove d va).map (fun m => { s with pm := m }) else none

/-- The page that is inserted is in use, `perm` has permission bits only, and
the counter of the page does not overflow. -/
def Proper (s : MemSys n) : DirOp n → Prop
  | .insert _ pp _ perm =>
    ¬ s.pm.Free pp ∧ perm < 0x1000#32 ∧ (s.pm.ppRef pp).toNat < 65535
  | _ => True

instance decidableProper (s : MemSys n) : (op : DirOp n) → Decidable (s.Proper op)
  | .insert _ _ _ _ => inferInstanceAs (Decidable (_ ∧ _ ∧ _))
  | .setupVm _ | .alloc | .remove _ _ => instDecidableTrue

/-- The window at `UVPT` shows the directory of an environment and its
tables, and does not allow stores to them. -/
structure SelfMapped (s : MemSys n) : Prop where
  /-- Where a directory entry is valid, `vpt[VPN(va)]` is the word that
  `pgdir_walk` finds. -/
  entry : ∀ e d va, s.pgdir e = some d → pteValid (s.pm.mem d (pdx va)) = true →
    ∃ pte w, s.pm.pgdirWalk d va false = some (.ok (some pte), s.pm) ∧
      s.pm.translate d (vptVa va) = some (pte, w) ∧ w &&& PTE_D = 0
  /-- `vpd[PDX(va)]` is the directory entry. -/
  dir : ∀ e d va, s.pgdir e = some d → ∃ w,
    s.pm.translate d (vpdVa va) = some ((d, pdx va), w) ∧ w &&& PTE_D = 0

variable {s s' : MemSys n} {e : EnvIdx} {d : Page n} {va : Word}

structure SelfInv (s : MemSys n) : Prop where
  acc : s.pm.Accounted s.user s.own
  base : s.sysDirs s.basePgdir = true
  sys : ∀ d, s.sysDirs d = true → ∀ i, TableWord n (s.pm.mem d i)
  words : ∀ e d, s.pgdir e = some d → ∀ i, TableWord n (s.pm.mem d i)
  self : ∀ e d, s.pgdir e = some d → s.pm.mem d (pdx UVPT) = selfEntry d

theorem user_of_sysDirs (h : s.sysDirs d = true) (i : Idx) : s.user d i = true := by
  unfold user
  rw [h, Bool.true_or]

theorem pdx_lt_of_lt (h : va < UTOP) : pdx va < pdx UTOP := by
  rw [Fin.lt_def, pdx_utop.1, pdx_val]
  have hlt : va.toNat < UTOP.toNat := h
  have htop : UTOP.toNat = 509 * 2 ^ 22 := by decide
  omega

theorem template_uvpt (p : Page n) : s.template p (pdx UVPT) = selfEntry p := by
  have hout : ¬ (pdx UTOP ≤ pdx UVPT ∧ pdx UVPT < pdx UVPT) := by decide
  rfl

theorem SelfInv.alloc_step {p : Page n} {m : Pmap n} (h : s.SelfInv)
    (ha : s.pm.pageAlloc = .ok (p, m)) : SelfInv { s with pm := m } := by
  obtain ⟨hacc, hfree, _, _, _, hmem, _⟩ := h.acc.pageAlloc ha
  obtain ⟨hdir, _⟩ := h.acc.unused_of_free hfree
  have hold : ∀ {d j}, s.user d j = true → m.mem d = s.pm.mem d := by
    intro d j hu
    refine hmem d ?_
    rintro rfl
    rw [hdir j] at hu
    cases hu
  refine ⟨hacc, h.base, fun d hd i => ?_, fun e' d hd i => ?_, fun e' d hd => ?_⟩
  · rw [show m.mem d = s.pm.mem d from hold (user_of_sysDirs hd i)]
    exact h.sys d hd i
  · rw [show m.mem d = s.pm.mem d from hold (user_dir hd)]
    exact h.words e' d hd i
  · rw [show m.mem d = s.pm.mem d from hold (user_dir hd)]
    exact h.self e' d hd

section

variable (hn : n ≤ 2 ^ 20) (h : s.SelfInv)
include hn h

theorem SelfInv.selfMapped : s.SelfMapped := by
  have hself : ∀ e d, s.pgdir e = some d → entryPage (s.pm.mem d (pdx UVPT)) = some d := by
    intro e d hd
    rw [h.self e d hd]
    exact entryPage_selfEntry hn d
  refine ⟨fun e d va hd hv => ?_, fun e d va hd => ?_⟩
  · obtain ⟨hclean, t, ht⟩ := h.words e d hd _ hv
    have htab : entryPage (s.pm.mem d (pdx va)) = some t := by
      unfold entryPage
      rw [if_pos hv, ht]
    exact ⟨_, _, pgdirWalk_of_table htab false, translate_vptVa (hself e d hd) htab, hclean⟩
  · refine ⟨_, translate_vpdVa (hself e d hd) va, ?_⟩
    rw [h.self e d hd]
    exact selfEntry_and_pteD d

/-- A store below `UTOP` through the directory of an environment. -/
theorem SelfInv.store {m : Pmap n} {w : Word} (hd : s.pgdir e = some d) (hva : pdx va < pdx UTOP)
    (hst : Pmap.Stored s.pm m d va w) (hacc : m.Accounted s.user s.own) (hpm : s'.pm = m)
    (hpgdir : s'.pgdir = s.pgdir) (hsys : s'.sysDirs = s.sysDirs)
    (hbase : s'.basePgdir = s.basePgdir) (hown : s'.own = s.own) : s'.SelfInv := by
  have hu := user_of_pgdir hd hva
  have huser : s'.user = s.user := by
    unfold user
    rw [hpgdir, hsys]
  refine ⟨?_, ?_, ?_, ?_, ?_⟩
  · rw [huser, hpm, hown]
    exact hacc
  · rw [hsys, hbase]
    exact h.base
  · intro d' hd' i
    rw [hsys] at hd'
    rw [hpm]
    exact hst.tableWord hn h.acc hu (user_of_sysDirs hd' i) (h.sys d' hd' i)
  · intro e' d' hd' i
    rw [hpgdir] at hd'
    rw [hpm]
    exact hst.tableWord hn h.acc hu (user_dir hd') (h.words e' d' hd' i)
  · intro e' d' hd'
    rw [hpgdir] at hd'
    rw [hpm]
    rcases hst.dirs h.acc hu (user_dir hd') (pdx UVPT) with
      hsame | ⟨_, hidx, _⟩
    · rw [hsame]
      exact h.self e' d' hd'
    · -- The entry for `UVPT` lies above those that mappings below `UTOP` use.
      rw [← hidx] at hva
      exact absurd hva (by decide)

theorem tableWord_template (p : Page n) (i : Idx) : TableWord n (s.template p i) := by
  unfold template
  split
  · exact h.sys _ h.base i
  · split
    · exact tableWord_selfEntry hn p
    · exact tableWord_zero

theorem SelfInv.setupVm_step (hnone : s.pgdir e = none) : SelfInv (s.envSetupVm e).2 := by
  unfold envSetupVm
  split
  · exact h
  · next p m ha =>
    obtain ⟨_, hfree, _, _, _, hmem, _⟩ := h.acc.pageAlloc ha
    obtain ⟨hdir, _⟩ := h.acc.unused_of_free hfree
    -- The new directory was free, so the others keep their contents.
    have hold : ∀ {d j}, s.user d j = true → ∀ i,
        update m.mem p (s.template p) d i = s.pm.mem d i := by
      intro d j hu i
      have hne : d ≠ p := by
        rintro rfl
        rw [hdir j] at hu
        cases hu
      rw [update_of_ne hne, hmem d hne]
    have hnew : ∀ i, update m.mem p (s.template p) p i = s.template p i := by
      intro i
      rw [update_self]
    refine ⟨(accounted_setupVm h.acc hnone ha).1, h.base, ?_, ?_, ?_⟩
    · intro d hd i
      show TableWord n (update m.mem p (s.template p) d i)
      have hu : s.user d i = true := user_of_sysDirs (s := s) hd i
      rw [hold hu i]
      exact h.sys d hd i
    · intro e' d hd i
      show TableWord n (update m.mem p (s.template p) d i)
      rcases pgdir_setupVm hd with ⟨_, rfl⟩ | hd
      · rw [hnew i]
        exact tableWord_template hn h d i
      · rw [hold (user_dir hd) i]
        exact h.words e' d hd i
    · intro e' d hd
      show update m.mem p (s.template p) d (pdx UVPT) = selfEntry d
      rcases pgdir_setupVm hd with ⟨_, rfl⟩ | hd
      · rw [hnew]
        exact template_uvpt d
      · rw [hold (user_dir hd)]
        exact h.self e' d hd

theorem SelfInv.insert_step {pp : Page n} {perm : Word} {r : Except Err Unit} (hva : va < UTOP)
    (hok : s.Proper (.insert e pp va perm)) (hrun : s.insertInto e pp va perm = some (r, s')) :
    s'.SelfInv := by
  obtain ⟨hfree, hperm, href⟩ := hok
  have hidx := pdx_lt_of_lt hva
  unfold insertInto at hrun
  split at hrun
  · cases hrun
  · next d hd =>
    have hu := user_of_pgdir hd hidx
    have hfits := pteAddr_mapEntry_of_lt pp hperm
    obtain ⟨_, _, hins, hacc, _⟩ := h.acc.pageInsert hn hu hfits hfree (.inl href)
    rw [hins] at hrun
    have hcases := h.acc.pageInsert_cases hn hu hins
    split at hrun
    · cases hrun
    · next heq =>
      cases heq
      cases hrun
      rcases hcases with hst | rfl
      · exact h.store hn hd hidx hst hacc rfl rfl rfl rfl rfl
      · exact h
    · next heq =>
      cases heq
      cases hrun
      rcases hcases with hst | hsame
      · exact h.store hn hd hidx hst hacc rfl rfl rfl rfl rfl
      · subst hsame
        exact ⟨h.acc, h.base, h.sys, h.words, h.self⟩

theorem SelfInv.step {op : DirOp n} (hok : s.Proper op) (hstep : s.execDir op = some s') :
    s'.SelfInv := by
  cases op with
  | setupVm =>
    simp only [execDir] at hstep
    split at hstep <;> cases hstep
    next hnone =>
    exact h.setupVm_step hn hnone
  | alloc =>
    simp only [execDir] at hstep
    split at hstep <;> cases hstep
    · exact h
    · next ha =>
      exact h.alloc_step ha
  | insert =>
    simp only [execDir] at hstep
    split at hstep
    · next hva =>
      obtain ⟨⟨_, _⟩, hrun, rfl⟩ := map_eq_some_iff.mp hstep
      exact h.insert_step hn hva hok hrun
    · cases hstep
  | remove =>
    simp only [execDir] at hstep
    split at hstep
    · cases hstep
    · next d hd =>
      split at hstep
      · next hva =>
        obtain ⟨_, hrem, rfl⟩ := map_eq_some_iff.mp hstep
        have hidx := pdx_lt_of_lt hva
        obtain ⟨_, hrem', hacc, _⟩ := h.acc.pageRemove (user_of_pgdir hd hidx)
        cases hrem.symm.trans hrem'
        rcases pageRemove_stored hrem with hst | ⟨_, rfl⟩
        · exact h.store hn hd hidx hst hacc rfl rfl rfl rfl rfl
        · exact h
      · cases hstep

end

end MemSys

/-- Directories, from any state of the page layer in which the base directory
is one. -/
def directories (memsize : Word) :
    Machine (MemSys (npage memsize)) (DirOp (npage memsize)) where
  init s := (memCalls memsize).init s ∧ s.sysDirs s.basePgdir = true
  step := MemSys.execDir

theorem MemSys.SelfInv.start {memsize : Word} {s : MemSys (npage memsize)}
    (h : (directories memsize).init s) : s.SelfInv := by
  obtain ⟨hinit, hbase⟩ := h
  have hacc := (MemSys.Inv.start hinit).acc
  obtain ⟨_, hf, hpm, hdirs, _, hnone, _⟩ := hinit
  refine ⟨hacc, hbase, fun d hd i => ?_, fun e d hd => ?_, fun e d hd => ?_⟩
  · rw [hpm]
    rw [hdirs] at hd
    exact Frames.dirWords_of_allowed hf d hd i
  · rw [hnone e] at hd
    cases hd
  · rw [hnone e] at hd
    cases hd

/-- In every state that set-ups and proper insertions and removals below
`UTOP` lead to, the window of every environment shows its real tables. -/
theorem selfMapped_of_proper {memsize : Word} {s : MemSys (npage memsize)}
    (hrun : (directories memsize).ReachableUnder MemSys.Proper s) : s.SelfMapped := by
  have hinv : s.SelfInv := by
    apply hrun.invariant
    · intro s hs
      exact MemSys.SelfInv.start hs
    · intro s op s' _ hinv hok hstep
      exact hinv.step (npage_le memsize) hok hstep
  exact hinv.selfMapped (npage_le memsize)

/-- A page of a machine with eight pages. -/
def smallPage (k : Nat) : Page (npage 0x8000) := Fin.ofNat 8 k

/-- The base directory of `bootMem` is one. -/
theorem bootMem_directories : (directories 0x8000).init bootMem := ⟨bootMem_init, by decide +kernel⟩

/-- A directory is set up, and a page is mapped, mapped again and removed
once. -/
theorem selfMapped_mapped :
    ∃ s : MemSys (npage 0x8000), (directories 0x8000).ReachableUnder MemSys.Proper s ∧
      (s.pgdir 0 = some (smallPage 6) ∧ s.pageAt (smallPage 6) 1 1 = some (smallPage 5)) ∧
      s.SelfMapped := by
  have hstart : (directories 0x8000).ReachableUnder MemSys.Proper bootMem :=
    .init bootMem_directories
  obtain ⟨s, hs, hmapped⟩ := Machine.exists_reachableUnder_of_exec
    (P := fun s : MemSys (npage 0x8000) => s.pgdir 0 = some (smallPage 6) ∧
      s.pageAt (smallPage 6) 1 1 = some (smallPage 5))
    [.setupVm 0, .alloc, .insert 0 (smallPage 5) 0x400000 0x100,
      .insert 0 (smallPage 5) 0x401000 0x100, .remove 0 0x400000]
    hstart (by decide +kernel)
  exact ⟨s, hs, hmapped, selfMapped_of_proper hs⟩

/-- With bit 13 of `perm` set, `page_insert` maps the directory, page 6, where
it was given page 4. The removal releases the directory, the next table is
allocated in it, and its entry for `UVPT` is gone. -/
theorem selfMapLost_reachable : ∃ s : MemSys (npage 0x8000), (directories 0x8000).Reachable s ∧
      (s.pgdir 0 = some (smallPage 6) ∧ s.pm.mem (smallPage 6) (pdx UVPT) = 0) ∧
      ¬ s.SelfMapped := by
  have hstart : (directories 0x8000).Reachable bootMem := .init bootMem_directories
  obtain ⟨s, hs, hd, hzero⟩ := Machine.exists_reachableUnder_of_exec
    (P := fun s : MemSys (npage 0x8000) => s.pgdir 0 = some (smallPage 6) ∧
      s.pm.mem (smallPage 6) (pdx UVPT) = 0)
    [.setupVm 0, .alloc, .alloc, .insert 0 (smallPage 4) 0x400000 0x2000, .remove 0 0x400000,
      .insert 0 (smallPage 4) 0x800000 0x100]
    hstart (by decide +kernel)
  refine ⟨s, hs, ⟨hd, hzero⟩, fun h => ?_⟩
  obtain ⟨_, htrans, _⟩ := h.dir 0 _ 0 hd
  have hno : pteValid (s.pm.mem (smallPage 6) (pdx (vpdVa 0))) = false := by
    rw [pdx_vpdVa, hzero]
    exact pteValid_zero
  unfold Pmap.translate at htrans
  rw [leaf_of_no_table hno] at htrans
  cases htrans

end MosSmp
