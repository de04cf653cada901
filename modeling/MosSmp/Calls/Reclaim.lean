import MosSmp.Calls.Legal

/-!
`env_free` gives back what the environment has used. A directory holds a
reference to each of its own tables and to each page that is mapped through
them, and the environment holds one to the directory; exactly these go. The
loops stop at `UTOP`. The entries up to `UVPT` are shared with the base
directory and the one at `UVPT` is the directory itself, but an access to the
upper half of the window at `UVPT` hangs a table above all of them, and that
table is never released.
-/

namespace MosSmp

open Lib Function

namespace MemSys

variable {n : Nat} {s s' t : MemSys n} {e A : EnvIdx} {d p q : Page n} {i : Idx} {m : Pmap n}
variable {k : Kern}

/-- What the entries of the directory `d` refer to: those of its own, and those
of the tables of user space. -/
def heldSlots (s : MemSys n) (d : Page n) : Idx ⊕ Idx × Idx → Option (Page n)
  | .inl i => if i < pdx UTOP ∨ pdx UVPT < i then entryPage (s.pm.mem d i) else none
  | .inr (i, j) =>
    if i < pdx UTOP then (entryPage (s.pm.mem d i)).bind (fun t => entryPage (s.pm.mem t j))
    else none

/-- The references to `p` that an environment with directory `d` holds. -/
def held (s : MemSys n) (d p : Page n) : Nat :=
  Ledger.refs (s.heldSlots d) p + if p = d then 1 else 0

/-- From `s` to `t` an environment with directory `d` has given everything
back. -/
structure Reclaimed (s t : MemSys n) (d : Page n) : Prop where
  refs : ∀ p, (s.pm.ppRef p).toNat = (t.pm.ppRef p).toNat + s.held d p
  /-- No page is on the free list twice. -/
  list : t.pm.pageFreeList.Holds t.pm.Free
  free : ∀ p, t.pm.Free p ↔ s.pm.Free p ∨ 0 < s.held d p ∧ t.pm.ppRef p = 0
  shared : ∀ i, pdx UTOP ≤ i → i < pdx UVPT → t.pm.mem s.basePgdir i = s.pm.mem s.basePgdir i ∧
    ∀ q, entryPage (s.pm.mem s.basePgdir i) = some q →
      t.pm.mem q = s.pm.mem q ∧ t.pm.ppRef q = s.pm.ppRef q

/-- No counter overflows. -/
def CounterRoom (s : MemSys n) (A : EnvIdx) : UserCall → Prop
  | .memMap srcid srcva _ _ _ =>
    ∀ src, s.kern.envid2env A srcid true = .ok src → s.Room src srcva
  | .ipcTrySend _ _ srcva _ => srcva ≠ 0 → s.Room A srcva
  | _ => True

/-- The calls pass permission bits only, and no counter overflows. -/
def Counted (s : MemSys n) (l : CpuId × Event) : Prop :=
  ∀ A tf call, s.executing l.1 = some A → l.2 = .syscall tf call →
    call.LowPerm ∧ ∀ s₁, s.enter l.1 A tf = some s₁ → s₁.CounterRoom A call

theorem CallInv.step_counted {l : CpuId × Event} (hn : n ≤ 2 ^ 20) (h : s.CallInv)
    (hok : s.Counted l) (hrun : s.step l = some s') : s'.CallInv := by
  rcases h.step_cases hn hrun with ⟨A, heffect⟩ | ⟨A, tf, call, hcur, hcall, hrun'⟩
  · exact heffect.inv trivial
  · obtain ⟨hperm, hok'⟩ := hok A tf call hcur hcall
    obtain ⟨s₁, henter, hstep, h₁, henvs, _, _, heffect⟩ := h.doSyscall hn hcur hperm hrun'
    have hroom := hok' s₁ henter
    have hlive : (s₁.kern.envs A).envStatus ≠ .free := by
      rw [henvs]
      exact (h.executing hcur).1
    cases call with
    | ipcTrySend =>
      obtain ⟨⟨_, _⟩, hrun₂, rfl⟩ := Option.map_eq_some_iff.mp hstep
      have h₂ := h₁.sysIpcTrySend_inv hn hlive hperm hroom hrun₂
      exact (finish_effect (A := A) (T := fun _ => True) (P := True) (.refl h₂)).inv trivial
    | _ => exact heffect.inv hroom

/-- The directory that a slot belongs to. -/
def dirOf : Slot n → Page n :=
  Sum.elim Prod.fst Prod.fst

theorem refs_dirOf (slots : Slot n → Option (Page n)) (d p : Page n) :
    Ledger.refs (fun x => if dirOf x = d then slots x else none) p =
      Ledger.refs (fun x : Idx ⊕ Idx × Idx => slots (x.map (d, ·) (d, ·))) p := by
  rw [Ledger.refs_sum, Ledger.refs_sum]
  exact congrArg₂ (· + ·) (Ledger.refs_fiber (fun x => slots (.inl x)) d p)
    (Ledger.refs_fiber (fun x => slots (.inr x)) d p)

/-- When `d` has been cleared and dropped, the slots of the other directories
are left as they were. -/
theorem slots_cleared {user : Page n → Idx → Bool} {own : Page n → Nat} {m' : Pmap n}
    (h : m.Accounted user own) (hc : Pmap.Cleared m m' user d) :
    m'.slots (update user d (fun _ => false)) =
      fun x => if dirOf x = d then none else m.slots user x := by
  have htable : ∀ q i, m'.tableAt (update user d (fun _ => false)) q i =
      if q = d then none else m.tableAt user q i := by
    intro q i
    by_cases hq : q = d
    · unfold Pmap.tableAt
      rw [hq, update_self]
      simp
    · rw [if_neg hq, ← hc.within.tableAt h hq]
      unfold Pmap.tableAt
      rw [update_of_ne hq]
  funext x
  rcases x with ⟨q, i⟩ | ⟨q, i, j⟩
  · exact htable q i
  · show (m'.tableAt _ q i).bind _ = if q = d then none else m.pageAt user q i j
    rw [htable]
    by_cases hq : q = d
    · simp [hq]
    · rw [if_neg hq, if_neg hq, ← hc.within.pageAt h hq]
      unfold Pmap.pageAt
      rw [hc.within.tableAt h hq]

section Count

variable (h : s.CallInv) (hd : s.pgdir e = some d)

include h hd

theorem CallInv.tableAt_eq (i : Idx) :
    s.tableAt d i = if i < pdx UTOP then entryPage (s.pm.mem d i) else none := by
  split
  · next hi => exact tableAt_of_pgdir hd hi
  · next hi =>
    unfold MemSys.tableAt Pmap.tableAt
    rw [h.user_above hd (not_lt.mp hi)]
    rfl

section

variable (hclean : ∀ i, pdx UVPT < i → pteValid (s.pm.mem d i) = false)
include hclean

/-- With no table above the window the directory holds what its slots in the
ledger refer to. -/
theorem CallInv.heldSlots_eq (x : Idx ⊕ Idx × Idx) :
    s.heldSlots d x = s.pm.slots s.user (x.map (d, ·) (d, ·)) := by
  rcases x with i | ⟨i, _⟩
  · show _ = s.tableAt d i
    rw [h.tableAt_eq hd]
    by_cases hi : i < pdx UTOP
    · simp [heldSlots, hi]
    · by_cases hup : pdx UVPT < i
      · simp [heldSlots, hi, entryPage_of_not_valid (hclean i hup)]
      · simp [heldSlots, hi, hup]
  · show _ = (s.tableAt d i).bind _
    rw [h.tableAt_eq hd]
    by_cases hi : i < pdx UTOP <;> simp [heldSlots, hi]

theorem CallInv.refs_released
    (hacc : m.Accounted (update s.user d (fun _ => false)) (update s.own d (s.own d - 1)))
    (hc : Pmap.Cleared s.pm m s.user d) (p : Page n) :
    (s.pm.ppRef p).toNat = (m.ppRef p).toNat + s.held d p := by
  have hold : (s.pm.ppRef p).toNat = s.own p + Ledger.refs (s.pm.slots s.user) p :=
    h.mem.acc.count p
  have hnew : (m.ppRef p).toNat = update s.own d (s.own d - 1) p +
      Ledger.refs (m.slots (update s.user d (fun _ => false))) p := hacc.count p
  have hsplit := Ledger.refs_split (s.pm.slots s.user) (fun x => dirOf x = d) p
  rw [refs_dirOf, ← slots_cleared h.mem.acc hc] at hsplit
  have hslots : s.heldSlots d = fun x => s.pm.slots s.user (x.map (d, ·) (d, ·)) :=
    funext (h.heldSlots_eq hd hclean)
  have hpos : 0 < s.own d := h.mem.acc.dirs d 0 (user_of_pgdir hd (by decide))
  unfold held
  rw [hslots]
  rw [update_apply] at hnew
  split_ifs at hnew ⊢ with hp
  · subst hp
    omega
  · omega

/-- A table that is shared from the base directory is nothing `d` holds. -/
theorem CallInv.held_shared (ht : s.tableAt s.basePgdir i = some q) : s.held d q = 0 := by
  have hslots : ∀ x, s.heldSlots d x ≠ some q := by
    intro x hx
    rw [h.heldSlots_eq hd hclean] at hx
    rcases x with j | ⟨j, k⟩
    · exact h.base_ne hd (h.mem.acc.tables.alone _ i d j q ht hx).1
    · have hj : j < pdx UTOP := by
        obtain ⟨_, ht', _⟩ := Option.bind_eq_some_iff.mp hx
        exact h.below_of_table hd ht'
      exact (h.mem.mapped e d j k q hd hj hx).2.1 s.basePgdir i ht
  have hne : q ≠ d := by
    rintro rfl
    exact h.mem.acc.tables.ne_dir ht (user_dir hd) rfl
  unfold held
  rw [Ledger.refs_eq_zero hslots, if_neg hne]

end

end Count

/-- `env_free` gives back all that a directory without a table above the window
holds, whatever the state of the environments. -/
theorem CallInv.envFree_reclaimed (h : s.CallInv) (hlive : (s.kern.envs e).envStatus ≠ .free)
    (hd : s.pgdir e = some d) (hclean : ∀ i, pdx UVPT < i → pteValid (s.pm.mem d i) = false)
    (k : Kern) : ∃ t, (s.setKern k).envFree e = some t ∧ Reclaimed s t d ∧
      ∀ a : Fin NASID, a.val = (k.envs e).envAsid.toNat → t.kern.asidBitmap a = false := by
  obtain ⟨m₁, m, htables, hdec, _, hacc, hc⟩ := h.released hlive hd
  have hrun : (s.setKern k).envFree e = some { s with
      kern := (k.asidFree (k.envs e).envAsid).freeSection e
      pm := m
      pgdir := update s.pgdir e none
      own := update s.own d (s.own d - 1) } := by
    unfold MemSys.envFree
    rw [show (s.setKern k).pgdir e = some d from hd]
    dsimp only
    rw [show (s.setKern k).pm.freeTables d = some m₁ from htables, Option.bind_some, hdec]
    rfl
  have hrefs := h.refs_released hd hclean hacc hc
  refine ⟨_, hrun, ⟨hrefs, hacc.list, fun p => ?_, fun i hlo hhi => ?_⟩, fun a ha => ?_⟩
  · show m.Free p ↔ s.pm.Free p ∨ 0 < s.held d p ∧ m.ppRef p = 0
    have hp := hrefs p
    have htracked := hc.tracked p
    constructor
    · intro hfree
      have hzero := hacc.idle p hfree
      rw [hzero] at hp
      rcases htracked.mp (.inr hfree) with href | hold
      · refine .inr ⟨?_, hzero⟩
        by_contra hnone
        apply href
        apply BitVec.eq_of_toNat_eq
        rw [hp]
        simp only [BitVec.ofNat_eq_ofNat, BitVec.toNat_ofNat]
        omega
      · exact .inl hold
    · rintro (hold | ⟨_, hzero⟩)
      · have hnone : m.ppRef p = 0 := by
          have hidle := h.mem.acc.idle p hold
          rw [hidle] at hp
          apply BitVec.eq_of_toNat_eq
          simp only [BitVec.ofNat_eq_ofNat, BitVec.toNat_ofNat] at hp ⊢
          omega
        exact (htracked.mpr (.inr hold)).resolve_left (not_not.mpr hnone)
      · have href : s.pm.ppRef p ≠ 0 := by
          intro hnone
          rw [hnone] at hp
          simp only [BitVec.ofNat_eq_ofNat, BitVec.toNat_ofNat] at hp
          omega
        exact (htracked.mpr (.inl href)).resolve_left (not_not.mpr hzero)
  · have hne := h.base_ne hd
    refine ⟨hc.within.dirWord h.mem.acc (h.base_user 0) (.inl hne), fun q hq => ?_⟩
    have ht : s.tableAt s.basePgdir i = some q := (tableAt_of_sysDirs h.base).trans hq
    refine ⟨hc.within.table h.mem.acc hne ht, BitVec.eq_of_toNat_eq ?_⟩
    have hq := hrefs q
    rw [h.held_shared hd hclean ht] at hq
    exact hq.symm
  · show ((k.asidFree (k.envs e).envAsid).freeSection e).asidBitmap a = false
    rw [Kern.asidBitmap_freeSection]
    unfold Kern.asidFree
    dsimp only
    rw [update_apply, if_pos]
    apply Fin.ext
    show a.val = _ % NASID
    rw [← ha, Nat.mod_eq_of_lt a.isLt]

end MemSys

theorem callInv_of_counted {memsize : Word} {s : MemSys (npage memsize)}
    (hrun : (calls memsize).ReachableUnder MemSys.Counted s) : s.CallInv := by
  apply hrun.invariant
  · intro s hs
    exact hs.1
  · intro s l s' _ hinv hok hstep
    exact hinv.step_counted (npage_le memsize) hok hstep

open MemSys in
/-- Whatever the environments have mapped and accessed, `env_free` gives back
all that a directory without a table above the window holds. -/
theorem envFree_reclaims {memsize : Word} {s : MemSys (npage memsize)} {e : EnvIdx}
    {d : Page (npage memsize)} (hrun : (calls memsize).ReachableUnder MemSys.Counted s)
    (hlive : (s.kern.envs e).envStatus ≠ .free) (hd : s.pgdir e = some d)
    (hclean : ∀ i, pdx UVPT < i → pteValid (s.pm.mem d i) = false) (k : Kern) :
    ∃ t, (s.setKern k).envFree e = some t ∧ Reclaimed s t d ∧
      ∀ a : Fin NASID, a.val = (k.envs e).envAsid.toNat → t.kern.asidBitmap a = false :=
  (callInv_of_counted hrun).envFree_reclaimed hlive hd hclean k

open MemSys in
/-- An environment that has accessed its stack. -/
theorem envFree_reclaims_stack :
    ∃ s t : MemSys (npage 0x10000), (calls 0x10000).ReachableUnder MemSys.Counted s ∧
      (s.lookupIn 0 0x7f3fd000).join.isSome = true ∧ s.envFree 0 = some t ∧
      Reclaimed s t (bootPage 12) := by
  have hrun : (twoEnvs.step (0, .fault 0x7f3fd000)).any (fun s => decide
      ((s.kern.envs 0).envStatus ≠ .free ∧ s.pgdir 0 = some (bootPage 12) ∧
        (∀ i, pdx UVPT < i → pteValid (s.pm.mem (bootPage 12) i) = false) ∧
        (s.lookupIn 0 0x7f3fd000).join.isSome = true)) = true := by
    decide +kernel
  obtain ⟨s, hs, hP⟩ := (Option.any_eq_true ..).mp hrun
  obtain ⟨hlive, hd, hclean, hstack⟩ := of_decide_eq_true hP
  have hreach : (calls 0x10000).ReachableUnder MemSys.Counted s := by
    refine .step (0, .fault 0x7f3fd000) (.init twoEnvs_legal) ?_ (by rw [calls_step]; exact hs)
    intro A tf call _ hl
    cases hl
  obtain ⟨t, ht, hreclaimed, _⟩ := envFree_reclaims hreach hlive hd hclean s.kern
  exact ⟨s, t, hreach, hstack, ht, hreclaimed⟩

/-- An access to the upper half of the window hangs a table that stays in use
when nobody has it any more. -/
theorem tableLost_reachable :
    ∃ (s t : MemSys (npage 0x10000)) (d p : Page (npage 0x10000)) (i : Idx),
      (calls 0x10000).Reachable s ∧ s.pgdir 0 = some d ∧
      entryPage (s.pm.mem d i) = some p ∧ (s.pm.ppRef p).toNat = 1 ∧ s.envFree 0 = some t ∧
      (t.pm.ppRef p).toNat = 1 ∧ ¬ t.pm.Free p ∧ ¬ MemSys.Reclaimed s t d := by
  have hstart : (calls 0x10000).Reachable twoEnvs := .init twoEnvs_legal
  obtain ⟨s, hs, hd, hp, href, hfreed⟩ := Machine.exists_reachableUnder_of_exec
    (P := fun s : MemSys (npage 0x10000) => s.pgdir 0 = some (bootPage 12) ∧
      entryPage (s.pm.mem (bootPage 12) 600) = some (bootPage 10) ∧
      (s.pm.ppRef (bootPage 10)).toNat = 1 ∧
      (s.envFree 0).any (fun t => decide ((t.pm.ppRef (bootPage 10)).toNat = 1 ∧
        ¬ t.pm.Free (bootPage 10))) = true)
    [(0, .fault (UVPT + 600 * 4096))] hstart (by decide +kernel)
  obtain ⟨t, ht, hP⟩ := (Option.any_eq_true ..).mp hfreed
  obtain ⟨href', hfree⟩ := of_decide_eq_true hP
  refine ⟨s, t, bootPage 12, bootPage 10, 600, hs, hd, hp, href, ht, href', hfree, fun h => ?_⟩
  have hslot : s.heldSlots (bootPage 12) (.inl 600) = some (bootPage 10) := by
    have hup : pdx UVPT < (600 : Idx) := by decide
    simp [MemSys.heldSlots, hup, hp]
  have hpos : 0 < s.held (bootPage 12) (bootPage 10) := Nat.lt_add_right _ (Ledger.refs_pos hslot)
  have hcount := h.refs (bootPage 10)
  omega

end MosSmp
