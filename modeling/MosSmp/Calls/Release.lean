import MosSmp.Calls.Envs
import MosSmp.Calls.Space

/-!
Taking an address space apart, and making a new one. `env_free` removes the
mappings of a directory table by table and releases the tables and the
directory. `Shrunk` is what a part of that does: mappings of one environment go
away, and nothing of any other environment changes. `env_setup_vm` takes a page
that was free, so it changes nothing of anybody.
-/

namespace MosSmp

open Lib Function Pmap MemSys List Option

namespace MemSys

variable {n : Nat} {s s' s'' : MemSys n} {e e' A B : EnvIdx} {d p q t : Page n} {i j : Idx}
variable {va : Word} {m : Pmap n}

/-- Mappings of `e` were removed, and nothing else. -/
structure Shrunk (s s' : MemSys n) (e : EnvIdx) : Prop where
  inv : s'.CallInv
  pm : s' = { s with pm := s'.pm }
  kept : ∀ A B, e ≠ B → Kept s s' A B
  maps : ∀ e' d i j p, s.pgdir e' = some d → i < pdx UTOP → s'.pageAt d i j = some p →
    s.pageAt d i j = some p

namespace Shrunk

theorem refl (h : s.CallInv) (e : EnvIdx) : Shrunk s s e :=
  ⟨h, rfl, fun A B _ => .refl s A B, fun _ _ _ _ _ _ _ hp => hp⟩

section

variable (h : Shrunk s s' e)
include h

theorem kern : s'.kern = s.kern := by rw [h.pm]

theorem pgdir : s'.pgdir = s.pgdir := by rw [h.pm]

theorem user : s'.user = s.user := by
  rw [h.pm]
  rfl

theorem maps_of (hp : s'.Maps A p) : s.Maps A p := by
  obtain ⟨d, i, j, hd, hi, hp⟩ := hp
  rw [h.pgdir] at hd
  exact ⟨d, i, j, hd, hi, h.maps A d i j p hd hi hp⟩

end

theorem trans (hinv : s.CallInv) (h₁ : Shrunk s s' e) (h₂ : Shrunk s' s'' e) : Shrunk s s'' e where
  inv := h₂.inv
  pm := by
    rw [h₂.pm, h₁.pm]
  kept := fun A B hB => .trans hinv (h₁.kept A B hB) (h₂.kept A B hB)
    (fun _ hp => .inl (h₁.maps_of hp))
  maps := fun e' d i j p hd hi hp =>
    h₁.maps e' d i j p hd hi (h₂.maps e' d i j p (by rw [h₁.pgdir, hd]) hi hp)

theorem legal (h : Shrunk s s' e) (hl : s.LegalPages) : s'.LegalPages := by
  intro e' d i j p hd hi hp
  rw [h.pgdir] at hd
  exact hl e' d i j p hd hi (h.maps e' d i j p hd hi hp)

end Shrunk

section

variable (h : s.CallInv) (hlive : (s.kern.envs e).envStatus ≠ .free) (hd : s.pgdir e = some d)
include h hlive hd

/-- An operation of the page layer on the directory of `e` that maps nothing
new. -/
theorem CallInv.shrink (hacc : m.Accounted s.user s.own) (hlocal : Pmap.Local s.pm m s.user d none)
    (htables : ∀ q i t, m.tableAt s.user q i = some t → s.tableAt q i = some t)
    (hpages : ∀ q i j p, m.pageAt s.user q i j = some p → s.pageAt q i j = some p) :
    Shrunk s { s with pm := m } e := by
  have ho : OnDir s { s with pm := m } e d := by
    refine ⟨hd, rfl, rfl, rfl, rfl, rfl, fun q j hne => ?_⟩
    rcases hlocal.mem q j hne with ⟨rfl, hu⟩ | hrest
    · exact .inl ⟨rfl, .inl (h.below_of_user hd hu)⟩
    · exact .inr hrest
  have hinv : MemSys.Inv { s with pm := m } := by
    refine ⟨hacc, h.mem.boot, h.mem.apart, fun e' d' i j p hd' hi hp => ?_, h.mem.dstva,
      h.mem.stored⟩
    obtain ⟨h1, h2, h3⟩ := h.mem.mapped e' d' i j p hd' hi (hpages d' i j p hp)
    exact ⟨h1, fun q k ht => h2 q k (htables q k p ht), h3⟩
  have hhigh : HighTables { s with pm := m } := by
    refine ho.high h rfl (fun i hi => ?_) (fun q i t ht => .inl (htables q i t ht))
    refine hlocal.dirWord h.mem.acc (user_dir hd) (.inr ?_)
    exact h.user_above hd (le_trans (by decide : pdx UTOP ≤ pdx UVPT) hi.le)
  exact ⟨ho.callInv h hlive hinv hhigh, rfl, fun A B hB => ho.kept h hB A,
    fun _ d' i j p _ _ hp => hpages d' i j p hp⟩

/-- `page_remove` in the address space of `e`. -/
theorem CallInv.pageRemove (hva : pdx va < pdx UTOP) (hrun : s.pm.pageRemove d va = some m) :
    Shrunk s { s with pm := m } e ∧ (∀ q i, m.tableAt s.user q i = s.tableAt q i) ∧
      m.pageAt s.user d (pdx va) (ptx va) = none ∧
      ∀ q j, m.mem q j = s.pm.mem q j ∨ m.mem q j = 0 := by
  obtain ⟨m', hrun', hacc, hlocal, htables, hpages, hnone, hwords⟩ :=
    h.mem.acc.pageRemove_local (user_of_pgdir hd hva)
  cases hrun'.symm.trans hrun
  refine ⟨h.shrink hlive hd hacc hlocal (fun q i t ht => (htables q i).symm.trans ht) ?_,
    htables, hnone, hwords⟩
  intro q i j p hp
  rcases hpages q i j with hsame | ⟨_, _, _, hgone⟩
  · exact hsame.symm.trans hp
  · cases hgone.symm.trans hp

/-- The inner loop of `env_free`, over the entries in `l`. -/
theorem CallInv.clearTable_loop (l : List Idx) (hi : i < pdx UTOP)
    (ht : s.tableAt d i = some t) :
    ∃ m, l.foldlM (fun m j => if pteValid (m.mem t j) then m.pageRemove d (vaOf i j)
        else some m) s.pm = some m ∧
      Shrunk s { s with pm := m } e ∧ (∀ q i, m.tableAt s.user q i = s.tableAt q i) ∧
      (∀ j ∈ l, pteValid (m.mem t j) = false) ∧
      (∀ q j, m.mem q j = s.pm.mem q j ∨ m.mem q j = 0) ∧ Pmap.Cleared s.pm m s.user d := by
  induction l generalizing s with
  | nil =>
    exact ⟨s.pm, rfl, .refl h e, fun _ _ => rfl, fun j hj => absurd hj (not_mem_nil),
      fun _ _ => .inl rfl, .refl⟩
  | cons j l ih =>
    -- what one pass does, whether or not the entry was valid
    have hone : ∃ m, (if pteValid (s.pm.mem t j) then s.pm.pageRemove d (vaOf i j)
          else some s.pm) = some m ∧ Shrunk s { s with pm := m } e ∧
        (∀ q i, m.tableAt s.user q i = s.tableAt q i) ∧ pteValid (m.mem t j) = false ∧
        (∀ q j, m.mem q j = s.pm.mem q j ∨ m.mem q j = 0) ∧
        Pmap.Cleared s.pm m s.user d := by
      split
      · have hva : pdx (vaOf i j) < pdx UTOP := by rwa [pdx_vaOf]
        obtain ⟨m, hm, _⟩ := h.mem.acc.pageRemove_local (user_of_pgdir hd hva)
        obtain ⟨hshrunk, htables, hnone, hwords⟩ := h.pageRemove hlive hd hva hm
        refine ⟨m, hm, hshrunk, htables, ?_, hwords,
          h.mem.acc.pageRemove_cleared (user_of_pgdir hd hva) hm⟩
        rw [pdx_vaOf, ptx_vaOf, pageAt_of_table ((htables d i).trans ht)] at hnone
        by_contra hv
        obtain ⟨_, hp⟩ := hshrunk.inv.mem.acc.tables.pageIn d i t j ((htables d i).trans ht)
          (Bool.eq_true_of_not_eq_false hv)
        unfold entryPage at hnone
        rw [if_pos (Bool.eq_true_of_not_eq_false hv)] at hnone
        cases hp.symm.trans hnone
      · next hv =>
        exact ⟨s.pm, rfl, .refl h e, fun _ _ => rfl, Bool.not_eq_true _ ▸ hv,
          fun _ _ => .inl rfl, .refl⟩
    obtain ⟨m₁, hj, hshrunk, htables, hgone, hwords, hcleared⟩ := hone
    obtain ⟨m, hrest, hshrunk', htables', hgone', hwords', hcleared'⟩ :=
      ih (s := { s with pm := m₁ }) hshrunk.inv hlive hd ((htables d i).trans ht)
    refine ⟨m, ?_, hshrunk.trans h hshrunk', fun q i => (htables' q i).trans (htables q i), ?_,
      ?_, hcleared.trans hcleared'⟩
    · rw [foldlM_cons, hj]
      exact hrest
    · intro k hk
      rcases mem_cons.mp hk with rfl | hk
      · rcases hwords' t k with hsame | hzero
        · rw [hsame]
          exact hgone
        · rw [hzero]
          exact pteValid_zero
      · exact hgone' k hk
    · intro q k
      rcases hwords' q k with hsame | hzero
      · rcases hwords q k with hold | hzero
        · exact .inl (hsame.trans hold)
        · exact .inr (hsame.trans hzero)
      · exact .inr hzero

/-- One table of a directory in `env_free`. -/
theorem CallInv.freeTable (hi : i < pdx UTOP) :
    ∃ m, s.pm.freeTable d i = some m ∧ Shrunk s { s with pm := m } e ∧
      m.tableAt s.user d i = none ∧ Pmap.Cleared s.pm m s.user d := by
  unfold Pmap.freeTable
  split
  · next hv =>
    obtain ⟨t, ht, hpa⟩ := h.mem.acc.tables.tableAt_of_valid (user_of_pgdir hd hi) hv
    rw [pa2page_pteAddr, hpa]
    obtain ⟨m₁, hclear, hshrunk, htables, hblank, _, hcleared⟩ :=
      h.clearTable_loop hlive hd (finRange 1024) hi ht
    have ht₁ : m₁.tableAt s.user d i = some t := (htables d i).trans ht
    obtain ⟨m₂, hdec, hacc, hlocal, hmem, hpages⟩ :=
      hshrunk.inv.mem.acc.releaseTable_local ht₁ (fun j => hblank j (mem_finRange j))
    have hcleared' := hshrunk.inv.mem.acc.releaseTable_cleared ht₁ hdec
    have hgone : m₂.tableAt s.user d i = none := by
      refine tableAt_of_not_valid ?_
      rw [hmem, if_pos ⟨rfl, rfl⟩]
      exact pteValid_zero
    have hstep : Shrunk { s with pm := m₁ } { s with pm := m₂ } e := by
      refine hshrunk.inv.shrink hlive hd hacc hlocal ?_ ?_
      · intro q k x hx
        by_cases heq : q = d ∧ k = i
        · obtain ⟨rfl, rfl⟩ := heq
          cases hgone.symm.trans hx
        · rw [← hx]
          exact (tableAt_congr (by rw [hmem, if_neg heq])).symm
      · intro q k j p hp
        exact (hpages q k j).symm.trans hp
    refine ⟨m₂, ?_, hshrunk.trans h hstep, hgone, hcleared.trans hcleared'⟩
    dsimp only
    unfold clearTable
    rw [hclear]
    exact hdec
  · next hv =>
    exact ⟨s.pm, rfl, .refl h e, tableAt_of_not_valid (Bool.not_eq_true _ ▸ hv), .refl⟩

theorem CallInv.freeTables_loop (l : List Idx) (hl : ∀ i ∈ l, i < pdx UTOP) :
    ∃ m, l.foldlM (fun m i => m.freeTable d i) s.pm = some m ∧
      Shrunk s { s with pm := m } e ∧ (∀ i ∈ l, m.tableAt s.user d i = none) ∧
      Pmap.Cleared s.pm m s.user d := by
  induction l generalizing s with
  | nil =>
    exact ⟨s.pm, rfl, .refl h e, fun i hi => absurd hi (not_mem_nil), .refl⟩
  | cons i l ih =>
    obtain ⟨m₁, hi, hshrunk, hnone, hcleared⟩ := h.freeTable hlive hd (hl i (mem_cons_self ..))
    obtain ⟨m, hrest, hshrunk', hnone', hcleared'⟩ := ih (s := { s with pm := m₁ })
      hshrunk.inv hlive hd (fun k hk => hl k (mem_cons_of_mem _ hk))
    refine ⟨m, ?_, hshrunk.trans h hshrunk', fun k hk => ?_, hcleared.trans hcleared'⟩
    · rw [foldlM_cons, hi]
      exact hrest
    · rcases mem_cons.mp hk with rfl | hk
      · by_contra hsome
        obtain ⟨t, ht⟩ := ne_none_iff_exists'.mp hsome
        cases hnone.symm.trans (hcleared'.tables k t ht)
      · exact hnone' k hk

/-- The loops of `env_free` leave an empty directory. -/
theorem CallInv.freeTables : ∃ m, s.pm.freeTables d = some m ∧ Shrunk s { s with pm := m } e ∧
      (∀ i, m.tableAt s.user d i = none) ∧ Pmap.Cleared s.pm m s.user d := by
  obtain ⟨m, hrun, hshrunk, hnone, hcleared⟩ := h.freeTables_loop hlive hd
    ((finRange 1024).filter (· < pdx UTOP)) (fun i hi => by simpa using hi)
  refine ⟨m, hrun, hshrunk, fun i => ?_, hcleared⟩
  by_cases hi : i < pdx UTOP
  · exact hnone i (by simp [hi])
  · unfold Pmap.tableAt
    rw [h.user_above hd (not_lt.mp hi)]
    rfl

end

/-- The directory of `e` belongs to nobody any more. -/
def drop (s : MemSys n) (e : EnvIdx) (m : Pmap n) (own : Page n → Nat) : MemSys n :=
  { s with pm := m, pgdir := update s.pgdir e none, own := own }

theorem pgdir_drop (hd : update s.pgdir e none e' = some q) : e' ≠ e ∧ s.pgdir e' = some q := by
  by_cases he : e' = e
  · rw [he, update_self] at hd
    cases hd
  · rw [update_of_ne he] at hd
    exact ⟨he, hd⟩

theorem CallInv.user_drop (h : s.CallInv) (hd : s.pgdir e = some d) (m : Pmap n)
    (own : Page n → Nat) : (s.drop e m own).user = update s.user d (fun _ => false) := by
  funext q i
  rw [update_apply]
  by_cases hq : q = d
  · rw [if_pos hq, hq]
    have hno : ¬ ∃ e', (s.drop e m own).pgdir e' = some d := by
      rintro ⟨e', he'⟩
      obtain ⟨hne, he'⟩ := pgdir_drop he'
      exact hne (h.mem.apart e' e d he' hd)
    have hsys : (s.drop e m own).sysDirs d = false := h.sys e d hd
    unfold user
    simp [hno, hsys]
  · rw [if_neg hq]
    have hiff : (∃ e', (s.drop e m own).pgdir e' = some q) ↔ ∃ e', s.pgdir e' = some q := by
      constructor
      · rintro ⟨e', he'⟩
        exact ⟨e', (pgdir_drop he').2⟩
      · rintro ⟨e', he'⟩
        refine ⟨e', ?_⟩
        have hne : e' ≠ e := by
          rintro rfl
          exact hq (some.inj (he'.symm.trans hd))
        show update s.pgdir e none e' = some q
        rw [update_of_ne hne, he']
    exact congrArg (fun b => s.sysDirs q || b && decide (i < pdx UTOP)) (decide_eq_decide.mpr hiff)

theorem CallInv.settled (h : s.CallInv) : s.kern.Settled :=
  ⟨h.freeList, h.running, h.calm, h.mem.dstva⟩

section Drop

variable {own : Page n → Nat} {k : Kern}

theorem CallInv.drop_kept (hmem : m.mem = s.pm.mem) (hne : e ≠ B) :
    Kept s ((s.drop e m own).setKern k) A B where
  pgdir := update_of_ne hne.symm _ _
  dirWords := fun d _ => congrFun hmem d
  tables := fun _ _ t _ _ _ => congrFun hmem t
  pages := fun p _ _ => congrFun hmem p

section

variable (h : s.CallInv) (hd : s.pgdir e = some d) (hmem : m.mem = s.pm.mem)
include h hd hmem

theorem CallInv.tableAt_drop (ht : (s.drop e m own).tableAt q i = some t) :
    s.tableAt q i = some t := by
  have hword : (s.drop e m own).pm.mem = s.pm.mem := hmem
  unfold MemSys.tableAt Pmap.tableAt at ht
  rw [h.user_drop hd m own, hword, update_apply] at ht
  by_cases hq : q = d
  · rw [if_pos hq] at ht
    cases ht
  · rw [if_neg hq] at ht
    exact ht

theorem CallInv.pageAt_drop (hp : (s.drop e m own).pageAt q i j = some p) :
    s.pageAt q i j = some p := by
  have hword : (s.drop e m own).pm.mem = s.pm.mem := hmem
  obtain ⟨_, ht, hp⟩ := bind_eq_some_iff.mp hp
  rw [hword] at hp
  unfold pageAt
  rw [pageAt_of_table (h.tableAt_drop hd hmem ht), hp]

section

variable (hacc : m.Accounted (update s.user d (fun _ => false)) own)
  (hown : ∀ q, q ≠ d → own q = s.own q)
include hacc hown

/-- Nothing refers to an empty directory, so it can be dropped. -/
theorem CallInv.drop_inv : (s.drop e m own).Inv := by
  refine ⟨?_, ?_, ?_, ?_, h.mem.dstva, h.mem.stored⟩
  · rw [h.user_drop hd m own]
    exact hacc
  · intro q hq
    have hne : q ≠ d := by
      rintro rfl
      have habove := h.above e q hd
      have hq' : q.val < s.freemem := hq
      omega
    show 0 < own q
    rw [hown q hne]
    exact h.mem.boot q hq
  · intro e₁ e₂ q h₁ h₂
    exact h.mem.apart e₁ e₂ q (pgdir_drop h₁).2 (pgdir_drop h₂).2
  · intro e' d' i j p hd' hi hp
    obtain ⟨_, hd'⟩ := pgdir_drop hd'
    obtain ⟨h1, h2, h3⟩ := h.mem.mapped e' d' i j p hd' hi (h.pageAt_drop hd hmem hp)
    refine ⟨?_, fun q k ht => h2 q k (h.tableAt_drop hd hmem ht), h3⟩
    have hne : p ≠ d := by
      rintro rfl
      have hpos := h.mem.acc.dirs p 0 (user_of_pgdir hd (by decide))
      omega
    show own p = 0
    rw [hown p hne, h1]

/-- The slot of a directory that has been dropped is free from now on. -/
theorem CallInv.drop (hk : k.Settled) (hfree : (k.envs e).envStatus = .free)
    (hst : ∀ e', e' ≠ e → ((k.envs e').envStatus = .free ↔ (s.kern.envs e').envStatus = .free)) :
    ((s.drop e m own).setKern k).CallInv := by
  have hinv := h.drop_inv hd hmem hacc hown
  refine ⟨⟨hinv.acc, hinv.boot, hinv.apart, hinv.mapped, hk.dstva, hinv.stored⟩, ?_, h.base, ?_, ?_,
    ?_, hk.freeList, hk.running, hk.calm, ?_, ?_, ?_, ?_⟩
  · exact fun e' d' hd' => h.sys e' d' (pgdir_drop hd').2
  · intro i hlo hhi
    show pteValid (m.mem s.basePgdir i) = true
    rw [hmem]
    exact h.window i hlo hhi
  · intro e' d' i hd' hlo hhi
    show m.mem d' i = m.mem s.basePgdir i
    rw [hmem]
    exact h.shared e' d' i (pgdir_drop hd').2 hlo hhi
  · intro e' d' hd'
    show m.mem d' (pdx UVPT) = _
    rw [hmem]
    exact h.self e' d' (pgdir_drop hd').2
  · exact fun e' d' hd' => h.above e' d' (pgdir_drop hd').2
  · intro e' d' hfree' hd' i
    obtain ⟨hne, hd'⟩ := pgdir_drop hd'
    have hold := h.vacant e' d' ((hst e' hne).mp hfree') hd' i
    by_contra hsome
    obtain ⟨t, ht⟩ := ne_none_iff_exists'.mp hsome
    have ht' : (s.drop e m own).tableAt d' i = some t := ht
    cases hold.symm.trans (h.tableAt_drop hd hmem ht')
  · intro e' d' i t hd' hi ht
    obtain ⟨hne, hd'⟩ := pgdir_drop hd'
    have ht' : entryPage (m.mem d' i) = some t := ht
    rw [hmem] at ht'
    obtain ⟨hpos, hdir, htable⟩ := h.high e' d' i t hd' hi ht'
    have htd : t ≠ d := by
      rintro rfl
      cases (user_dir hd).symm.trans (hdir 0)
    refine ⟨?_, fun j => ?_, fun q j hq => ?_⟩
    · show 0 < own t
      rw [hown t htd]
      exact hpos
    · show (s.drop e m own).user t j = false
      rw [h.user_drop hd m own, update_of_ne htd]
      exact hdir j
    · have hq' : (s.drop e m own).tableAt q j = some t := hq
      exact htable q j (h.tableAt_drop hd hmem hq')
  · intro e' hlive hnone
    have hne : e' ≠ e := by
      rintro rfl
      exact hlive hfree
    have hnone' : update s.pgdir e none e' = none := hnone
    rw [update_of_ne hne] at hnone'
    exact h.live e' (fun hfree' => hlive ((hst e' hne).mpr hfree')) hnone'

end

theorem CallInv.drop_maps (hp : ((s.drop e m own).setKern k).Maps A p) : s.Maps A p := by
  obtain ⟨d', i, j, hd', hi, hp⟩ := hp
  have hp' : (s.drop e m own).pageAt d' i j = some p := hp
  exact ⟨d', i, j, (pgdir_drop hd').2, hi, h.pageAt_drop hd hmem hp'⟩

theorem CallInv.drop_legal (hl : s.LegalPages) : ((s.drop e m own).setKern k).LegalPages := by
  intro e' d' i j p hd' hi hp
  have hp' : (s.drop e m own).pageAt d' i j = some p := hp
  exact hl e' d' i j p (pgdir_drop hd').2 hi (h.pageAt_drop hd hmem hp')

end

/-- What `env_free` does to the memory: the tables go, then the directory, and
with it the reference that the environment had. -/
theorem CallInv.released (h : s.CallInv) (hlive : (s.kern.envs e).envStatus ≠ .free)
    (hd : s.pgdir e = some d) :
    ∃ m₁ m, s.pm.freeTables d = some m₁ ∧ m₁.pageDecref d = some m ∧
      Shrunk s { s with pm := m₁ } e ∧
      m.Accounted (update s.user d (fun _ => false)) (update s.own d (s.own d - 1)) ∧
      Pmap.Cleared s.pm m s.user d := by
  obtain ⟨m₁, htables, hshrunk, hempty, hcleared⟩ := h.freeTables hlive hd
  have hacc₁ := hshrunk.inv.mem.acc
  have hpos : 0 < s.own d := hacc₁.dirs d 0 (user_of_pgdir hd (by decide))
  obtain ⟨m, hdec, hacc⟩ := (hacc₁.dropDir hempty).release hpos (fun i hu => by
    rw [update_self] at hu
    cases hu)
  have hmem : m.mem = m₁.mem := mem_pageDecref hdec
  refine ⟨m₁, m, htables, hdec, hshrunk, hacc, hcleared.trans ⟨fun q j hne => ?_, fun i t ht => ?_,
    pageDecref_tracked hacc₁.list hacc₁.idle (hacc₁.not_free_of_own hpos)
      (hacc₁.ref_of_own hpos) hdec⟩⟩
  · rw [hmem] at hne
    exact absurd rfl hne
  · rw [← ht]
    exact (tableAt_congr (by rw [hmem])).symm

/-- `env_free` on an environment that is being killed. -/
theorem CallInv.envFree {x : Env} (h : s.CallInv) (hlive : (s.kern.envs e).envStatus ≠ .free)
    (henvs : k.envs = update s.kern.envs e x)
    (hlist : k.envFreeList = s.kern.envFreeList)
    (hdstva : x.envIpcDstva = (s.kern.envs e).envIpcDstva)
    (hrun : (s.setKern k).envFree e = some s') :
    s'.CallInv ∧ (∀ A B, e ≠ B → Kept s s' A B) ∧ (s.LegalPages → s'.LegalPages) ∧
      s'.kern = (k.asidFree (k.envs e).envAsid).freeSection e := by
  unfold MemSys.envFree at hrun
  split at hrun
  · cases hrun
  · next d hd =>
    obtain ⟨m₁, htables, hrest⟩ := bind_eq_some_iff.mp hrun
    obtain ⟨m, hdec, rfl⟩ := map_eq_some_iff.mp hrest
    obtain ⟨_, _, htables', hdec', hshrunk, hacc, _⟩ := h.released hlive hd
    cases htables'.symm.trans htables
    cases hdec'.symm.trans hdec
    have h₁ := hshrunk.inv
    have hmem : m.mem = m₁.mem := mem_pageDecref hdec
    have hset : ((k.asidFree (k.envs e).envAsid).freeSection e).Settled :=
      Kern.Settled.freeSection h.settled hlive henvs hlist hdstva
    have hown : ∀ q, q ≠ d → update s.own d (s.own d - 1) q = s.own q :=
      fun q hq => update_of_ne hq _ _
    refine ⟨h₁.drop hd hmem hacc hown hset ?_ ?_, fun A B hB => ?_, fun hl => ?_, rfl⟩
    · rw [Kern.envs_freeSection, update_self]
      rfl
    · intro e' he'
      rw [Kern.envs_freeSection, update_of_ne he', Kern.envs_asidFree]
      show (k.envs e').envStatus = .free ↔ (s.kern.envs e').envStatus = .free
      rw [henvs, update_of_ne he']
    · exact .trans h (hshrunk.kept A B hB) (CallInv.drop_kept (s := { s with pm := m₁ }) hmem hB)
        (fun _ hp => .inl (hshrunk.maps_of hp))
    · exact h₁.drop_legal hd hmem (hshrunk.legal hl)

end Drop

/-- `p` becomes the directory of `e`. -/
def withDir (s : MemSys n) (e : EnvIdx) (p : Page n) (m : Pmap n) : MemSys n :=
  { s with
    pm := { m.incref p with mem := update m.mem p (s.template p) }
    pgdir := update s.pgdir e (some p)
    own := update s.own p (s.own p + 1) }

section WithDir

variable (h : s.CallInv) (ha : s.pm.pageAlloc = .ok (p, m))

include h ha

theorem CallInv.mem_withDir (hq : q ≠ p) : (s.withDir e p m).pm.mem q = s.pm.mem q := by
  obtain ⟨_, _, _, _, _, hmem, _⟩ := h.mem.acc.pageAlloc ha
  show update m.mem p (s.template p) q = s.pm.mem q
  rw [update_of_ne hq, hmem q hq]

theorem CallInv.withDir_kept (A : EnvIdx) (hne : e ≠ B) : Kept s (s.withDir e p m) A B := by
  obtain ⟨_, hfree, _⟩ := h.mem.acc.pageAlloc ha
  have hword : ∀ q, ¬ s.pm.Free q → (s.withDir e p m).pm.mem q = s.pm.mem q := by
    intro q hq
    refine h.mem_withDir ha ?_
    rintro rfl
    exact hq hfree
  refine ⟨update_of_ne hne.symm _ _, fun d hd => hword d ?_, fun d i t hd hi ht => ?_,
    fun q hq _ => hword q (h.not_free_of_maps hq)⟩
  · exact h.mem.acc.not_free_of_dir (user_dir hd)
  · refine hword t ?_
    by_cases hlow : i < pdx UTOP
    · exact h.mem.acc.not_free_of_slot (x := .inl (d, i)) ((tableAt_of_pgdir hd hlow).trans ht)
    · rcases lt_or_gt_of_ne hi with hi | hi
      · rw [h.shared B d i hd (not_lt.mp hlow) hi] at ht
        exact h.mem.acc.not_free_of_slot (x := .inl (s.basePgdir, i))
          ((tableAt_of_sysDirs h.base).trans ht)
      · exact h.mem.acc.not_free_of_own (h.high B d i t hd hi ht).1

variable (hnone : s.pgdir e = none)

include hnone

theorem CallInv.tableAt_withDir : (s.withDir e p m).tableAt q i = s.tableAt q i := by
  obtain ⟨_, hslots⟩ := accounted_setupVm h.mem.acc hnone ha
  exact congrFun hslots (.inl (q, i))

theorem CallInv.pageAt_withDir : (s.withDir e p m).pageAt q i j = s.pageAt q i j := by
  obtain ⟨_, hslots⟩ := accounted_setupVm h.mem.acc hnone ha
  exact congrFun hslots (.inr (q, i, j))

theorem CallInv.withDir : (s.withDir e p m).CallInv := by
  have hinv : (s.withDir e p m).Inv := by
    have hstep := h.mem.setupVm_step hnone
    unfold envSetupVm at hstep
    rw [ha] at hstep
    exact hstep
  obtain ⟨_, hfree, _⟩ := h.mem.acc.pageAlloc ha
  obtain ⟨hdir, _⟩ := h.mem.acc.unused_of_free hfree
  have hself : (s.withDir e p m).pm.mem p = s.template p := by
    show update m.mem p (s.template p) p = _
    rw [update_self]
  have hnew : ∀ e' d', (s.withDir e p m).pgdir e' = some d' →
      d' = p ∨ s.pgdir e' = some d' ∧ (s.withDir e p m).pm.mem d' = s.pm.mem d' := by
    intro e' d' hd'
    rcases pgdir_setupVm hd' with ⟨_, hp⟩ | hold
    · exact .inl hp
    · refine .inr ⟨hold, h.mem_withDir ha ?_⟩
      rintro rfl
      have hu := user_dir hold
      rw [hdir 0] at hu
      cases hu
  have hbase : (s.withDir e p m).pm.mem s.basePgdir = s.pm.mem s.basePgdir := by
    refine h.mem_withDir ha ?_
    intro heq
    cases (h.base_user 0).symm.trans (heq ▸ hdir 0)
  have hpos : ∀ q, 0 < s.own q → 0 < (s.withDir e p m).own q := by
    intro q hq
    show 0 < update s.own p (s.own p + 1) q
    rw [update_apply]
    split <;> omega
  refine ⟨hinv, ?_, h.base, ?_, ?_, ?_, h.freeList, h.running, h.calm, ?_, ?_, ?_, ?_⟩
  · intro e' d' hd'
    rcases hnew e' d' hd' with rfl | ⟨hd', _⟩
    · exact (Bool.or_eq_false_iff.mp (hdir 0)).1
    · exact h.sys e' d' hd'
  · intro i hlo hhi
    show pteValid ((s.withDir e p m).pm.mem s.basePgdir i) = true
    rw [hbase]
    exact h.window i hlo hhi
  · intro e' d' i hd' hlo hhi
    show _ = (s.withDir e p m).pm.mem s.basePgdir i
    rw [hbase]
    rcases hnew e' d' hd' with rfl | ⟨hd', hword⟩
    · rw [hself]
      unfold template
      rw [if_pos ⟨hlo, hhi⟩]
    · rw [hword]
      exact h.shared e' d' i hd' hlo hhi
  · intro e' d' hd'
    rcases hnew e' d' hd' with rfl | ⟨hd', hword⟩
    · rw [hself]
      unfold template
      rw [if_neg (fun hand => lt_irrefl _ hand.2), if_pos rfl]
    · rw [hword]
      exact h.self e' d' hd'
  · intro e' d' hd'
    rcases hnew e' d' hd' with rfl | ⟨hd', _⟩
    · by_contra hlow
      exact h.mem.acc.not_free_of_own (h.mem.boot d' (not_le.mp hlow)) hfree
    · exact h.above e' d' hd'
  · intro e' d' hst hd' i
    rw [h.tableAt_withDir ha hnone]
    rcases hnew e' d' hd' with rfl | ⟨hd', _⟩
    · unfold MemSys.tableAt Pmap.tableAt
      rw [hdir i]
      rfl
    · exact h.vacant e' d' hst hd' i
  · intro e' d' i t hd' hi ht
    rcases hnew e' d' hd' with rfl | ⟨hd', hword⟩
    · have hzero : s.template d' i = 0 := by
        unfold template
        rw [if_neg (fun hand => absurd (hi.trans hand.2) (lt_irrefl _)), if_neg (ne_of_gt hi)]
      rw [hself, hzero] at ht
      cases ht
    · rw [hword] at ht
      obtain ⟨hown, hplain, htable⟩ := h.high e' d' i t hd' hi ht
      have htp : t ≠ p := by
        rintro rfl
        exact h.mem.acc.not_free_of_own hown hfree
      refine ⟨hpos t hown, fun j => ?_, fun q j hq => ?_⟩
      · unfold MemSys.withDir
        rw [user_setupVm hnone hdir, update_of_ne htp]
        exact hplain j
      · rw [h.tableAt_withDir ha hnone] at hq
        exact htable q j hq
  · intro e' hlive hnone'
    have hd' : update s.pgdir e (some p) e' = none := hnone'
    rw [update_apply] at hd'
    split at hd'
    · cases hd'
    · exact h.live e' hlive hd'

theorem CallInv.withDir_legal (hl : s.LegalPages) : (s.withDir e p m).LegalPages := by
  obtain ⟨_, hfree, _⟩ := h.mem.acc.pageAlloc ha
  obtain ⟨hdir, _⟩ := h.mem.acc.unused_of_free hfree
  intro e' d' i j q hd' hi hq
  rw [h.pageAt_withDir ha hnone] at hq
  rcases pgdir_setupVm hd' with ⟨_, rfl⟩ | hd'
  · have hno : s.pageAt d' i j = none := by
      apply pageAt_of_no_table
      unfold Pmap.tableAt
      rw [hdir i]
      rfl
    cases hno.symm.trans hq
  · exact hl e' d' i j q hd' hi hq

end WithDir

/-- `env_setup_vm` for a free slot. A directory that an earlier `env_alloc` left
there is lost. -/
theorem CallInv.envSetupVm {r : Except Err Unit} (h : s.CallInv)
    (hfree : (s.kern.envs e).envStatus = .free) (hrun : s.envSetupVm e = (r, s')) :
    s'.CallInv ∧ (∀ A B, e ≠ B → Kept s s' A B) ∧ (s.LegalPages → s'.LegalPages) ∧
      s'.kern = s.kern ∧ (r = .ok () → s'.pgdir e ≠ none) := by
  -- without the directory that is lost, the slot has none
  obtain ⟨s₀, h₀, hkept, hmaps, hlegal, hnone, hkern, hpm, hsame⟩ : ∃ s₀ : MemSys n,
      s₀.CallInv ∧ (∀ A B, e ≠ B → Kept s s₀ A B) ∧ (∀ A q, s₀.Maps A q → s.Maps A q) ∧
      (s.LegalPages → s₀.LegalPages) ∧ s₀.pgdir e = none ∧ s₀.kern = s.kern ∧ s₀.pm = s.pm ∧
      ∀ p m, s₀.withDir e p m = s.withDir e p m := by
    cases hd : s.pgdir e with
    | none =>
      exact ⟨s, h, fun A B _ => .refl s A B, fun _ _ hq => hq, id, hd, rfl, rfl, fun _ _ => rfl⟩
    | some d =>
      have hacc := h.mem.acc.dropDir (h.vacant e d hfree hd)
      refine ⟨(s.drop e s.pm s.own).setKern s.kern,
        h.drop hd rfl hacc (fun _ _ => rfl) h.settled hfree (fun _ _ => Iff.rfl),
        fun A B hB => CallInv.drop_kept rfl hB, fun A q hq => h.drop_maps hd rfl hq,
        h.drop_legal hd rfl, update_self .., rfl, rfl, fun p m => ?_⟩
      unfold MemSys.withDir MemSys.setKern MemSys.drop
      simp only [update_idem]
      rfl
  unfold MemSys.envSetupVm at hrun
  split at hrun
  · obtain ⟨rfl, rfl⟩ := Prod.mk.inj hrun
    exact ⟨h, fun A B _ => .refl s A B, id, rfl, fun hr => by cases hr⟩
  · next p m ha =>
    obtain ⟨rfl, hs'⟩ := Prod.mk.inj hrun
    have ha₀ : s₀.pm.pageAlloc = .ok (p, m) := by rw [hpm, ha]
    have hnew : s₀.withDir e p m = s' := (hsame p m).trans hs'
    rw [← hnew]
    refine ⟨h₀.withDir ha₀ hnone, fun A B hB => ?_, fun hl => ?_, hkern, fun _ hno => ?_⟩
    · exact .trans h (hkept A B hB) (h₀.withDir_kept ha₀ A hB) (fun q hq => .inl (hmaps A q hq))
    · exact h₀.withDir_legal ha₀ hnone (hlegal hl)
    · have hd : update s₀.pgdir e (some p) e = none := hno
      rw [update_self] at hd
      cases hd

end MemSys

end MosSmp
