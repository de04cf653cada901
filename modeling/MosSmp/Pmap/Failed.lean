import MosSmp.Pmap.Confine

/-!
What a failed `sys_mem_alloc`, `sys_mem_map` or `sys_mem_unmap` leaves behind.
Every check comes before the first change, and `page_insert` fails before it has
changed anything, for want of a page for a table. But `sys_mem_alloc` has taken
a page from the free list by then and does not give it back: if that page was
the last one, and the table for `va` is missing, the page is lost.
-/

namespace MosSmp

open Lib

namespace Pmap

variable {n : Nat} {m m' : Pmap n} {d pp p : Page n} {va perm : Word} {err : Err}

theorem mapPage_error (h : m.mapPage d pp va perm = some (.error err, m')) :
    m' = m ∧ pteValid (m.mem d (pdx va)) = false ∧ m.pageFreeList.first = none := by
  unfold mapPage pgdirWalk at h
  cases hv : pteValid (m.read (d, pdx va)) with
  | true =>
    rw [hv, if_pos rfl] at h
    cases hp : (entryOf (m.read (d, pdx va)) va : Option (EntryPtr n)) with
    | none | some => simp [hp] at h
  | false =>
    rw [hv, if_neg (by decide), if_pos rfl] at h
    unfold pageAlloc at h
    cases hfirst : m.pageFreeList.first with
    | none =>
      simp only [hfirst, Option.some.injEq, Prod.mk.injEq] at h
      exact ⟨h.2.symm, hv, rfl⟩
    | some =>
      -- With a page for the table the walk gives an entry or panics.
      simp only [hfirst] at h
      split at h
      · cases h
      · next hwalk =>
        obtain ⟨_, _, hpte⟩ := Option.map_eq_some_iff.mp hwalk
        cases hpte
      · cases h

/-- `page_insert` fails before its first change, if no table of the directory is
the directory itself. -/
theorem pageInsert_error (hself : pteValid (m.mem d (pdx va)) = true →
      (pa2page (m.mem d (pdx va)) : Option (Page n)) ≠ some d)
    (h : m.pageInsert d pp va perm = some (.error err, m')) :
    m' = m ∧ pteValid (m.mem d (pdx va)) = false ∧ m.pageFreeList.first = none := by
  unfold pageInsert pgdirWalk at h
  cases hv : pteValid (m.read (d, pdx va)) with
  | false =>
    rw [hv, if_neg (by decide), if_neg (by decide)] at h
    exact mapPage_error h
  | true =>
    rw [hv, if_pos rfl] at h
    cases ht : (pa2page (pteAddr (m.read (d, pdx va))) : Option (Page n)) with
    | none => simp [entryOf, ht] at h
    | some t =>
      have hne : d ≠ t := by
        rintro rfl
        rw [pa2page_pteAddr] at ht
        exact hself hv ht
      simp only [entryOf, ht, Option.map_some] at h
      split at h
      · split at h
        · cases h
        · split at h
          · obtain ⟨_, hdec, hmap⟩ := Option.bind_eq_some_iff.mp h
            have hinvalid := (mapPage_error hmap).2.1
            rw [mem_write, if_neg (fun hc => hne hc.1), mem_pageDecref hdec] at hinvalid
            exact absurd (hinvalid.symm.trans hv) (by decide)
          · cases h
      · exact mapPage_error h

end Pmap

namespace MemSys

variable {n : Nat} {s t : MemSys n} {cur e : EnvIdx} {d pp : Page n} {va perm : Word} {err : Err}

/-- The directory of an environment is not handed out as a free page, and it is
not one of its own tables below `UTOP`. -/
structure DirsApart (s : MemSys n) : Prop where
  unlisted : ∀ e d, s.pgdir e = some d → s.pm.pageFreeList.first ≠ some d
  apart : ∀ e d i, s.pgdir e = some d → i < pdx UTOP → pteValid (s.pm.mem d i) = true →
    (pa2page (s.pm.mem d i) : Option (Page n)) ≠ some d

theorem Inv.dirsApart (h : s.Inv) : s.DirsApart := by
  have hown : ∀ e d, s.pgdir e = some d → 0 < s.own d :=
    fun e d hd => h.acc.dirs d 0 (user_of_pgdir hd (by decide))
  refine ⟨fun e d hd hfirst => ?_, fun e d i hd hi hv hpage => ?_⟩
  · have ha : ∃ m, s.pm.pageAlloc = .ok (d, m) := by
      unfold Pmap.pageAlloc
      rw [hfirst]
      exact ⟨_, rfl⟩
    obtain ⟨m, ha⟩ := ha
    exact h.acc.not_free_of_own (hown e d hd) (h.acc.pageAlloc ha).2.1
  · have hu := user_of_pgdir hd hi
    have htable : s.pm.tableAt s.user d i = some d := by
      unfold Pmap.tableAt entryPage
      rw [if_pos hu, if_pos hv, hpage]
    have hplain := h.acc.tables.plain d i d htable i
    rw [hu] at hplain
    cases hplain

theorem insertInto_error (hself : ∀ d, s.pgdir e = some d → pteValid (s.pm.mem d (pdx va)) = true →
      (pa2page (s.pm.mem d (pdx va)) : Option (Page n)) ≠ some d)
    (h : s.insertInto e pp va perm = some (.error err, t)) :
    t = s ∧ ∃ d, s.pgdir e = some d ∧ pteValid (s.pm.mem d (pdx va)) = false ∧
      s.pm.pageFreeList.first = none := by
  unfold insertInto at h
  split at h
  · cases h
  · next d hd =>
    split at h <;> cases h
    next err' m hins =>
    obtain ⟨rfl, hv, hfirst⟩ := Pmap.pageInsert_error (hself d hd) hins
    exact ⟨rfl, d, hd, hv, hfirst⟩

theorem DirsApart.self (h : s.DirsApart) (hva : isIllegalVa va = false) (hd : s.pgdir e = some d)
    (hv : pteValid (s.pm.mem d (pdx va)) = true) :
    (pa2page (s.pm.mem d (pdx va)) : Option (Page n)) ≠ some d :=
  h.apart e d (pdx va) hd (pdx_lt_utop hva) hv

theorem memMap_error {srcid srcva dstid dstva : Word} (h : s.DirsApart)
    (hrun : s.sysMemMap cur srcid srcva dstid dstva perm = some (.error err, t)) : t = s := by
  unfold sysMemMap at hrun
  split at hrun
  · cases hrun
    rfl
  · next hva =>
    have hdst : isIllegalVa dstva = false := by
      have hboth : isIllegalVa srcva = false ∧ isIllegalVa dstva = false := by simpa using hva
      exact hboth.2
    split at hrun
    · cases hrun
      rfl
    · split at hrun
      · cases hrun
        rfl
      · split at hrun
        · cases hrun
        · cases hrun
          rfl
        · exact (insertInto_error (fun d hd => h.self hdst hd) hrun).1

end MemSys

end MosSmp
