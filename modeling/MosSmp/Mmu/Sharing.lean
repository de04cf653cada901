import MosSmp.Mmu.Lifecycle

/-!
Pages that travel between address spaces. `sys_mem_map` and `sys_ipc_try_send`
look a page up without `pmap_lock` and insert it afterwards in a section of its
own; in between the page is kept alive by the mapping it was found at and by
nothing else. As long as the other CPU leaves that mapping alone, the page is
not free when it is inserted, whatever else the other CPU does with the page or
with the two address spaces. Otherwise the page may be on the free list by
then, and it ends up mapped and allocatable.
-/

namespace MosSmp

open Lib

namespace MmuPc

variable {n : Nat}

/-- The page that a CPU is about to pass to `page_insert`. -/
def inserting : MmuPc n → Option (Page n)
  | .fill _ _ p | .insert _ _ p _ _ => some p
  | _ => none

end MmuPc

namespace Mmu

variable {n : Nat} {s : Mmu n}

/-- What is inserted or mapped cannot be handed out by `page_alloc`. -/
structure NoResurrection (s : Mmu n) : Prop where
  inserted : ∀ c pp, (s.cpu c).pc.inserting = some pp → ¬ s.pm.Free pp
  mapped : ∀ d i j p, s.dirs d = true → i < pdx UTOP → s.pageAt d i j = some p → ¬ s.pm.Free p

theorem Inv.inserting_not_free {c : CpuId} {p : Page n} (h : s.Inv)
    (hp : (s.cpu c).pc.inserting = some p) : ¬ s.pm.Free p := by
  cases hpc : (s.cpu c).pc with
  | fill =>
    rw [hpc] at hp
    cases hp
    exact h.held_not_free (c := c) (by rw [hpc]; rfl)
  | insert =>
    rw [hpc] at hp
    cases hp
    exact h.insert_not_free hpc
  | _ =>
    rw [hpc] at hp
    cases hp

end Mmu

/-- Two address spaces, in pages 12 and 11. The first has page 8 mapped, the
second has page 10. -/
def twoSpaces : List (MmuLabel (npage 0x10000)) :=
  [.setupVm 0, .step 0, .setupVm 0, .step 0,
    .memAlloc 0 (bootPage 11) 0x400000 PTE_D, .step 0, .step 0, .serve 1, .step 0,
    .memAlloc 0 (bootPage 12) 0x400000 PTE_D, .step 0, .step 0, .serve 1, .step 0]

/-- In every state of an orderly run, no page that is mapped or about to be
inserted is on the free list. -/
theorem noResurrection_of_orderly {memsize : Word} {s : Mmu (npage memsize)}
    (hrun : (mmu memsize).ReachableUnder Mmu.Orderly s) : s.NoResurrection := by
  have hinv := Mmu.inv_of_orderly hrun
  refine ⟨fun c pp hp => hinv.inserting_not_free hp, fun d i j p _ _ hp => ?_⟩
  exact hinv.sound.acc.not_free_of_slot (x := .inr (d, i, j)) hp

/-- Page 10 is mapped a second time and then shared with the other address
space. Before it is inserted there, the other CPU unmaps it at the second
address. -/
theorem noResurrection_otherMapping :
    ∃ s : Mmu (npage 0x10000), (mmu 0x10000).ReachableUnder Mmu.Orderly s ∧
      ((s.cpu 0).pc.inserting = some (bootPage 10) ∧
        (s.cpu 0).pc.source = some (bootPage 11, 1, 0) ∧
        s.pageAt (bootPage 11) 1 2 = none) ∧ s.NoResurrection := by
  have hstart : (mmu 0x10000).ReachableUnder Mmu.Orderly bootMmu := .init bootMmu_init
  obtain ⟨s, hs, hP⟩ := Machine.exists_reachableUnder_of_exec (P := fun s : Mmu (npage 0x10000) =>
      (s.cpu 0).pc.inserting = some (bootPage 10) ∧ (s.cpu 0).pc.source = some (bootPage 11, 1, 0) ∧
        s.pageAt (bootPage 11) 1 2 = none)
    (twoSpaces ++ [.share 0 (bootPage 11) 0x400000 (bootPage 11) 0x402000 PTE_D, .step 0,
      .step 0, .serve 1, .step 0,
      .share 0 (bootPage 11) 0x400000 (bootPage 12) 0x401000 PTE_D,
      .unmap 1 (bootPage 11) 0x402000]) hstart (by decide +kernel)
  exact ⟨s, hs, hP, noResurrection_of_orderly hs⟩

/-- The other CPU unmaps page 10 at the address where it was looked up. It is
free when it is inserted, and stays so while it is mapped. -/
theorem freedPageMapped_reachable : ∃ s : Mmu (npage 0x10000), (mmu 0x10000).Reachable s ∧
      ((s.cpu 0).pc.inserting = some (bootPage 10) ∧ s.pm.Free (bootPage 10)) ∧
      (s.exec (.step 0)).any (fun t => decide (t.dirs (bootPage 12) = true ∧
        t.pageAt (bootPage 12) 1 1 = some (bootPage 10) ∧
        t.pm.Free (bootPage 10))) = true ∧
      ¬ s.NoResurrection := by
  have hstart : (mmu 0x10000).Reachable bootMmu := .init bootMmu_init
  obtain ⟨s, hs, hP, hnext⟩ := Machine.exists_reachableUnder_of_exec
    (P := fun s : Mmu (npage 0x10000) =>
      ((s.cpu 0).pc.inserting = some (bootPage 10) ∧ s.pm.Free (bootPage 10)) ∧
      (s.exec (.step 0)).any (fun t => decide (t.dirs (bootPage 12) = true ∧
        t.pageAt (bootPage 12) 1 1 = some (bootPage 10) ∧
        t.pm.Free (bootPage 10))) = true)
    (twoSpaces ++ [.share 0 (bootPage 11) 0x400000 (bootPage 12) 0x401000 PTE_D,
      .unmap 1 (bootPage 11) 0x400000]) hstart (by decide +kernel)
  exact ⟨s, hs, hP, hnext, fun h => h.inserted 0 _ hP.1 hP.2⟩

end MosSmp
