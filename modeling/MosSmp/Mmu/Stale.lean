import MosSmp.Mmu.Entries
import MosSmp.Mmu.Sharing

/-!
Free pages and the TLBs. `page_remove` and `page_insert` put a page on the free
list inside `pmap_lock` and flush its address after that. In between, a TLB
still translates the address to a page that is free, or that `page_alloc` has
handed out again. The window closes if the address is out of the TLBs before
its mapping is taken away: then no free page and no page that has been handed
out again is the target of an entry from before.
-/

namespace MosSmp

open Lib

namespace Mmu

variable {n : Nat} {s s' : Mmu n} {c : CpuId} {l : MmuLabel n} {e : TlbEntry (Nat × Nat)}

/-- The valid words of the entry lead to pages that are not free and have not
been handed out since the words were read. -/
def Fresh (s : Mmu n) (e : TlbEntry (Nat × Nat)) : Prop :=
  ∀ x ∈ e.words, ∀ p : Page n, loPage x.1 = some p → ¬ s.pm.Free p ∧ x.2 = s.allocs p

def NoLeftover (s : Mmu n) : Prop :=
  ∀ c, ∀ e ∈ (s.cpu c).tlb, s.Fresh e

/-- The tags in the TLB of a CPU and of its refill. -/
def tags (s : Mmu n) (c : CpuId) : List Word :=
  (s.cpu c).tlb.map TlbEntry.hi ++ ((s.cpu c).pc.inHand.map TlbEntry.hi).toList

/-- The step is orderly, and the translation that it takes away is in no TLB
and in no refill under way. -/
def FlushedFirst (s : Mmu n) (l : MmuLabel n) : Prop :=
  s.Orderly l ∧ ∀ c, ∀ hi ∈ s.tags c, s.drops l ≠ some hi

instance decidableTags (s : Mmu n) (l : MmuLabel n) (c : CpuId) :
    Decidable (∀ hi ∈ s.tags c, s.drops l ≠ some hi) :=
  List.decidableBAll _ _

instance decidableFlushedFirst (s : Mmu n) (l : MmuLabel n) : Decidable (s.FlushedFirst l) :=
  instDecidableAnd

theorem mem_tags (h : s.Has c e) : e.hi ∈ s.tags c := by
  unfold tags
  rcases h with he | he
  · exact List.mem_append_left _ (List.mem_map_of_mem he)
  · rw [he]
    exact List.mem_append_right _ (List.mem_singleton_self _)

/-- Something keeps every page that an entry leads to. -/
def AllKept (s : Mmu n) : Prop :=
  ∀ c e, s.Has c e → ∀ x ∈ e.words, ∀ p, loPage x.1 = some p →
    s.Kept e.hi p ∧ x.2 = s.allocs p

theorem bornOf_some {lo : Word} {p : Page n} (h : loPage lo = some p) :
    s.bornOf lo = s.allocs p := by
  unfold bornOf
  rw [h]
  rfl

theorem Inv.kept_of_reads (hn : n ≤ 2 ^ 20) (h : s.Inv) (hread : s.Reads c e) {x : Word × Nat}
    (hx : x ∈ e.words) {p : Page n} (hp : loPage x.1 = some p) :
    s.Kept e.hi p ∧ x.2 = s.allocs p := by
  obtain ⟨_, _, _, _, hpc, hlook, rfl⟩ := hread
  obtain ⟨hlive, hva⟩ := h.hand_of hpc
  rcases List.mem_cons.mp hx with rfl | hx
  · refine ⟨h.sound.kept_of_read hn hlive hva hlook ?_ hp, bornOf_some hp⟩
    rw [evenIdx_val]
    omega
  · obtain rfl := List.mem_singleton.mp hx
    refine ⟨h.sound.kept_of_read hn hlive hva hlook ?_ hp, bornOf_some hp⟩
    rw [oddIdx_val]
    omega

theorem AllKept.step (hn : n ≤ 2 ^ 20) (hkept : s.AllKept) (h : s.Inv) (hok : s.FlushedFirst l)
    (hstep : s.exec l = some s') : s'.AllKept := by
  intro c e hhas x hx p hp
  -- the entry was there, or it is being read from tables that do not change
  have hold : (s.Kept e.hi p ∧ x.2 = s.allocs p) ∧ s.drops l ≠ some e.hi := by
    rcases h.has_step hstep hhas with hhas | ⟨hread, rfl⟩
    · exact ⟨hkept c e hhas x hx p hp, hok.2 c e.hi (mem_tags hhas)⟩
    · refine ⟨h.kept_of_reads hn hread hx hp, ?_⟩
      obtain ⟨_, _, _, _, hpc, _⟩ := hread
      rw [drops_step hpc]
      exact Option.some_ne_none _ |>.symm
  obtain ⟨⟨hk, hnote⟩, hdrops⟩ := hold
  have hfree := h.sound.not_free_of_kept hk
  refine ⟨(h.kept_step hn hok.1 hstep hk).resolve_right hdrops, ?_⟩
  rw [hnote, allocs_step hstep hfree]

end Mmu

/-- In every state of a run in which translations are flushed before they are
taken away, no TLB leads to a page that is free or was handed out again. -/
theorem noLeftover_of_flushedFirst {memsize : Word} {s : Mmu (npage memsize)}
    (hrun : (mmu memsize).ReachableUnder Mmu.FlushedFirst s) : s.NoLeftover := by
  have hn := npage_le memsize
  have hboth : s.Inv ∧ s.AllKept := by
    apply hrun.invariant
    · intro s hinit
      refine ⟨Mmu.Inv.start hinit, fun c e hhas => ?_⟩
      obtain ⟨_, _, _, _, _, _, _, _, _, hcpu⟩ := hinit
      unfold Mmu.Has at hhas
      rw [hcpu] at hhas
      rcases hhas with he | he <;> cases he
    · intro s l s' _ hinv hok hstep
      exact ⟨hinv.1.step hn hok.1 hstep, hinv.2.step hn hinv.1 hok hstep⟩
  intro c e he x hx p hp
  obtain ⟨hk, hnote⟩ := hboth.2 c e (.inl he) x hx p hp
  exact ⟨hboth.1.sound.not_free_of_kept hk, hnote⟩

/-- The second CPU reads page 10 and its entry is evicted before the page is
unmapped. The page is then handed out again, while the same CPU has an entry
for page 8. -/
theorem noLeftover_evicted :
    ∃ s : Mmu (npage 0x10000), (mmu 0x10000).ReachableUnder Mmu.FlushedFirst s ∧
      (s.allocs (bootPage 10) = 2 ∧
        (s.cpu 1).tlb.map (fun e => loPage e.lo0) = [some (bootPage 8)]) ∧ s.NoLeftover := by
  have hstart : (mmu 0x10000).ReachableUnder Mmu.FlushedFirst bootMmu := .init bootMmu_init
  obtain ⟨s, hs, hP⟩ := Machine.exists_reachableUnder_of_exec
    (P := fun s : Mmu (npage 0x10000) => s.allocs (bootPage 10) = 2 ∧
      (s.cpu 1).tlb.map (fun e => loPage e.lo0) = [some (bootPage 8)])
    (twoSpaces ++ [.touch 1 (bootPage 11) 0x400000, .step 1, .step 1, .evict 1 0,
      .touch 1 (bootPage 12) 0x400000, .step 1, .step 1, .unmap 0 (bootPage 11) 0x400000, .step 0,
      .serve 1, .step 0, .memAlloc 0 (bootPage 12) 0x401000 PTE_D]) hstart (by decide +kernel)
  exact ⟨s, hs, hP, noLeftover_of_flushedFirst hs⟩

/-- The second CPU has page 10 in its TLB when the first one unmaps it. The
page is free, and the next `page_alloc` hands it out, with the entry still
there. -/
theorem leftoverEntry_reachable : ∃ s : Mmu (npage 0x10000), (mmu 0x10000).Reachable s ∧
      (s.pm.Free (bootPage 10) ∧
        (s.cpu 1).tlb.any (fun e => decide (loPage e.lo0 = some (bootPage 10))) = true) ∧
      (s.exec (.memAlloc 1 (bootPage 12) 0x402000 PTE_D)).any (fun t =>
        decide (t.allocs (bootPage 10) = 2 ∧
          (t.cpu 1).tlb.map (fun e => (loPage e.lo0, e.note.1)) = [(some (bootPage 10), 1)])) =
        true ∧
      ¬ s.NoLeftover := by
  have hstart : (mmu 0x10000).Reachable bootMmu := .init bootMmu_init
  obtain ⟨s, hs, ⟨hfree, htlb⟩, hnext⟩ := Machine.exists_reachableUnder_of_exec
    (P := fun s : Mmu (npage 0x10000) => (s.pm.Free (bootPage 10) ∧
        (s.cpu 1).tlb.any (fun e => decide (loPage e.lo0 = some (bootPage 10))) = true) ∧
      (s.exec (.memAlloc 1 (bootPage 12) 0x402000 PTE_D)).any (fun t =>
        decide (t.allocs (bootPage 10) = 2 ∧
          (t.cpu 1).tlb.map (fun e => (loPage e.lo0, e.note.1)) = [(some (bootPage 10), 1)])) =
        true)
    (twoSpaces ++ [.touch 1 (bootPage 11) 0x400000, .step 1, .step 1,
      .unmap 0 (bootPage 11) 0x400000]) hstart (by decide +kernel)
  refine ⟨s, hs, ⟨hfree, htlb⟩, hnext, fun h => ?_⟩
  obtain ⟨e, he, hp⟩ := List.any_eq_true.mp htlb
  exact (h 1 e he (e.lo0, e.note.1) List.mem_cons_self _ (of_decide_eq_true hp)).1 hfree

end MosSmp
