import MosSmp.Mmu.Present

/-!
What the TLBs hold, and where it comes from. A refill that has read its two
words counts as having the entry already. New entries are read from a table
that is in use at that moment, so their words lead to pages that something
keeps: a translation with the tag of the entry, `base_pgdir`, or an owner that
never gives the page back.
-/

namespace MosSmp

open Lib Function

theorem and_bit_ne_zero {w : Word} {k : Nat} :
    w &&& BitVec.twoPow 32 k ≠ 0 ↔ w.getLsbD k = true := by
  rw [BitVec.and_twoPow]
  by_cases hk : w.getLsbD k = true
  · have hlt : k < 32 := by
      by_contra hge
      rw [BitVec.getLsbD_of_ge w k (by omega)] at hk
      cases hk
    rw [if_pos hk]
    refine ⟨fun _ => hk, fun _ hzero => ?_⟩
    have hbit := congrArg (fun v : Word => v.getLsbD k) hzero
    simp [hlt] at hbit
  · rw [if_neg hk]
    exact ⟨fun h => absurd rfl h, fun h => absurd h hk⟩

/-- The TLB takes a table entry to the page that the entry refers to. -/
theorem loPage_entryLo {n : Nat} (w : Word) :
    (loPage (entryLo w) : Option (Page n)) = entryPage w := by
  have hvalid : (entryLo w &&& 0x2 ≠ 0) ↔ pteValid w = true := by
    unfold entryLo pteValid
    rw [decide_eq_true_iff, show (0x2 : Word) = BitVec.twoPow 32 1 from rfl,
      show PTE_V = BitVec.twoPow 32 7 from rfl, and_bit_ne_zero, and_bit_ne_zero,
      BitVec.getLsbD_ushiftRight]
  have hppn : (entryLo w >>> 6).toNat = ppn w := by
    unfold entryLo ppn
    rw [← BitVec.shiftRight_add]
  unfold loPage entryPage pa2page
  by_cases hv : pteValid w = true
  · rw [if_pos (hvalid.mpr hv), if_pos hv]
    simp only [hppn]
  · rw [if_neg (fun h => hv (hvalid.mp h)), if_neg hv]

theorem evenIdx_val (j : Idx) : (evenIdx j).val = j.val / 2 * 2 := by
  exact Nat.mod_eq_of_lt (by omega)

theorem oddIdx_val (j : Idx) : (oddIdx j).val = j.val / 2 * 2 + 1 := by
  exact Nat.mod_eq_of_lt (by omega)

namespace TlbEntry

/-- The two words of an entry, each with its count. -/
def words (e : TlbEntry (Nat × Nat)) : List (Word × Nat) := [(e.lo0, e.note.1), (e.lo1, e.note.2)]

end TlbEntry

namespace MmuPc

variable {n : Nat}

/-- The entry that a refill is about to install. -/
def inHand : MmuPc n → Option (TlbEntry (Nat × Nat))
  | .install sp va lo0 lo1 born => some ⟨tag sp.asid va, lo0, lo1, born⟩
  | _ => none

/-- The tag whose flush on the other CPU is outstanding. -/
def awaits : MmuPc n → Option Word
  | .await _ a va false _ => some (tag a va)
  | _ => none

end MmuPc

namespace Mmu

variable {n : Nat} {s s' : Mmu n} {c : CpuId} {l : MmuLabel n} {o : Option Asid} {d p q : Page n}
variable {va hi : Word} {e : TlbEntry (Nat × Nat)}

/-- The CPU has the entry in its TLB or is about to install it. -/
def Has (s : Mmu n) (c : CpuId) (e : TlbEntry (Nat × Nat)) : Prop :=
  e ∈ (s.cpu c).tlb ∨ (s.cpu c).pc.inHand = some e

/-- The entry that the lookup of a refill leads to. -/
def entryOf (s : Mmu n) (sp : Space n) (va : Word) (pte : EntryPtr n) : TlbEntry (Nat × Nat) where
  hi := tag sp.asid va
  lo0 := entryLo (s.pm.read (pte.1, evenIdx pte.2))
  lo1 := entryLo (s.pm.read (pte.1, oddIdx pte.2))
  note := (s.bornOf (entryLo (s.pm.read (pte.1, evenIdx pte.2))),
    s.bornOf (entryLo (s.pm.read (pte.1, oddIdx pte.2))))

def Reads (s : Mmu n) (c : CpuId) (e : TlbEntry (Nat × Nat)) : Prop :=
  ∃ sp va pp pte, (s.cpu c).pc = .refill sp va ∧
    s.pm.pageLookup sp.pgdir va = some (some (pp, pte)) ∧ e = s.entryOf sp va pte

/-- A flush of the tag will reach the TLB of CPU `c`. -/
def Pending (s : Mmu n) (c : CpuId) (hi : Word) : Prop :=
  (s.cpu c).pc.flushes = some hi ∨ (s.cpu (other c)).pc.flushes = some hi ∨
    (s.cpu (other c)).pc.awaits = some hi

/-- What a step does to the CPU that takes it. -/
inductive CpuStep (s : Mmu n) (l : MmuLabel n) (c : CpuId) (x : MmuCpu n) : Prop
  | move (htlb : ∀ e ∈ x.tlb, e ∈ (s.cpu c).tlb)
      (hhand : x.pc.inHand = none ∨ x.pc.inHand = (s.cpu c).pc.inHand)
      (hflush : (s.cpu c).pc.flushes = none ∨ x.pc.flushes = (s.cpu c).pc.flushes)
      (hawait : (s.cpu c).pc.awaits = none ∨ x.pc.awaits = (s.cpu c).pc.awaits)
  | read (e : TlbEntry (Nat × Nat)) (hl : l = .step c) (htlb : x.tlb = (s.cpu c).tlb)
      (hread : s.Reads c e) (hhand : x.pc.inHand = some e)
  | install (e : TlbEntry (Nat × Nat)) (hhand : (s.cpu c).pc.inHand = some e)
      (htlb : x.tlb = e :: (s.cpu c).tlb) (hpc : x.pc.inHand = none)
  | flush (hi : Word) (hflush : (s.cpu c).pc.flushes = some hi)
      (htlb : x.tlb = tlbOut hi (s.cpu c).tlb) (hhand : x.pc.inHand = none)
      (hawait : x.pc.awaits = some hi)

/-- A CPU in a wait or in user mode flushes for the other one. -/
structure Served (s s' : Mmu n) (c : CpuId) (hi : Word) : Prop where
  hand : (s.cpu c).pc.inHand = none
  pc : (s'.cpu c).pc = (s.cpu c).pc
  tlb : (s'.cpu c).tlb = tlbOut hi (s.cpu c).tlb
  awaits : (s.cpu (other c)).pc.awaits = some hi
  flushes : (s.cpu (other c)).pc.flushes = none
  otherTlb : (s'.cpu (other c)).tlb = (s.cpu (other c)).tlb
  otherHand : (s'.cpu (other c)).pc.inHand = none

variable {pc : MmuPc n}

theorem cpuStep_goto {t : Mmu n} (hcpu : t.cpu = s.cpu) (hhand : pc.inHand = none)
    (hflush : (s.cpu c).pc.flushes = none ∨ pc.flushes = (s.cpu c).pc.flushes)
    (hawait : (s.cpu c).pc.awaits = none) :
    (t.goto c pc).cpu (other c) = s.cpu (other c) ∧ CpuStep s l c ((t.goto c pc).cpu c) := by
  refine ⟨(pc_goto_other ..).trans (congrFun hcpu _), .move (fun e he => ?_) (.inl ?_) ?_
    (.inl hawait)⟩
  · unfold goto at he
    rw [cpu_upd_self, hcpu] at he
    exact he
  · rw [pc_goto]
    exact hhand
  · rw [pc_goto]
    exact hflush

theorem inHand_of_resumes {q : Option (Page n)} {next : MmuPc n} (h : next.resumes q) :
    next.inHand = none := by
  cases next with
  | rest | refill | scan | strip => rfl
  | _ => exact h.elim

variable {sp : Space n}

theorem cpuStep_remove {next : MmuPc n} (hremove : s.removeStep c sp va next = some s')
    (hhand : next.inHand = none) (hflush : (s.cpu c).pc.flushes = none)
    (hawait : (s.cpu c).pc.awaits = none) :
    s'.cpu (other c) = s.cpu (other c) ∧ CpuStep s l c (s'.cpu c) := by
  unfold removeStep at hremove
  split at hremove
  · cases hremove
  · cases hremove
    exact cpuStep_goto rfl hhand (.inl hflush) hawait
  · obtain ⟨_, _, rfl⟩ := Option.map_eq_some_iff.mp hremove
    exact cpuStep_goto rfl rfl (.inl hflush) hawait

/-- Every step moves one CPU, or is an answer to the other one. -/
theorem MmuCase.cpu (h : MmuCase s l s') (hres : ∀ c q a va next,
      (s.cpu c).pc = .await q a va true next → next.inHand = none) :
    (∃ c, s'.cpu (other c) = s.cpu (other c) ∧ CpuStep s l c (s'.cpu c)) ∨
      ∃ c hi, Served s s' c hi := by
  cases h with
  | same => exact .inl ⟨0, rfl, .move (fun _ he => he) (.inr rfl) (.inr rfl) (.inr rfl)⟩
  | @touch c d va a hpc ha hva =>
    refine .inl ⟨c, ?_, .move (fun e he => ?_) (.inl ?_) (.inl ?_) (.inl ?_)⟩
    · rw [pc_goto_other, cpu_flushLocal_other]
    · unfold goto flushLocal at he
      rw [cpu_upd_self, cpu_upd_self] at he
      exact (mem_tlbOut.mp he).1
    · rw [pc_goto]
      rfl
    · rw [hpc]
      rfl
    · rw [hpc]
      rfl
  | memAlloc hpc | share hpc | envFree hpc | setupVm hpc | passiveAlloc hpc | insertFails hpc
  | insert hpc | noAsid hpc | asidAlloc hpc | scanEnd hpc | scanTable hpc | stripTable hpc
  | dropDir hpc =>
    exact .inl ⟨_, cpuStep_goto rfl rfl (.inl (by rw [hpc]; rfl)) (by rw [hpc]; rfl)⟩
  | unmap hpc ha hva hremove | stripPage hpc hsome hremove =>
    exact .inl ⟨_, cpuStep_remove hremove rfl (by rw [hpc]; rfl) (by rw [hpc]; rfl)⟩
  | @serve c q a va next hpoll hpc =>
    refine .inr ⟨c, tag a va, ?_, ?_, ?_, ?_, ?_, ?_, ?_⟩
    · cases hpc' : (s.cpu c).pc with
      | install =>
        rw [hpc'] at hpoll
        cases hpoll
      | _ => rfl
    · unfold goto flushLocal
      rw [cpu_updOther_self, cpu_upd_self]
    · unfold goto flushLocal
      rw [cpu_updOther_self, cpu_upd_self]
      rfl
    · rw [hpc]
      rfl
    · rw [hpc]
      rfl
    · unfold goto flushLocal
      rw [cpu_upd_self, cpu_upd_other]
    · rw [pc_goto]
      rfl
  | @evict c i =>
    refine .inl ⟨c, cpu_upd_other .., .move (fun e he => ?_) (.inr ?_) (.inr ?_) (.inr ?_)⟩
    · rw [cpu_upd_self] at he
      exact List.mem_of_mem_eraseIdx he
    all_goals rw [cpu_upd_self]
  | @read c sp va pp pte hpc hlook =>
    refine .inl ⟨c, pc_goto_other ..,
      .read (s.entryOf sp va pte) rfl ?_ ⟨sp, va, pp, pte, hpc, hlook, rfl⟩
      ?_⟩
    · unfold goto
      rw [cpu_upd_self]
    · rw [pc_goto]
      rfl
  | fill hpc =>
    refine .inl ⟨_, cpuStep_goto ?_ rfl (.inl (by rw [hpc]; rfl)) (by rw [hpc]; rfl)⟩
    split <;> rfl
  | @install c sp va lo0 lo1 born hpc =>
    refine .inl ⟨c, ?_, .install ⟨tag sp.asid va, lo0, lo1, born⟩ ?_ ?_ ?_⟩
    · rw [pc_goto_other, cpu_upd_other]
    · rw [hpc]
      rfl
    · unfold goto
      rw [cpu_upd_self, cpu_upd_self]
      rfl
    · rw [pc_goto]
      rfl
  | @flush c q a va next hpc =>
    refine .inl ⟨c, ?_, .flush (tag a va) ?_ ?_ ?_ ?_⟩
    · rw [pc_goto_other, cpu_flushLocal_other]
    · rw [hpc]
      rfl
    · unfold goto flushLocal
      rw [cpu_upd_self, cpu_upd_self]
      rfl
    · rw [pc_goto]
      rfl
    · rw [pc_goto]
      rfl
  | resume hpc =>
    exact .inl ⟨_, cpuStep_goto rfl (hres _ _ _ _ _ hpc) (.inl (by rw [hpc]; rfl))
      (by rw [hpc]; rfl)⟩
  | dropAsid hpc =>
    exact .inl ⟨_, cpuStep_goto rfl rfl (.inr (by rw [hpc]; rfl)) (by rw [hpc]; rfl)⟩

theorem Reads.position (h : s.Reads c e) :
    (s.cpu c).pc.flushes = none ∧ (s.cpu c).pc.awaits = none := by
  obtain ⟨_, _, _, _, hpc, _, _⟩ := h
  rw [hpc]
  exact ⟨rfl, rfl⟩

theorem position_of_inHand (h : pc.inHand = some e) : pc.flushes = none ∧ pc.awaits = none := by
  cases pc with
  | install => exact ⟨rfl, rfl⟩
  | _ => cases h

theorem awaits_of_flushes (h : pc.flushes = some hi) : pc.awaits = none := by
  cases pc with
  | flush | dropAsid => rfl
  | _ => cases h

theorem allocs_setPm (m : Pmap n) (hfree : ¬ s.pm.Free p) : (s.setPm m).allocs p = s.allocs p :=
  if_neg (fun h => hfree h.1)

/-- Only a free page is handed out. -/
theorem allocs_step (hstep : s.exec l = some s') (hfree : ¬ s.pm.Free p) :
    s'.allocs p = s.allocs p := by
  cases exec_cases hstep with
  | unmap hpc ha hva hremove | stripPage hpc hsome hremove =>
    unfold removeStep at hremove
    split at hremove
    · cases hremove
    · cases hremove
      rfl
    · obtain ⟨m, _, rfl⟩ := Option.map_eq_some_iff.mp hremove
      exact allocs_setPm m hfree
  | memAlloc | setupVm | passiveAlloc | insertFails | insert | stripTable | dropDir =>
    exact allocs_setPm _ hfree
  | fill =>
    split <;> exact allocs_setPm _ hfree
  | _ => rfl

section

variable (h : s.Inv) (hstep : s.exec l = some s')
include h hstep

theorem Inv.cpu_step :
    (∃ c, s'.cpu (other c) = s.cpu (other c) ∧ CpuStep s l c (s'.cpu c)) ∨
      ∃ c hi, Served s s' c hi := by
  refine (exec_cases hstep).cpu (fun c q a va next hpc => ?_)
  exact inHand_of_resumes (h.hand_of hpc).2.1

/-- Entries come from refills only. -/
theorem Inv.has_step (hhas : s'.Has c e) : s.Has c e ∨ s.Reads c e ∧ l = .step c := by
  rcases h.cpu_step hstep with ⟨b, hother, hcpu⟩ | ⟨b, hi, hserved⟩
  · rcases eq_or_eq_other b c with rfl | rfl
    · cases hcpu with
      | move htlb hhand =>
        rcases hhas with he | he
        · exact .inl (.inl (htlb e he))
        · rcases hhand with hnone | hsame
          · cases hnone.symm.trans he
          · exact .inl (.inr (hsame.symm.trans he))
      | read e' hl htlb hread hhand =>
        rcases hhas with he | he
        · rw [htlb] at he
          exact .inl (.inl he)
        · cases hhand.symm.trans he
          exact .inr ⟨hread, hl⟩
      | install e' hhand htlb hpc =>
        rcases hhas with he | he
        · rw [htlb] at he
          rcases List.mem_cons.mp he with rfl | he
          · exact .inl (.inr hhand)
          · exact .inl (.inl he)
        · cases hpc.symm.trans he
      | flush hi _ htlb hhand =>
        rcases hhas with he | he
        · rw [htlb] at he
          exact .inl (.inl (mem_tlbOut.mp he).1)
        · cases hhand.symm.trans he
    · unfold Has at hhas
      rw [hother] at hhas
      exact .inl hhas
  · rcases eq_or_eq_other b c with rfl | rfl
    · rcases hhas with he | he
      · rw [hserved.tlb] at he
        exact .inl (.inl (mem_tlbOut.mp he).1)
      · rw [hserved.pc] at he
        exact .inl (.inr he)
    · rcases hhas with he | he
      · rw [hserved.otherTlb] at he
        exact .inl (.inl he)
      · cases hserved.otherHand.symm.trans he

/-- A flush stays pending until no entry with its tag is left. -/
theorem Inv.pending_step (hp : s.Pending c hi) : s'.Pending c hi ∨ ∀ e, s'.Has c e → e.hi ≠ hi := by
  rcases h.cpu_step hstep with ⟨b, hother, hcpu⟩ | ⟨b, hi', hserved⟩
  · rcases eq_or_eq_other b c with rfl | rfl
    · rcases hp with hown | hrest
      · cases hcpu with
        | move _ _ hflush =>
          rcases hflush with hnone | hsame
          · cases hnone.symm.trans hown
          · exact .inl (.inl (hsame.trans hown))
        | read e hl htlb hread => cases hread.position.1.symm.trans hown
        | install e hhand => cases (position_of_inHand hhand).1.symm.trans hown
        | flush hi' hflush htlb hhand _ =>
          cases hflush.symm.trans hown
          refine .inr (fun e he => ?_)
          rcases he with he | he
          · rw [htlb] at he
            exact (mem_tlbOut.mp he).2
          · cases hhand.symm.trans he
      · refine .inl (.inr ?_)
        rw [hother]
        exact hrest
    · unfold Pending at hp ⊢
      rw [other_other] at hp ⊢
      rw [hother]
      rcases hp with hown | hflush' | hawait'
      · exact .inl (.inl hown)
      · cases hcpu with
        | move _ _ hflush =>
          rcases hflush with hnone | hsame
          · cases hnone.symm.trans hflush'
          · exact .inl (.inr (.inl (hsame.trans hflush')))
        | read e hl htlb hread => cases hread.position.1.symm.trans hflush'
        | install e hhand => cases (position_of_inHand hhand).1.symm.trans hflush'
        | flush hi' hflush htlb hhand hawait =>
          cases hflush.symm.trans hflush'
          exact .inl (.inr (.inr hawait))
      · cases hcpu with
        | move _ _ _ hawait =>
          rcases hawait with hnone | hsame
          · cases hnone.symm.trans hawait'
          · exact .inl (.inr (.inr (hsame.trans hawait')))
        | read e hl htlb hread => cases hread.position.2.symm.trans hawait'
        | install e hhand => cases (position_of_inHand hhand).2.symm.trans hawait'
        | flush hi' hflush => cases (awaits_of_flushes hflush).symm.trans hawait'
  · rcases eq_or_eq_other b c with rfl | rfl
    · rcases hp with hown | hflush | hawait
      · exact .inl (.inl (by rw [hserved.pc]; exact hown))
      · cases hserved.flushes.symm.trans hflush
      · cases hserved.awaits.symm.trans hawait
        refine .inr (fun e he => ?_)
        rcases he with he | he
        · rw [hserved.tlb] at he
          exact (mem_tlbOut.mp he).2
        · rw [hserved.pc] at he
          cases hserved.hand.symm.trans he
    · unfold Pending at hp ⊢
      rw [other_other] at hp ⊢
      rw [hserved.pc]
      rcases hp with hown | hrest
      · cases hserved.flushes.symm.trans hown
      · exact .inl (.inr hrest)

/-- An owner that is not a directory never gives a page back. -/
theorem Inv.own_step (hp : 0 < s.own p ∧ s.dirs p = false) : 0 < s'.own p ∧ s'.dirs p = false := by
  cases exec_cases hstep with
  | unmap hpc ha hva hremove | stripPage hpc hsome hremove =>
    unfold removeStep at hremove
    split at hremove
    · cases hremove
    · cases hremove
      exact hp
    · obtain ⟨m, _, rfl⟩ := Option.map_eq_some_iff.mp hremove
      exact hp
  | @setupVm c q m hpc halloc =>
    have k := h.sound.newSpace (c := c) halloc (.built q)
    refine ⟨hp.1.trans_le (k.own p), ?_⟩
    rw [k.dirs, update_of_ne]
    · exact hp.2
    · rintro rfl
      exact h.sound.acc.not_free_of_own hp.1 k.free
  | @fill c sp va q m hpc hrun =>
    split
    · refine ⟨?_, hp.2⟩
      show 0 < update s.own q (s.own q + 1) p
      rw [update_apply]
      split
      · omega
      · exact hp.1
    · exact hp
  | @dropDir c sp m hpc hdec =>
    have k := h.droppedSpace hpc hdec
    have hne : p ≠ sp.pgdir := by
      rintro rfl
      cases hp.2.symm.trans (h.hand_of hpc).1.1
    rw [k.own p hne, k.dirs, update_of_ne hne]
    exact hp
  | _ => exact hp

end

/-- Something keeps the page for entries with tag `hi`. -/
def Kept (s : Mmu n) (hi : Word) (p : Page n) : Prop :=
  (∃ o va, s.Present o va p ∧ ∀ a, o = some a → tag a va = hi) ∨ 0 < s.own p ∧ s.dirs p = false

theorem Sound.not_free_of_present (h : s.Sound) (hp : s.Present o va p) : ¬ s.pm.Free p := by
  obtain ⟨d, hd, hat⟩ := hp
  rcases hat with hpage | ⟨_, htable | ⟨_, rfl⟩⟩
  · exact h.acc.not_free_of_slot (x := .inr (d, pdx va, ptx va)) hpage
  · exact h.acc.not_free_of_slot (x := .inl (d, ptx va)) htable
  · cases o with
    | none =>
      obtain rfl := hd
      exact h.acc.not_free_of_dir (h.user_base 0)
    | some a => exact h.not_free (h.live p a hd).1

theorem Sound.not_free_of_kept (h : s.Sound) (hp : s.Kept hi p) : ¬ s.pm.Free p := by
  rcases hp with ⟨_, _, hpresent, _⟩ | ⟨hown, _⟩
  · exact h.not_free_of_present hpresent
  · exact h.acc.not_free_of_own hown

theorem Inv.kept_step (hn : n ≤ 2 ^ 20) (h : s.Inv) (hok : s.Orderly l)
    (hstep : s.exec l = some s') (hp : s.Kept hi p) : s'.Kept hi p ∨ s.drops l = some hi := by
  rcases hp with ⟨o, va, hpresent, htag⟩ | hown
  · rcases h.present_step hn hok hstep hpresent with hkept | ⟨⟨a, ho, hdrops⟩, _⟩
    · exact .inl (.inl ⟨o, va, hkept, htag⟩)
    · rw [htag a ho] at hdrops
      exact .inr hdrops
  · exact .inl (.inr (h.own_step hstep hown))

variable {pte : EntryPtr n}

theorem lookup_of_table {m : Pmap n} {t pp : Page n} (ht : entryPage (m.mem d (pdx va)) = some t)
    (hlook : m.pageLookup d va = some (some (pp, pte))) :
    pte = (t, ptx va) ∧ entryPage (m.mem t (ptx va)) = some pp := by
  unfold Pmap.pageLookup at hlook
  rw [Pmap.pgdirWalk_of_table ht] at hlook
  simp only at hlook
  split at hlook
  · next hv =>
    obtain ⟨_, hq, heq⟩ := Option.map_eq_some_iff.mp hlook
    cases heq
    refine ⟨rfl, ?_⟩
    unfold entryPage
    rw [show pteValid (m.mem t (ptx va)) = true from hv, if_pos rfl]
    exact hq
  · cases hlook

/-- Where a refill finds its table: below `UTOP`, in `base_pgdir`, or in the
directory itself. -/
theorem Sound.table_of_lookup {pp : Page n} (hn : n ≤ 2 ^ 20) (h : s.Sound) (hlive : s.Live sp)
    (hva : va < ULIM) (hlook : s.pm.pageLookup sp.pgdir va = some (some (pp, pte))) :
    ∃ t, pte = (t, ptx va) ∧ entryPage (s.pm.mem t (ptx va)) = some pp ∧
      ((pdx va < pdx UTOP ∧ s.tableAt sp.pgdir (pdx va) = some t) ∨
        (pdx UTOP ≤ pdx va ∧ pdx va < pdx UVPT ∧ s.tableAt s.basePgdir (pdx va) = some t) ∨
        (pdx va = pdx UVPT ∧ t = sp.pgdir)) := by
  rcases lt_or_ge (pdx va) (pdx UTOP) with hbelow | hge
  · rcases h.acc.pageLookup (user_of_dirs hlive.1 hbelow) with ⟨hnone, _⟩ | ⟨_, t, _, ht, _⟩
    · cases hnone.symm.trans hlook
    · obtain ⟨hpte, hpp⟩ := lookup_of_table (Pmap.tableAt_some ht).2 hlook
      exact ⟨t, hpte, hpp, .inl ⟨hbelow, ht⟩⟩
  · rcases lt_or_ge (pdx va) (pdx UVPT) with hkern | huvpt
    · obtain ⟨t, ht, _⟩ := h.acc.tables.tableAt_of_valid (h.user_base _) (h.baseIn _ hge hkern)
      have hentry := (Pmap.tableAt_some ht).2
      rw [← h.kern sp.pgdir _ hlive.1 hge hkern] at hentry
      obtain ⟨hpte, hpp⟩ := lookup_of_table hentry hlook
      exact ⟨t, hpte, hpp, .inr (.inl ⟨hge, hkern, ht⟩)⟩
    · have hlt := pdx_lt_of_user hva
      have heq : pdx va = pdx UVPT := by
        apply Fin.ext
        have hle := Fin.le_def.mp huvpt
        rw [pdx_utop.2] at hle ⊢
        omega
      have hself := h.entryPage_self hn hlive.1
      rw [← heq] at hself
      obtain ⟨hpte, hpp⟩ := lookup_of_table hself hlook
      exact ⟨sp.pgdir, hpte, hpp, .inr (.inr ⟨heq, rfl⟩)⟩

theorem present_of_table {i j : Idx} {t : Page n} (hd : s.Owner d o)
    (ht : s.tableAt d i = some t) (hp : entryPage (s.pm.mem t j) = some p) :
    s.Present o (vaOf i j) p := by
  refine ⟨d, hd, .inl ?_⟩
  rw [pdx_vaOf, ptx_vaOf]
  exact (Pmap.pageAt_of_table ht).trans hp

/-- The words that a refill reads lead to pages that are kept. -/
theorem Sound.kept_of_read {pp : Page n} {j : Idx} (hn : n ≤ 2 ^ 20) (h : s.Sound)
    (hlive : s.Live sp) (hva : va < ULIM)
    (hlook : s.pm.pageLookup sp.pgdir va = some (some (pp, pte))) (hj : j.val / 2 = pte.2.val / 2)
    (hp : loPage (entryLo (s.pm.read (pte.1, j))) = some p) : s.Kept (tag sp.asid va) p := by
  obtain ⟨t, rfl, _, hwhere⟩ := h.table_of_lookup hn hlive hva hlook
  rw [loPage_entryLo] at hp
  have howner : s.Owner sp.pgdir (some sp.asid) := hlive.2
  rcases hwhere with ⟨_, ht⟩ | ⟨_, _, ht⟩ | ⟨huvpt, rfl⟩
  · refine .inl ⟨some sp.asid, vaOf (pdx va) j, present_of_table howner ht hp, fun a ha => ?_⟩
    rw [← Option.some.inj ha]
    refine tag_pair _ (pdx_vaOf _ _) ?_
    rw [ptx_vaOf]
    exact hj
  · refine .inl ⟨none, vaOf (pdx va) j, present_of_table rfl ht hp, fun a ha => ?_⟩
    cases ha
  · have htag : ∀ a, some sp.asid = some a → tag a (uvptVa j) = tag sp.asid va := by
      intro a ha
      rw [← Option.some.inj ha]
      refine tag_pair _ ((pdx_uvptVa _).trans huvpt.symm) ?_
      rw [ptx_uvptVa]
      exact hj
    have hpresent : s.tableAt sp.pgdir j = some p ∨ j = pdx UVPT ∧ p = sp.pgdir →
        s.Kept (tag sp.asid va) p := by
      intro hor
      refine .inl ⟨some sp.asid, uvptVa j, ⟨sp.pgdir, howner, .inr ⟨pdx_uvptVa _, ?_⟩⟩, htag⟩
      rw [ptx_uvptVa]
      exact hor
    rcases lt_or_ge j (pdx UTOP) with hbelow | hge
    · apply hpresent
      left
      unfold tableAt Pmap.tableAt
      rw [user_of_dirs hlive.1 hbelow, if_pos rfl]
      exact hp
    · rcases lt_trichotomy j (pdx UVPT) with hkern | heq | habove
      · refine .inl ⟨none, uvptVa j, ⟨s.basePgdir, rfl, .inr ⟨pdx_uvptVa _, .inl ?_⟩⟩, ?_⟩
        · rw [ptx_uvptVa]
          unfold tableAt Pmap.tableAt
          rw [h.user_base, if_pos rfl, ← h.kern sp.pgdir j hlive.1 hge hkern]
          exact hp
        · intro a ha
          cases ha
      · apply hpresent
        rw [heq] at hp ⊢
        exact .inr ⟨rfl, Option.some.inj (hp.symm.trans (h.entryPage_self hn hlive.1))⟩
      · obtain ⟨hv, hpa⟩ := entryPage_some hp
        obtain ⟨_, hq, hown, hplain⟩ := h.extra sp.pgdir j hlive.1 habove hv
        cases hq.symm.trans hpa
        exact .inr ⟨hown, hplain⟩

end Mmu

end MosSmp
