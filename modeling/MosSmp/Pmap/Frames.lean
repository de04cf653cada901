import MosSmp.Lib.Transition
import MosSmp.Pmap.Account

/-!
Runs of the page layer. A state is the page layer together with two records
that are not kernel state: which pages are page directories, and how many
references the owner of each page has taken itself. An operation is one call
of a function of `kern/pmap.c`, or one of the few things their callers do with
pages: increment `pp_ref`, make a directory as `env_setup_vm` does, take an
empty table out of a directory as `env_free` does, and write to memory that is
neither a directory nor a table.

`Allowed` is what the callers are held to. A page that is inserted or freed is
not on the free list, `page_decref` gives back a reference that the owner has
taken, and no counter passes 65535. An operation has no result when it
panics, which a failed assertion is. `Exact` states that in every state the
free list and the counters are exact and that no allowed operation panics.
-/

namespace MosSmp

open Lib Function

structure Frames (n : Nat) where
  pm : Pmap n
  /-- The pages in use as page directories. -/
  dirs : Page n → Bool
  /-- The references that the owner of the page has taken. -/
  own : Page n → Nat

inductive PageOp (n : Nat)
  | alloc
  | free (pp : Page n)
  | insert (pgdir pp : Page n) (va perm : Word)
  | remove (pgdir : Page n) (va : Word)
  | decref (pp : Page n)
  | incref (pp : Page n)
  | newDir
  | dropDir (pgdir : Page n)
  | releaseTable (pgdir : Page n) (i : Idx)
  | store (pp : Page n) (j : Idx) (w : Word)

namespace Frames

variable {n : Nat}

/-- After `page_init`: the boot code owns the pages below `freemem`. -/
def start (n size : Nat) (mem : Page n → Idx → Word) : Frames n where
  pm := Pmap.pageInit n size mem
  dirs := fun _ => false
  own := fun pp => if pp.val < size then 1 else 0

def user (s : Frames n) (d : Page n) (_ : Idx) : Bool := s.dirs d

def tableAt (s : Frames n) (d : Page n) (i : Idx) : Option (Page n) :=
  s.pm.tableAt s.user d i

def pageAt (s : Frames n) (d : Page n) (i j : Idx) : Option (Page n) :=
  s.pm.pageAt s.user d i j

/-- What an operation does; it has no result when the kernel panics. -/
def exec (s : Frames n) : PageOp n → Option (Frames n)
  | .alloc =>
    match s.pm.pageAlloc with
    | .error _ => some s
    | .ok (_, m) => some { s with pm := m }
  | .free pp => (s.pm.pageFree pp).map (fun m => { s with pm := m })
  | .insert pgdir pp va perm =>
    (s.pm.pageInsert pgdir pp va perm).map (fun r => { s with pm := r.2 })
  | .remove pgdir va => (s.pm.pageRemove pgdir va).map (fun m => { s with pm := m })
  | .decref pp => (s.pm.pageDecref pp).map (fun m =>
    { s with pm := m, own := update s.own pp (s.own pp - 1) })
  | .incref pp => some { s with
      pm := s.pm.incref pp
      own := update s.own pp (s.own pp + 1) }
  | .newDir =>
    match s.pm.pageAlloc with
    | .error _ => some s
    | .ok (pp, m) => some {
        pm := m.incref pp
        dirs := update s.dirs pp true
        own := update s.own pp (s.own pp + 1) }
  | .dropDir pgdir => some { s with dirs := update s.dirs pgdir false }
  | .releaseTable pgdir i =>
    match (pa2page (pteAddr (s.pm.mem pgdir i)) : Option (Page n)) with
    | none => none
    | some t => ((s.pm.write (pgdir, i) 0).pageDecref t).map (fun m => { s with pm := m })
  | .store pp j w => some { s with pm := s.pm.write (pp, j) w }

/-- The obligations of the callers. -/
def Allowed (s : Frames n) : PageOp n → Prop
  | .alloc | .newDir => True
  | .free pp => ¬ s.pm.Free pp ∧ s.pm.ppRef pp = 0
  | .insert pgdir pp va perm =>
    s.dirs pgdir = true ∧ ¬ s.pm.Free pp ∧ perm < 0x1000#32 ∧
      ((s.pm.ppRef pp).toNat < 65535 ∨ s.pageAt pgdir (pdx va) (ptx va) = some pp)
  | .remove pgdir _ => s.dirs pgdir = true
  | .decref pp => (if s.dirs pp then 1 else 0) < s.own pp
  | .incref pp => ¬ s.pm.Free pp ∧ (s.pm.ppRef pp).toNat < 65535
  | .dropDir pgdir => ∀ i, s.tableAt pgdir i = none
  | .releaseTable pgdir i => ∃ t, s.tableAt pgdir i = some t ∧ s.pm.Blank t
  | .store pp _ _ => s.dirs pp = false ∧ ∀ d i, s.tableAt d i ≠ some pp

instance (m : Pmap n) (t : Page n) : Decidable (m.Blank t) :=
  inferInstanceAs (Decidable (∀ _, _))

instance (s : Frames n) : (op : PageOp n) → Decidable (s.Allowed op)
  | .alloc | .newDir => inferInstanceAs (Decidable True)
  | .free _ | .incref _ => inferInstanceAs (Decidable (_ ∧ _))
  | .insert _ _ _ _ => inferInstanceAs (Decidable (_ ∧ _ ∧ _ ∧ (_ ∨ _)))
  | .remove _ _ => inferInstanceAs (Decidable (_ = _))
  | .decref _ => inferInstanceAs (Decidable (_ < _))
  | .dropDir _ => inferInstanceAs (Decidable (∀ _, _))
  | .releaseTable _ _ => inferInstanceAs (Decidable (∃ _, _))
  | .store _ _ _ => inferInstanceAs (Decidable (_ ∧ ∀ _ _, _))

/-- The number of valid table entries that map `p`. -/
def pteRefs (s : Frames n) (p : Page n) : Nat :=
  Ledger.refs (fun x : Page n × Idx × Idx => s.pageAt x.1 x.2.1 x.2.2) p

/-- The number of valid directory entries that use `p` as a table. -/
def pdeRefs (s : Frames n) (p : Page n) : Nat :=
  Ledger.refs (fun x : Page n × Idx => s.tableAt x.1 x.2) p

structure Exact (s : Frames n) : Prop where
  /-- The free list is duplicate free, and its pages are not referenced. -/
  freeList : ∃ xs, s.pm.pageFreeList.Rep xs ∧ xs.Nodup ∧
    ∀ p ∈ xs, s.pm.ppRef p = 0 ∧ (∀ d i, s.tableAt d i ≠ some p) ∧
      ∀ d i j, s.pageAt d i j ≠ some p
  counts : ∀ p, (s.pm.ppRef p).toNat = s.pteRefs p + s.pdeRefs p + s.own p
  noPanic : ∀ op, s.Allowed op → (s.exec op).isSome = true

variable {s s' : Frames n} {op : PageOp n}

def Inv (s : Frames n) : Prop :=
  s.pm.Accounted s.user s.own

theorem user_update (dirs : Page n → Bool) (d : Page n) (b : Bool) :
    (fun (d' : Page n) (_ : Idx) => update dirs d b d') =
      update (fun d' _ => dirs d') d (fun _ => b) := by
  funext d' i
  rw [update_apply, update_apply]
  split <;> rfl

theorem Inv.newDir_step (hinv : s.Inv) : ∃ s', s.exec .newDir = some s' ∧ s'.Inv := by
  simp only [exec]
  split
  · exact ⟨s, rfl, hinv⟩
  · next pp m ha =>
    refine ⟨_, rfl, ?_⟩
    obtain ⟨_, _, _, _, hzero, _⟩ := hinv.pageAlloc ha
    unfold Inv user
    rw [user_update]
    refine (hinv.newDir ha rfl rfl (fun _ _ => rfl) (fun i _ => ?_)).1
    show pteValid (m.mem pp i) = false
    rw [hzero]
    exact pteValid_zero

theorem Inv.releaseTable_step (hinv : s.Inv) {pgdir : Page n} {i : Idx}
    (hok : s.Allowed (.releaseTable pgdir i)) :
    ∃ s', s.exec (.releaseTable pgdir i) = some s' ∧ s'.Inv := by
  obtain ⟨t, ht, hblank⟩ := hok
  obtain ⟨_, hentry⟩ := Pmap.tableAt_some ht
  obtain ⟨m', hdec, h', _⟩ := hinv.releaseTable ht hblank
  have hpage : (pa2page (pteAddr (s.pm.mem pgdir i)) : Option (Page n)) = some t := by
    rw [pa2page_pteAddr]
    exact (entryPage_some hentry).2
  refine ⟨{ s with pm := m' }, ?_, h'⟩
  simp only [exec, hpage, hdec, Option.map_some]

theorem Inv.start {size : Nat} {mem : Page n → Idx → Word} : (Frames.start n size mem).Inv := by
  have hnodup : ((List.finRange n).filter (fun pp => size ≤ pp.val)).Nodup :=
    (List.nodup_finRange n).filter _
  have hrep := Links.rep_foldl_insertHead hnodup
  have hiff : ∀ p, (Pmap.pageInit n size mem).Free p ↔ size ≤ p.val := by
    intro p
    refine hrep.listed_iff.trans ?_
    simp
  have hnone : ∀ x, (Pmap.pageInit n size mem).slots (fun _ _ => false) x = none := by
    intro x
    rcases x with ⟨d, i⟩ | ⟨d, i, j⟩ <;> rfl
  refine ⟨⟨?_, ?_, ?_, ?_⟩, ⟨_, hrep, fun p => hrep.listed_iff.symm⟩, ?_, ?_, ?_⟩
  · intro d i hu
    cases hu
  · intro d i t j ht
    cases ht
  · intro d i d' i' t ht
    cases ht
  · intro d i t ht
    cases ht
  · intro p hp
    have hle := (hiff p).mp hp
    show (if p.val < size then (1 : BitVec 16) else 0) = 0
    rw [if_neg (by omega)]
  · intro p
    show (if p.val < size then (1 : BitVec 16) else 0).toNat = (if p.val < size then 1 else 0) + _
    have hslots : (Pmap.pageInit n size mem).slots (fun _ _ => false) = fun _ => none :=
      funext hnone
    rw [show (Frames.start n size mem).user = fun _ _ => false from rfl]
    show _ = _ + Ledger.refs ((Pmap.pageInit n size mem).slots (fun _ _ => false)) p
    rw [hslots, Ledger.refs_none]
    split <;> rfl
  · intro d i hu
    cases hu

section

variable (hn : n ≤ 2 ^ 20) (hinv : s.Inv)
include hn hinv

theorem Inv.insert_step {pgdir pp : Page n} {va perm : Word}
    (hok : s.Allowed (.insert pgdir pp va perm)) :
    ∃ s', s.exec (.insert pgdir pp va perm) = some s' ∧ s'.Inv := by
  obtain ⟨hdir, hfree, hperm, href⟩ := hok
  have hfits := pteAddr_mapEntry_of_lt pp hperm
  have hu : s.user pgdir (pdx va) = true := hdir
  obtain ⟨_, m', hrun, h', _⟩ := hinv.pageInsert hn hu hfits hfree href
  refine ⟨{ s with pm := m' }, ?_, h'⟩
  simp only [exec, hrun, Option.map_some]

/-- Every allowed operation has a result and keeps the accounting. -/
theorem Inv.step (hok : s.Allowed op) : ∃ s', s.exec op = some s' ∧ s'.Inv := by
  cases op with
  | alloc =>
    simp only [exec]
    split
    · exact ⟨s, rfl, hinv⟩
    · next pp m ha => exact ⟨_, rfl, (hinv.pageAlloc ha).1⟩
  | free =>
    obtain ⟨m', hrun, h'⟩ := hinv.pageFree hok.1 hok.2
    exact ⟨{ s with pm := m' }, by simp only [exec, hrun, Option.map_some], h'⟩
  | insert => exact hinv.insert_step hn hok
  | remove pgdir va =>
    have hu : s.user pgdir (pdx va) = true := hok
    obtain ⟨m', hrun, h', _⟩ := hinv.pageRemove hu
    exact ⟨{ s with pm := m' }, by simp only [exec, hrun, Option.map_some], h'⟩
  | decref pp =>
    have hown : (if s.dirs pp then 1 else 0) < s.own pp := hok
    obtain ⟨m', hrun, h'⟩ := hinv.release (p := pp) (by split at hown <;> omega) (by
      intro i hu
      have hdir : s.dirs pp = true := hu
      rw [if_pos hdir] at hown
      exact hown)
    refine ⟨{ s with pm := m', own := update s.own pp (s.own pp - 1) }, ?_, h'⟩
    simp only [exec, hrun, Option.map_some]
  | incref => exact ⟨_, rfl, hinv.acquire hok.1 hok.2⟩
  | newDir => exact hinv.newDir_step
  | dropDir =>
    refine ⟨_, rfl, ?_⟩
    unfold Inv user
    rw [user_update]
    exact hinv.dropDir hok
  | releaseTable => exact hinv.releaseTable_step hok
  | store =>
    refine ⟨_, rfl, ?_⟩
    exact hinv.data (fun _ => hok.1) hok.2 rfl rfl (fun q hq => update_of_ne hq _ _)

theorem Inv.exact : s.Exact where
  freeList := by
    obtain ⟨xs, hrep, hmem⟩ := hinv.list
    refine ⟨xs, hrep, hrep.1, fun p hp => ?_⟩
    have hfree := (hmem p).mp hp
    obtain ⟨_, hunused⟩ := hinv.unused_of_free hfree
    exact ⟨hinv.idle p hfree, fun d i => hunused (.inl (d, i)),
      fun d i j => hunused (.inr (d, i, j))⟩
  counts := by
    intro p
    have hcount : (s.pm.ppRef p).toNat = s.own p + Ledger.refs (s.pm.slots s.user) p := hinv.count p
    have hsplit : Ledger.refs (s.pm.slots s.user) p = s.pdeRefs p + s.pteRefs p :=
      Ledger.refs_sum _ p
    omega
  noPanic := by
    intro op hok
    obtain ⟨_, hexec, _⟩ := hinv.step hn hok
    rw [hexec]
    rfl

end

end Frames

/-- The page layer of a machine with `memsize` bytes of memory, from any
contents of that memory at boot. -/
def frames (memsize : Word) : Machine (Frames (npage memsize)) (PageOp (npage memsize)) where
  init s := ∃ size mem, s = Frames.start _ size mem
  step := Frames.exec

theorem Frames.inv_of_allowed {memsize : Word} {s : Frames (npage memsize)}
    (hrun : (frames memsize).ReachableUnder Frames.Allowed s) : s.Inv := by
  apply hrun.invariant
  · rintro s ⟨_, _, rfl⟩
    exact Frames.Inv.start
  · intro s op s' _ hinv hok hstep
    obtain ⟨_, hexec, hinv'⟩ := hinv.step (npage_le memsize) hok
    cases hexec.symm.trans hstep
    exact hinv'

/-- In every state that allowed operations lead to, the free list and all
reference counts are exact, and no allowed operation panics. -/
theorem framesExact_of_allowed {memsize : Word} {s : Frames (npage memsize)}
    (hrun : (frames memsize).ReachableUnder Frames.Allowed s) : s.Exact :=
  (Frames.inv_of_allowed hrun).exact (npage_le memsize)

/-- A directory is made, a page is mapped twice, and another page replaces
one of the mappings. -/
def mapAndReplace : List (PageOp (npage 0x8000)) :=
  [.newDir, .alloc, .insert ⟨7, by decide⟩ ⟨6, by decide⟩ 0x400000 0x100,
   .insert ⟨7, by decide⟩ ⟨6, by decide⟩ 0x401000 0x100, .alloc,
   .insert ⟨7, by decide⟩ ⟨4, by decide⟩ 0x400000 0]

theorem framesExact_mapAndReplace :
    ∃ s : Frames (npage 0x8000), (frames 0x8000).ReachableUnder Frames.Allowed s ∧
      (s.pm.ppRef ⟨6, by decide⟩ = 1 ∧ s.pageAt ⟨7, by decide⟩ 1 0 = some ⟨4, by decide⟩) ∧
      s.Exact := by
  have hstart : (frames 0x8000).ReachableUnder Frames.Allowed
      (Frames.start _ 2 (fun _ _ => 0)) := .init ⟨2, fun _ _ => 0, rfl⟩
  obtain ⟨s, hs, hmapped⟩ := Machine.exists_reachableUnder_of_exec
    (P := fun s : Frames (npage 0x8000) => s.pm.ppRef ⟨6, by decide⟩ = 1 ∧
      s.pageAt ⟨7, by decide⟩ 1 0 = some ⟨4, by decide⟩)
    mapAndReplace hstart (by decide +kernel)
  exact ⟨s, hs, hmapped, framesExact_of_allowed hs⟩

end MosSmp
