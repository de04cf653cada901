import MosSmp.Ipi.Machine
import MosSmp.Tlb.Entry

/-!
TLB shootdown. A refill finds the table entry of the address, allocating a page
where there is none, reads the pair of words without a lock and writes them to
the TLB of its CPU. `page_insert` and `page_remove` store table entries under
`pmap_lock` and call `tlb_invalidate` after that, which flushes the local TLB,
asks the other CPU to flush its own, and waits. A CPU answers in user mode and
in its own wait, nowhere else.

The section of `page_insert` is two steps, because a refill on the other CPU
may read the entry after the old mapping was cleared and before the new one is
stored. Every other read or write that the two CPUs share is a step too, and
`other` stands for whatever else happens to the page layer at any time. The
lock of a mailbox is left out: it is taken by one CPU only, in one call at a
time.

Three things are not state of the machine. `stores` counts the calls that have
stored their table entry, an entry of a TLB carries the value of this counter
from the moment its first word was read, and `returned` lists the calls that
have returned, each with the number of its store. `Complete` says that an entry
for the address of a call that has returned was read after the store of that
call.
-/

namespace MosSmp

open Lib Function Nat

namespace Pmap

variable {n : Nat}

/-- The first part of the section of `page_insert`. An old mapping of another
page is cleared; if the page itself is mapped, its entry is stored again, and
that is all. -/
def clearOld (m : Pmap n) (pgdir pp : Page n) (va perm : Word) : Option (Pmap n × Bool) :=
  match m.pgdirWalk pgdir va false with
  | some (.ok (some pte), m) =>
    if pteValid (m.read pte) then
      match pa2page (m.read pte) with
      | none => none
      | some old =>
        if old ≠ pp then (m.pageDecref old).map (fun m => (m.write pte 0, false))
        else some (m.write pte (mapEntry pp perm), true)
    else some (m, false)
  | some (.ok none, m) => some (m, false)
  | _ => none

/-- The two parts make up `page_insert`. -/
theorem pageInsert_eq (m : Pmap n) (pgdir pp : Page n) (va perm : Word) :
    m.pageInsert pgdir pp va perm = (m.clearOld pgdir pp va perm).bind (fun r =>
      if r.2 then some (.ok (), r.1) else r.1.mapPage pgdir pp va perm) := by
  unfold pageInsert clearOld
  rcases m.pgdirWalk pgdir va false with _ | ⟨_ | _ | pte, m₁⟩
  · rfl
  · rfl
  · rfl
  · dsimp only
    split
    · cases pa2page (m₁.read pte) with
      | none => rfl
      | some =>
          dsimp only
          split
          · rw [Option.bind_map]
            rfl
          · rfl
    · rfl

end Pmap

/-- What a refill returns to. -/
inductive Home
  | user
  | kernel

structure Refill (n : Nat) where
  pgdir : Page n
  va : Word
  asid : Word
  home : Home

namespace Refill

variable {n : Nat}

def hi (r : Refill n) : Word := entryHi r.asid r.va

end Refill

inductive RefillStage (n : Nat)
  | flush
  | lookup
  | passiveAlloc
  | word0 (pte : EntryPtr n)
  | word1 (pte : EntryPtr n) (lo0 : Word) (stamp : Nat)
  | install (lo0 lo1 : Word) (stamp : Nat)

inductive MapCall (n : Nat)
  | pageInsert (pgdir : Page n) (asid : Word) (pp : Page n) (va perm : Word)
  | pageRemove (pgdir : Page n) (asid va : Word)

namespace MapCall

variable {n : Nat}

def asid : MapCall n → Word
  | .pageInsert _ asid _ _ _ => asid
  | .pageRemove _ asid _ => asid

def va : MapCall n → Word
  | .pageInsert _ _ _ va _ => va
  | .pageRemove _ _ va => va

/-- The tag of the entries that the call is about. -/
def hi (x : MapCall n) : Word := entryHi x.asid x.va

end MapCall

/-- Where a call of `page_insert` or `page_remove` stands. From the store on it
carries the number of that store. -/
inductive MapStage
  | enter
  | store
  | flush (stored : Nat)
  | mailbox (stored : Nat)
  | send (stored : Nat)
  | wait (stored : Nat)

inductive TlbPc (n : Nat)
  | user
  /-- Kernel code outside the functions modelled here. -/
  | kernel
  | refill (r : Refill n) (p : RefillStage n)
  /-- A call, made by kernel code or by `passive_alloc` in a refill. -/
  | call (x : MapCall n) (p : MapStage) (back : Option (Refill n))

/-- Where `handle_ipi_irq` stands after it has cleared the pending bit. -/
inductive FlushPc
  | flush
  | finish

structure TlbCpu (n : Nat) where
  tlb : List (TlbEntry Nat)
  pc : TlbPc n
  irq : Option FlushPc
  ipiPending : Bool
  ipiDone : Bool
  /-- The arguments of `tlb_invalidate_local` in the mailbox. -/
  ipiMailbox : Word × Word

/-- The part of a CPU's state through which the other one talks to it. -/
def TlbCpu.port {n : Nat} (x : TlbCpu n) : Bool × Bool × (Word × Word) × Option FlushPc :=
  (x.ipiPending, x.ipiDone, x.ipiMailbox, x.irq)

structure Tlbs (n : Nat) where
  pm : Pmap n
  pmapLock : Option CpuId
  cpu : CpuId → TlbCpu n
  stores : Nat
  returned : List (Word × Nat)

inductive TlbLabel (n : Nat)
  | step (c : CpuId)
  /-- An exception or an interrupt other than a TLB miss. -/
  | trap (c : CpuId)
  | eret (c : CpuId)
  | miss (c : CpuId) (pgdir : Page n) (va asid : Word)
  | call (c : CpuId) (x : MapCall n)
  /-- `handle_ipi_irq` at a polling point. -/
  | serve (c : CpuId)
  /-- The hardware drops an entry. -/
  | evict (c : CpuId) (i : Nat)
  | other (pm : Pmap n)

namespace TlbPc

variable {n : Nat}

/-- Where interprocessor interrupts are served. -/
def polling : TlbPc n → Bool
  | .user | .call _ (.wait _) _ => true
  | _ => false

/-- The words a refill has read but not installed: their tag and their
stamp. -/
def words : TlbPc n → Option (Word × Nat)
  | .refill r (.word1 _ _ stamp) | .refill r (.install _ _ stamp) => some (r.hi, stamp)
  | _ => none

/-- The call on this CPU that waits for the other one. -/
def waiting : TlbPc n → Option (MapCall n × Nat)
  | .call x (.wait k) _ => some (x, k)
  | _ => none

/-- No call on this CPU has stored its entry. -/
def plain : TlbPc n → Bool
  | .call _ .enter _ | .call _ .store _ => true
  | .call _ _ _ => false
  | _ => true

/-- Back to the caller. -/
def ret : Option (Refill n) → TlbPc n
  | none => .kernel
  | some r => .refill r .lookup

def atHome : Home → TlbPc n
  | .user => .user
  | .kernel => .kernel

end TlbPc

namespace Tlbs

variable {n : Nat}

def upd (s : Tlbs n) (c : CpuId) (f : TlbCpu n → TlbCpu n) : Tlbs n :=
  { s with cpu := update s.cpu c (f (s.cpu c)) }

def goto (s : Tlbs n) (c : CpuId) (pc : TlbPc n) : Tlbs n :=
  s.upd c (fun x => { x with pc := pc })

def flushLocal (s : Tlbs n) (c : CpuId) (hi : Word) : Tlbs n :=
  s.upd c (fun x => { x with tlb := tlbOut hi x.tlb })

/-- The store of the table entry, with which the section ends. -/
def stored (s : Tlbs n) (pm : Pmap n) : Tlbs n :=
  { s with pm := pm, pmapLock := none, stores := s.stores + 1 }

def refillStep (s : Tlbs n) (c : CpuId) (r : Refill n) : RefillStage n → Option (Tlbs n)
  | .flush => some ((s.flushLocal c r.hi).goto c (.refill r .lookup))
  | .lookup =>
    match s.pm.pageLookup r.pgdir r.va with
    | none => none
    | some none => some (s.goto c (.refill r .passiveAlloc))
    | some (some (_, pte)) => some (s.goto c (.refill r (.word0 pte)))
  | .passiveAlloc =>
    if passiveAllocRefuses r.va || s.pmapLock.isSome then none
    else
      match s.pm.pageAlloc with
      | .error _ => none
      | .ok (p, m) => some ({ s with pm := m }.goto c (.call
          (.pageInsert r.pgdir r.asid p (pteAddr r.va) (passiveAllocPerm r.va)) .enter (some r)))
  | .word0 pte =>
    some (s.goto c (.refill r
      (.word1 pte (entryLo (s.pm.read (pte.1, evenIdx pte.2))) s.stores)))
  | .word1 pte lo0 stamp =>
    some (s.goto c (.refill r
      (.install lo0 (entryLo (s.pm.read (pte.1, oddIdx pte.2))) stamp)))
  | .install lo0 lo1 stamp =>
    some ((s.upd c (fun x => { x with tlb := ⟨r.hi, lo0, lo1, stamp⟩ :: x.tlb })).goto c
      (.atHome r.home))

/-- The section up to the store of the new entry, or up to its end. -/
def enterStep (s : Tlbs n) (c : CpuId) (back : Option (Refill n)) (x : MapCall n) :
    Option (Tlbs n) :=
  if s.pmapLock.isSome then none
  else
    match x with
    | .pageInsert pgdir _ pp va perm =>
      match s.pm.clearOld pgdir pp va perm with
      | none => none
      | some (m, true) => some ((s.stored m).goto c (.call x (.flush (s.stores + 1)) back))
      | some (m, false) =>
        some ({ s with pm := m, pmapLock := some c }.goto c (.call x .store back))
    | .pageRemove pgdir _ va =>
      match s.pm.pageLookup pgdir va with
      | none => none
      | some none => some (s.goto c (.ret back))
      | some (some _) => (s.pm.pageRemove pgdir va).map (fun m =>
        (s.stored m).goto c (.call x (.flush (s.stores + 1)) back))

def storeStep (s : Tlbs n) (c : CpuId) (back : Option (Refill n)) (x : MapCall n) :
    Option (Tlbs n) :=
  match x with
  | .pageInsert pgdir _ pp va perm =>
    match s.pm.mapPage pgdir pp va perm with
    | none => none
    | some (.error _, m) =>
      -- `passive_alloc` panics when the insertion fails
      if back.isSome then none
      else some ({ s with pm := m, pmapLock := none }.goto c .kernel)
    | some (.ok _, m) => some ((s.stored m).goto c (.call x (.flush (s.stores + 1)) back))
  | .pageRemove _ _ _ => none

def callStep (s : Tlbs n) (c : CpuId) (back : Option (Refill n)) (x : MapCall n) :
    MapStage → Option (Tlbs n)
  | .enter => s.enterStep c back x
  | .store => s.storeStep c back x
  | .flush k => some ((s.flushLocal c x.hi).goto c (.call x (.mailbox k) back))
  | .mailbox k =>
    some ((s.upd (other c) (fun y =>
      { y with ipiDone := false, ipiMailbox := (x.asid, x.va) })).goto c (.call x (.send k) back))
  | .send k =>
    some ((s.upd (other c) (fun y => { y with ipiPending := true })).goto
      c (.call x (.wait k) back))
  | .wait k =>
    if (s.cpu (other c)).ipiDone then
      some ({ s with returned := (x.hi, k) :: s.returned }.goto c (.ret back))
    else none

def irqStep (s : Tlbs n) (c : CpuId) : FlushPc → Tlbs n
  | .flush =>
    (s.flushLocal c (entryHi (s.cpu c).ipiMailbox.1 (s.cpu c).ipiMailbox.2)).upd c
      (fun x => { x with irq := some .finish })
  | .finish => s.upd c (fun x => { x with ipiDone := true, irq := none })

def exec (s : Tlbs n) : TlbLabel n → Option (Tlbs n)
  | .step c =>
    match (s.cpu c).irq, (s.cpu c).pc with
    | some p, _ => some (s.irqStep c p)
    | none, .user | none, .kernel => none
    | none, .refill r p => s.refillStep c r p
    | none, .call x p back => s.callStep c back x p
  | .trap c =>
    match (s.cpu c).irq, (s.cpu c).pc with
    | none, .user => some (s.goto c .kernel)
    | _, _ => none
  | .eret c =>
    match (s.cpu c).irq, (s.cpu c).pc with
    | none, .kernel => some (s.goto c .user)
    | _, _ => none
  | .miss c pgdir va asid =>
    match (s.cpu c).irq, (s.cpu c).pc with
    | none, .user => some (s.goto c (.refill ⟨pgdir, va, asid, .user⟩ .flush))
    | none, .kernel => some (s.goto c (.refill ⟨pgdir, va, asid, .kernel⟩ .flush))
    | _, _ => none
  | .call c x =>
    match (s.cpu c).irq, (s.cpu c).pc with
    | none, .kernel => some (s.goto c (.call x .enter none))
    | _, _ => none
  | .serve c =>
    if (s.cpu c).irq.isNone ∧ (s.cpu c).pc.polling = true ∧ (s.cpu c).ipiPending = true then
      some (s.upd c (fun x => { x with ipiPending := false, irq := some .flush }))
    else none
  | .evict c i => some (s.upd c (fun x => { x with tlb := x.tlb.eraseIdx i }))
  | .other pm => some { s with pm := pm }

/-- No TLB holds an entry for a call that has returned, of which a word was
read before the call stored its table entry. -/
def Complete (s : Tlbs n) : Prop :=
  ∀ hi k, (hi, k) ∈ s.returned → ∀ c, ∀ e ∈ (s.cpu c).tlb, e.hi = hi → k ≤ e.note

/-- What a step does. In the moves, the words in hand are kept, dropped, or
have just been read. -/
inductive TlbCase (s : Tlbs n) : Tlbs n → Prop
  | move (c : CpuId) (pc : TlbPc n) (pm : Pmap n) (lock : Option CpuId)
      (hirq : (s.cpu c).irq = none) (hold : (s.cpu c).pc.waiting = none)
      (hnew : pc.plain = true)
      (hwords : pc.words = none ∨ pc.words = (s.cpu c).pc.words ∨
        ∃ hi, pc.words = some (hi, s.stores)) :
      TlbCase s ({ s with pm := pm, pmapLock := lock }.goto c pc)
  | store (c : CpuId) (x : MapCall n) (back : Option (Refill n)) (pm : Pmap n)
      (hirq : (s.cpu c).irq = none) (hold : (s.cpu c).pc.waiting = none) :
      TlbCase s ((s.stored pm).goto c (.call x (.flush (s.stores + 1)) back))
  | refillFlush (c : CpuId) (r : Refill n) (hirq : (s.cpu c).irq = none)
      (hold : (s.cpu c).pc.waiting = none) :
      TlbCase s ((s.flushLocal c r.hi).goto c (.refill r .lookup))
  | install (c : CpuId) (r : Refill n) (lo0 lo1 : Word) (stamp : Nat)
      (hirq : (s.cpu c).irq = none) (hpc : (s.cpu c).pc = .refill r (.install lo0 lo1 stamp)) :
      TlbCase s ((s.upd c (fun x => { x with tlb := ⟨r.hi, lo0, lo1, stamp⟩ :: x.tlb })).goto c
        (.atHome r.home))
  | call (c : CpuId) (x : MapCall n) (p : MapStage) (back : Option (Refill n))
      (hirq : (s.cpu c).irq = none) (hpc : (s.cpu c).pc = .call x p back) (s' : Tlbs n)
      (hp : p ≠ .enter ∧ p ≠ .store) (hstep : s.callStep c back x p = some s') : TlbCase s s'
  | irq (c : CpuId) (p : FlushPc) (hirq : (s.cpu c).irq = some p) : TlbCase s (s.irqStep c p)
  | serve (c : CpuId) (hirq : (s.cpu c).irq = none) (hpoll : (s.cpu c).pc.polling = true)
      (hpend : (s.cpu c).ipiPending = true) :
      TlbCase s (s.upd c (fun x => { x with ipiPending := false, irq := some .flush }))
  | evict (c : CpuId) (i : Nat) :
      TlbCase s (s.upd c (fun x => { x with tlb := x.tlb.eraseIdx i }))
  | other (pm : Pmap n) : TlbCase s { s with pm := pm }

variable {s s' : Tlbs n} {c : CpuId} {hi : Word} {k : Nat}

theorem refillStep_cases {r : Refill n} {p : RefillStage n} (hirq : (s.cpu c).irq = none)
    (hpc : (s.cpu c).pc = .refill r p) (h : s.refillStep c r p = some s') : TlbCase s s' := by
  have hold : (s.cpu c).pc.waiting = none := by rw [hpc]; rfl
  cases p with
  | flush =>
    cases h
    exact .refillFlush c r hirq hold
  | lookup =>
    simp only [refillStep] at h
    split at h <;> cases h
    · exact .move c _ s.pm s.pmapLock hirq hold rfl (.inl rfl)
    · exact .move c _ s.pm s.pmapLock hirq hold rfl (.inl rfl)
  | passiveAlloc =>
    simp only [refillStep] at h
    split at h
    · cases h
    · split at h <;> cases h
      next m _ =>
      exact .move c _ m s.pmapLock hirq hold rfl (.inl rfl)
  | word0 =>
    cases h
    exact .move c _ s.pm s.pmapLock hirq hold rfl (.inr (.inr ⟨r.hi, rfl⟩))
  | word1 =>
    cases h
    refine .move c _ s.pm s.pmapLock hirq hold rfl (.inr (.inl ?_))
    rw [hpc]
    rfl
  | install lo0 lo1 stamp =>
    cases h
    exact .install c r lo0 lo1 stamp hirq hpc

theorem plain_ret (back : Option (Refill n)) : (TlbPc.ret back).plain = true := by
  cases back <;> rfl

theorem words_ret (back : Option (Refill n)) : (TlbPc.ret back).words = none := by
  cases back <;> rfl

variable {x : MapCall n} {back : Option (Refill n)}

theorem enterStep_cases (hirq : (s.cpu c).irq = none) (hold : (s.cpu c).pc.waiting = none)
    (h : s.enterStep c back x = some s') : TlbCase s s' := by
  unfold enterStep at h
  split at h
  · cases h
  · cases x with
    | pageInsert =>
      dsimp only at h
      split at h <;> cases h
      · next m _ =>
        exact .store c _ back m hirq hold
      · next m _ =>
        exact .move c _ m (some c) hirq hold rfl (.inl rfl)
    | pageRemove =>
      dsimp only at h
      split at h
      · cases h
      · cases h
        exact .move c _ s.pm s.pmapLock hirq hold (plain_ret back) (.inl (words_ret back))
      · obtain ⟨m, _, rfl⟩ := Option.map_eq_some_iff.mp h
        exact .store c _ back m hirq hold

theorem storeStep_cases (hirq : (s.cpu c).irq = none) (hold : (s.cpu c).pc.waiting = none)
    (h : s.storeStep c back x = some s') : TlbCase s s' := by
  cases x with
  | pageInsert =>
    simp only [storeStep] at h
    split at h
    · cases h
    · next m _ =>
      split at h <;> cases h
      exact .move c _ m none hirq hold rfl (.inl rfl)
    · next m _ =>
      cases h
      exact .store c _ back m hirq hold
  | pageRemove => cases h

variable {p : MapStage}

theorem callStep_cases (hirq : (s.cpu c).irq = none) (hpc : (s.cpu c).pc = .call x p back)
    (h : s.callStep c back x p = some s') : TlbCase s s' := by
  cases p with
  | enter => exact enterStep_cases hirq (by rw [hpc]; rfl) h
  | store => exact storeStep_cases hirq (by rw [hpc]; rfl) h
  | _ =>
    refine .call c x _ back hirq hpc s' ⟨?_, ?_⟩ h <;> intro heq <;> cases heq

theorem exec_cases {l : TlbLabel n} (h : s.exec l = some s') : TlbCase s s' := by
  cases l with
  | step c =>
    simp only [exec] at h
    split at h
    · next p hirq =>
      cases h
      exact .irq c p hirq
    · cases h
    · cases h
    · next r p hirq hpc => exact refillStep_cases hirq hpc h
    · next x p back hirq hpc => exact callStep_cases hirq hpc h
  | trap c | eret c | call c =>
    simp only [exec] at h
    split at h <;> cases h
    next hirq hpc =>
    exact .move c _ s.pm s.pmapLock hirq (by rw [hpc]; rfl) rfl (.inl rfl)
  | miss c =>
    simp only [exec] at h
    split at h <;> cases h
    · next hirq hpc =>
      exact .move c _ s.pm s.pmapLock hirq (by rw [hpc]; rfl) rfl (.inl rfl)
    · next hirq hpc =>
      exact .move c _ s.pm s.pmapLock hirq (by rw [hpc]; rfl) rfl (.inl rfl)
  | serve c =>
    simp only [exec] at h
    split at h <;> cases h
    next hcond =>
    exact .serve c (Option.isNone_iff_eq_none.mp hcond.1) hcond.2.1 hcond.2.2
  | evict c i =>
    cases h
    exact .evict c i
  | other pm =>
    cases h
    exact .other pm

@[simp] theorem cpu_upd_self (s : Tlbs n) (c : CpuId) (f : TlbCpu n → TlbCpu n) :
    (s.upd c f).cpu c = f (s.cpu c) :=
  update_self ..

@[simp] theorem cpu_upd_other (s : Tlbs n) (c : CpuId) (f : TlbCpu n → TlbCpu n) :
    (s.upd c f).cpu (other c) = s.cpu (other c) :=
  update_of_ne (other_ne c) ..

@[simp] theorem cpu_updOther_self (s : Tlbs n) (c : CpuId) (f : TlbCpu n → TlbCpu n) :
    (s.upd (other c) f).cpu c = s.cpu c :=
  update_of_ne (other_ne c).symm ..

/-- What every step of a CPU leaves true of its TLB and of the words in its
hand: no entry appears that was not in hand, and no words that were not read
just now, with the stamp `k`. -/
structure CpuEffect (k : Nat) (x y : TlbCpu n) : Prop where
  tlb : ∀ e ∈ y.tlb, e ∈ x.tlb ∨ x.pc.words = some (e.hi, e.note)
  words : ∀ w, y.pc.words = some w → x.pc.words = some w ∨ w.2 = k

theorem CpuEffect.ofSame {x y : TlbCpu n} (htlb : y.tlb = x.tlb) (hpc : y.pc = x.pc) :
    CpuEffect k x y :=
  ⟨fun _ he => .inl (htlb ▸ he), fun _ hw => .inl (hpc ▸ hw)⟩

theorem CpuEffect.ofSublist {x y : TlbCpu n} (htlb : ∀ e ∈ y.tlb, e ∈ x.tlb)
    (hpc : y.pc.words = none) : CpuEffect k x y := by
  refine ⟨fun e he => .inl (htlb e he), fun w hw => ?_⟩
  rw [hpc] at hw
  cases hw

structure TlbEffect (s s' : Tlbs n) : Prop where
  stores : s.stores ≤ s'.stores
  cpu : ∀ c, CpuEffect s.stores (s.cpu c) (s'.cpu c)

theorem TlbEffect.both (c : CpuId) (hstores : s.stores ≤ s'.stores)
    (hself : CpuEffect s.stores (s.cpu c) (s'.cpu c))
    (hother : CpuEffect s.stores (s.cpu (other c)) (s'.cpu (other c))) : TlbEffect s s' := by
  refine ⟨hstores, fun d => ?_⟩
  rcases eq_or_eq_other c d with rfl | rfl
  · exact hself
  · exact hother

theorem words_atHome (h : Home) : (TlbPc.atHome h : TlbPc n).words = none := by
  cases h <;> rfl

theorem callStep_effect (hp : p ≠ .enter ∧ p ≠ .store) (h : s.callStep c back x p = some s') :
    TlbEffect s s' := by
  cases p with
  | enter => exact absurd rfl hp.1
  | store => exact absurd rfl hp.2
  | flush =>
    cases h
    refine .both c (le_refl _) (.ofSublist (fun e he => ?_) ?_) (.ofSame ?_ ?_)
    · exact (mem_tlbOut.mp (by simpa [goto, flushLocal] using he)).1
    all_goals simp [goto, flushLocal, TlbPc.words]
  | mailbox | send =>
    cases h
    refine .both c (le_refl _) (.ofSublist (fun e he => ?_) ?_) (.ofSame ?_ ?_)
    · simpa [goto] using he
    all_goals simp [goto, TlbPc.words]
  | wait =>
    simp only [callStep] at h
    split at h <;> cases h
    refine .both c (le_refl _) (.ofSublist (fun e he => ?_) ?_) (.ofSame ?_ ?_)
    · simpa [goto] using he
    all_goals simp [goto, words_ret]

theorem TlbCase.effect (h : TlbCase s s') : TlbEffect s s' := by
  cases h with
  | move c pc pm lock _ _ _ hwords =>
    refine .both c (le_refl _) ⟨fun e he => .inl ?_, fun w hw => ?_⟩ (.ofSame ?_ ?_)
    · simpa [goto] using he
    · have hpc : pc.words = some w := by simpa [goto] using hw
      rcases hwords with hnone | hsame | ⟨_, hread⟩
      · cases hnone.symm.trans hpc
      · exact .inl (hsame.symm.trans hpc)
      · exact .inr (congrArg Prod.snd (Option.some.inj (hread.symm.trans hpc)).symm)
    all_goals simp [goto]
  | store c x back pm _ _ =>
    refine .both c (le_succ _) (.ofSublist (fun e he => ?_) ?_) (.ofSame ?_ ?_)
    · simpa [goto, stored] using he
    all_goals simp [goto, stored, TlbPc.words]
  | refillFlush c r _ _ =>
    refine .both c (le_refl _) (.ofSublist (fun e he => ?_) ?_) (.ofSame ?_ ?_)
    · exact (mem_tlbOut.mp (by simpa [goto, flushLocal] using he)).1
    all_goals simp [goto, flushLocal, TlbPc.words]
  | install c r lo0 lo1 stamp _ hpc =>
    refine .both c (le_refl _) ⟨fun e he => ?_, fun w hw => ?_⟩ (.ofSame ?_ ?_)
    · have hmem : e = ⟨r.hi, lo0, lo1, stamp⟩ ∨ e ∈ (s.cpu c).tlb := by
        simpa [goto] using he
      rcases hmem with rfl | hmem
      · right
        rw [hpc]
        rfl
      · exact .inl hmem
    · simp [goto, words_atHome] at hw
    all_goals simp [goto]
  | call c x p back _ _ s' hp hstep => exact callStep_effect hp hstep
  | irq c p =>
    cases p with
    | flush =>
      refine .both c (le_refl _) ⟨fun e he => .inl ?_, fun w hw => .inl ?_⟩ (.ofSame ?_ ?_)
      · exact (mem_tlbOut.mp (by simpa [irqStep, flushLocal] using he)).1
      · simpa [irqStep, flushLocal] using hw
      all_goals simp [irqStep, flushLocal]
    | finish => refine .both c (le_refl _) (.ofSame ?_ ?_) (.ofSame ?_ ?_) <;> simp [irqStep]
  | serve c _ _ _ => refine .both c (le_refl _) (.ofSame ?_ ?_) (.ofSame ?_ ?_) <;> simp
  | evict c =>
    refine .both c (le_refl _) ⟨fun e he => .inl ?_, fun w hw => .inl ?_⟩ (.ofSame ?_ ?_)
    · exact List.mem_of_mem_eraseIdx (by simpa using he)
    · simpa using hw
    all_goals simp
  | other => exact ⟨le_refl _, fun _ => .ofSame rfl rfl⟩

/-- The CPU has nothing about `hi` that was read before store number `k`,
neither in its TLB nor in hand. -/
structure Clean (s : Tlbs n) (c : CpuId) (hi : Word) (k : Nat) : Prop where
  tlb : ∀ e ∈ (s.cpu c).tlb, e.hi = hi → k ≤ e.note
  words : ∀ stamp, (s.cpu c).pc.words = some (hi, stamp) → k ≤ stamp

/-- Once a store is done, what is clean of older words stays so. -/
theorem Clean.step (h : s.Clean c hi k) (hk : k ≤ s.stores) (heff : TlbEffect s s') :
    s'.Clean c hi k where
  tlb := by
    intro e he hhi
    rcases (heff.cpu c).tlb e he with hold | hinst
    · exact h.tlb e hold hhi
    · rw [hhi] at hinst
      exact h.words e.note hinst
  words := by
    intro stamp hw
    rcases (heff.cpu c).words _ hw with hold | hread
    · exact h.words stamp hold
    · have hread : stamp = s.stores := hread
      omega

/-- A flush cleans a CPU that has no words in hand. -/
theorem clean_of_flushed (htlb : ∀ e ∈ (s.cpu c).tlb, e.hi ≠ hi)
    (hwords : (s.cpu c).pc.words = none) : s.Clean c hi k where
  tlb := fun e he hhi => absurd hhi (htlb e he)
  words := by
    intro stamp hw
    rw [hwords] at hw
    cases hw

variable {pc : TlbPc n}

theorem words_of_polling (h : pc.polling = true) : pc.words = none := by
  cases pc with
  | user | call => rfl
  | kernel | refill => cases h

/-- What holds on the way of a call, from its store to its return. -/
def OnWay (s : Tlbs n) (c : CpuId) : TlbPc n → Prop
  | .call _ (.flush k) _ => k ≤ s.stores
  | .call x (.mailbox k) _ => k ≤ s.stores ∧ s.Clean c x.hi k
  | .call x (.send k) _ =>
    k ≤ s.stores ∧ s.Clean c x.hi k ∧ (s.cpu (other c)).ipiMailbox = (x.asid, x.va) ∧
      (s.cpu (other c)).ipiDone = false
  | .call x (.wait k) _ =>
    k ≤ s.stores ∧ s.Clean c x.hi k ∧ (s.cpu (other c)).ipiMailbox = (x.asid, x.va) ∧
      ((s.cpu (other c)).ipiDone = true → (s.cpu (other c)).ipiPending = false ∧
        (s.cpu (other c)).irq = none ∧ s.Clean (other c) x.hi k) ∧
      ((s.cpu (other c)).irq ≠ none → (s.cpu (other c)).ipiPending = false) ∧
      ((s.cpu (other c)).irq = some .finish → s.Clean (other c) x.hi k)
  | _ => True

structure Inv (s : Tlbs n) : Prop where
  onWay : ∀ c, s.OnWay c (s.cpu c).pc
  polling : ∀ c, (s.cpu c).irq ≠ none → (s.cpu c).pc.polling = true
  asked : ∀ c, (s.cpu c).ipiPending = true ∨ (s.cpu c).irq ≠ none →
    (s.cpu (other c)).pc.waiting ≠ none
  returned : ∀ hi k, (hi, k) ∈ s.returned → k ≤ s.stores ∧ ∀ c, s.Clean c hi k

theorem Inv.complete (h : s.Inv) : s.Complete := fun hi k hmem c => ((h.returned hi k hmem).2 c).tlb

theorem onWay_of_plain (h : pc.plain = true) : s.OnWay c pc := by
  cases pc with
  | user | kernel | refill => trivial
  | call x p =>
    cases p with
    | enter | store => trivial
    | _ => cases h

theorem port_eq {x y : TlbCpu n} (h : y.port = x.port) : y.ipiPending = x.ipiPending ∧
    y.ipiDone = x.ipiDone ∧ y.ipiMailbox = x.ipiMailbox ∧ y.irq = x.irq := by
  simpa [TlbCpu.port] using h

theorem OnWay.congr (h : s.OnWay c pc) (heff : TlbEffect s s')
    (hport : (s'.cpu (other c)).port = (s.cpu (other c)).port) : s'.OnWay c pc := by
  obtain ⟨hpend, hdone, hbox, hirq⟩ := port_eq hport
  cases pc with
  | user | kernel | refill => trivial
  | call x p =>
    cases p with
    | enter | store => trivial
    | flush => exact le_trans h heff.stores
    | mailbox => exact ⟨le_trans h.1 heff.stores, h.2.step h.1 heff⟩
    | send =>
      obtain ⟨hk, hclean, hargs, hno⟩ := h
      exact ⟨le_trans hk heff.stores, hclean.step hk heff, hbox.trans hargs, hdone.trans hno⟩
    | wait =>
      obtain ⟨hk, hclean, hargs, hack, hserving, hflushed⟩ := h
      refine ⟨le_trans hk heff.stores, hclean.step hk heff, hbox.trans hargs, ?_, ?_, ?_⟩
      · rw [hdone, hpend, hirq]
        intro hd
        obtain ⟨h1, h2, h3⟩ := hack hd
        exact ⟨h1, h2, h3.step hk heff⟩
      · rw [hirq, hpend]
        exact hserving
      · rw [hirq]
        exact fun hf => (hflushed hf).step hk heff

section

variable (h : s.Inv)
include h

/-- The calls that have returned stay complete. -/
theorem Inv.returned_step (heff : TlbEffect s s') (hi : Word) (k : Nat)
    (hmem : (hi, k) ∈ s.returned) : k ≤ s'.stores ∧ ∀ c, s'.Clean c hi k := by
  obtain ⟨hk, hclean⟩ := h.returned hi k hmem
  exact ⟨le_trans hk heff.stores, fun c => (hclean c).step hk heff⟩

/-- Nothing is asked of a CPU while the other one does not wait. -/
theorem Inv.not_asked (hold : (s.cpu c).pc.waiting = none) :
    (s.cpu (other c)).ipiPending = false ∧ (s.cpu (other c)).irq = none := by
  have hasked := h.asked (other c)
  rw [other_other] at hasked
  constructor
  · by_contra hne
    exact hasked (.inl (by simpa using hne)) hold
  · by_contra hne
    exact hasked (.inr hne) hold

section

variable (heff : TlbEffect s s')
include heff

/-- A step of a CPU outside the handler, which may ask something of the other
one. -/
theorem Inv.ofCall (hirq : (s.cpu c).irq = none) (hport : (s'.cpu c).port = (s.cpu c).port)
    (hpc : (s'.cpu (other c)).pc = (s.cpu (other c)).pc)
    (hirq' : (s'.cpu (other c)).irq = (s.cpu (other c)).irq) (hway : s'.OnWay c (s'.cpu c).pc)
    (hasked : (s'.cpu (other c)).ipiPending = true ∨ (s'.cpu (other c)).irq ≠ none →
      (s'.cpu c).pc.waiting ≠ none)
    (hret : ∀ hi k, (hi, k) ∈ s'.returned → k ≤ s'.stores ∧ ∀ c, s'.Clean c hi k) : s'.Inv := by
  obtain ⟨hpend, _, _, hsame⟩ := port_eq hport
  refine ⟨fun d => ?_, fun d hne => ?_, fun d hask => ?_, hret⟩
  all_goals rcases eq_or_eq_other c d with rfl | rfl
  · exact hway
  · rw [hpc]
    exact (h.onWay _).congr heff (by rw [other_other]; exact hport)
  · rw [hsame] at hne
    exact absurd hirq hne
  · rw [hirq'] at hne
    rw [hpc]
    exact h.polling _ hne
  · rw [hpend, hsame] at hask
    rw [hpc]
    exact h.asked _ hask
  · rw [other_other]
    exact hasked hask

/-- A step of a CPU that does not wait, which leaves alone what the CPUs ask
of each other. -/
theorem Inv.ofMove (hirq : (s.cpu c).irq = none) (hold : (s.cpu c).pc.waiting = none)
    (hport : (s'.cpu c).port = (s.cpu c).port) (hother : s'.cpu (other c) = s.cpu (other c))
    (hret : s'.returned = s.returned) (hway : s'.OnWay c (s'.cpu c).pc) : s'.Inv := by
  obtain ⟨hpend, hnone⟩ := h.not_asked hold
  refine h.ofCall heff hirq hport (by rw [hother]) (by rw [hother]) hway (fun hask => ?_) ?_
  · rw [hother, hpend, hnone] at hask
    rcases hask with hask | hask
    · cases hask
    · exact absurd rfl hask
  · rw [hret]
    exact h.returned_step heff

/-- A step of the handler on a CPU that the other one waits for. -/
theorem Inv.ofIrq (hpc : (s'.cpu c).pc = (s.cpu c).pc) (hother : s'.cpu (other c) = s.cpu (other c))
    (hpoll : (s.cpu c).pc.polling = true) (hask : (s.cpu (other c)).pc.waiting ≠ none)
    (hret : s'.returned = s.returned) (hway : s'.OnWay (other c) (s.cpu (other c)).pc) :
    s'.Inv := by
  refine ⟨fun d => ?_, fun d hne => ?_, fun d hask' => ?_, ?_⟩
  rotate_right
  · rw [hret]
    exact h.returned_step heff
  all_goals rcases eq_or_eq_other c d with rfl | rfl
  · rw [hpc]
    exact (h.onWay _).congr heff (by rw [hother])
  · rw [hother]
    exact hway
  · rw [hpc]
    exact hpoll
  · rw [hother] at hne ⊢
    exact h.polling _ hne
  · rw [hother]
    exact hask
  · rw [hother] at hask'
    rw [other_other, hpc]
    have hold := h.asked _ hask'
    rwa [other_other] at hold

/-- A step that changes no position and nothing that the CPUs ask of each
other. -/
theorem Inv.ofSame (hport : ∀ d, (s'.cpu d).port = (s.cpu d).port)
    (hpc : ∀ d, (s'.cpu d).pc = (s.cpu d).pc) (hret : s'.returned = s.returned) : s'.Inv := by
  refine ⟨fun d => ?_, fun d hne => ?_, fun d hask => ?_, fun hi k hmem => ?_⟩
  · rw [hpc]
    exact (h.onWay d).congr heff (hport _)
  · rw [(port_eq (hport d)).2.2.2] at hne
    rw [hpc]
    exact h.polling d hne
  · obtain ⟨hpend, _, _, hirq⟩ := port_eq (hport d)
    rw [hpend, hirq] at hask
    rw [hpc]
    exact h.asked d hask
  · rw [hret] at hmem
    exact h.returned_step heff hi k hmem

end

end

theorem waiting_some (h : pc.waiting ≠ none) : ∃ x k back, pc = .call x (.wait k) back := by
  cases pc with
  | user | kernel | refill => exact absurd rfl h
  | call x p back =>
    cases p with
    | wait k => exact ⟨x, k, back, rfl⟩
    | _ => exact absurd rfl h

theorem Inv.callStep (h : s.Inv) (hirq : (s.cpu c).irq = none) (hpc : (s.cpu c).pc = .call x p back)
    (hp : p ≠ .enter ∧ p ≠ .store) (hstep : s.callStep c back x p = some s') : s'.Inv := by
  have heff := callStep_effect hp hstep
  have hway := h.onWay c
  rw [hpc] at hway
  cases p with
  | enter => exact absurd rfl hp.1
  | store => exact absurd rfl hp.2
  | flush =>
    cases hstep
    refine h.ofMove (c := c) heff hirq (by rw [hpc]; rfl) ?_ ?_ rfl ?_
    · simp [goto, flushLocal, TlbCpu.port]
    · simp [goto, flushLocal]
    · simp only [goto, cpu_upd_self]
      refine ⟨hway, clean_of_flushed (fun e he => ?_) ?_⟩
      · exact (mem_tlbOut.mp (by simpa [goto, flushLocal] using he)).2
      · simp [TlbPc.words]
  | mailbox =>
    obtain ⟨hpend, hnone⟩ := h.not_asked (c := c) (by rw [hpc]; rfl)
    cases hstep
    refine h.ofCall (c := c) heff hirq ?_ ?_ ?_ ?_ (fun hask => ?_) (h.returned_step heff)
    · simp [goto, TlbCpu.port]
    · simp [goto]
    · simp [goto]
    · have hclean := hway.2.step hway.1 heff
      simp only [goto, cpu_upd_self, cpu_updOther_self] at hclean ⊢
      refine ⟨hway.1, hclean, ?_, ?_⟩ <;> simp
    · simp [goto, hpend, hnone] at hask
  | send =>
    obtain ⟨hpend, hnone⟩ := h.not_asked (c := c) (by rw [hpc]; rfl)
    cases hstep
    obtain ⟨hk, hclean, hargs, hdone⟩ := hway
    refine h.ofCall (c := c) heff hirq ?_ ?_ ?_ ?_ (fun _ => ?_) (h.returned_step heff)
    · simp [goto, TlbCpu.port]
    · simp [goto]
    · simp [goto]
    · have hclean' := hclean.step hk heff
      simp only [goto, cpu_upd_self, cpu_updOther_self] at hclean' ⊢
      refine ⟨hk, hclean', ?_, ?_, ?_, ?_⟩ <;> simp [hargs, hdone, hnone]
    · simp [goto, TlbPc.waiting]
  | wait =>
    simp only [Tlbs.callStep] at hstep
    split at hstep
    · next hd =>
      obtain ⟨hk, hclean, _, hack, _⟩ := hway
      obtain ⟨hpend, hnone, hclean'⟩ := hack hd
      cases hstep
      refine h.ofCall (c := c) heff hirq ?_ ?_ ?_ ?_ (fun hask => ?_) (fun hi k' hmem => ?_)
      · simp [goto, TlbCpu.port]
      · simp [goto]
      · simp [goto]
      · simp only [goto, cpu_upd_self]
        exact onWay_of_plain (plain_ret back)
      · simp [goto, hpend, hnone] at hask
      · rcases List.mem_cons.mp hmem with heq | hmem
        · obtain ⟨rfl, rfl⟩ := Prod.mk.inj heq
          refine ⟨hk, fun d => ?_⟩
          rcases eq_or_eq_other c d with rfl | rfl
          · exact hclean.step hk heff
          · exact hclean'.step hk heff
        · exact h.returned_step heff hi k' hmem
    · cases hstep

/-- The handler answers the call that the other CPU waits in. -/
theorem Inv.irqStep {p : FlushPc} (h : s.Inv) (hirq : (s.cpu c).irq = some p) :
    (s.irqStep c p).Inv := by
  have heff : TlbEffect s (s.irqStep c p) := TlbCase.effect (.irq c p hirq)
  have hserving : (s.cpu c).irq ≠ none := by simp [hirq]
  have hpoll := h.polling c hserving
  have hask := h.asked c (.inr hserving)
  obtain ⟨x, k, _, hpc⟩ := waiting_some hask
  have hway := h.onWay (other c)
  rw [hpc] at hway
  obtain ⟨hk, hclean, hargs, hack, hpend, hflushed⟩ := hway
  rw [other_other] at hargs hack hpend hflushed
  have hclean' := hclean.step hk heff
  cases p with
  | flush =>
    refine h.ofIrq (c := c) heff ?_ ?_ hpoll hask rfl ?_
    · simp [Tlbs.irqStep, flushLocal]
    · simp [Tlbs.irqStep, flushLocal]
    · have hnow : (s.irqStep c .flush).Clean c x.hi k := by
        refine clean_of_flushed (fun e he => ?_) ?_
        · have hmem : e ∈ tlbOut (entryHi x.asid x.va) (s.cpu c).tlb := by
            simpa [Tlbs.irqStep, flushLocal, hargs] using he
          exact (mem_tlbOut.mp hmem).2
        · simpa [Tlbs.irqStep, flushLocal] using words_of_polling hpoll
      rw [hpc]
      refine ⟨hk, hclean', ?_⟩
      rw [other_other]
      refine ⟨?_, ?_, ?_, fun _ => hnow⟩
      · simpa [Tlbs.irqStep, flushLocal] using hargs
      · intro hd
        have hd' : (s.cpu c).ipiDone = true := by simpa [Tlbs.irqStep, flushLocal] using hd
        rw [(hack hd').2.1] at hirq
        cases hirq
      · intro _
        simpa [Tlbs.irqStep, flushLocal] using hpend hserving
  | finish =>
    refine h.ofIrq (c := c) heff ?_ ?_ hpoll hask rfl ?_
    · simp [Tlbs.irqStep]
    · simp [Tlbs.irqStep]
    · have hnow := (hflushed hirq).step hk heff
      rw [hpc]
      refine ⟨hk, hclean', ?_⟩
      rw [other_other]
      refine ⟨?_, fun _ => ⟨?_, ?_, hnow⟩, ?_, ?_⟩
      · simpa [Tlbs.irqStep] using hargs
      · simpa [Tlbs.irqStep] using hpend hserving
      all_goals simp [Tlbs.irqStep]

theorem Inv.serve (h : s.Inv) (hirq : (s.cpu c).irq = none)
    (hpoll : (s.cpu c).pc.polling = true) (hpend : (s.cpu c).ipiPending = true) :
    (s.upd c (fun x => { x with ipiPending := false, irq := some .flush })).Inv := by
  have heff : TlbEffect s (s.upd c (fun x => { x with ipiPending := false, irq := some .flush })) :=
    TlbCase.effect (.serve c hirq hpoll hpend)
  have hask := h.asked c (.inl hpend)
  obtain ⟨x, _, _, hpc⟩ := waiting_some hask
  have hway := h.onWay (other c)
  rw [hpc] at hway
  obtain ⟨hk, hclean, hargs, hack, _⟩ := hway
  rw [other_other] at hargs hack
  refine h.ofIrq (c := c) heff ?_ ?_ hpoll hask rfl ?_
  · simp
  · simp
  · rw [hpc]
    refine ⟨hk, hclean.step hk heff, ?_⟩
    rw [other_other]
    refine ⟨by simpa using hargs, fun hd => ?_, by simp, by simp⟩
    have hd' : (s.cpu c).ipiDone = true := by simpa using hd
    rw [(hack hd').1] at hpend
    cases hpend

theorem Inv.step (h : s.Inv) (hcase : TlbCase s s') : s'.Inv := by
  have heff := hcase.effect
  cases hcase with
  | move c pc pm lock hirq hold hnew _ =>
    refine h.ofMove (c := c) heff hirq hold ?_ ?_ rfl ?_
    · simp [goto, TlbCpu.port]
    · simp [goto]
    · simp only [goto, cpu_upd_self]
      exact onWay_of_plain hnew
  | store c x back pm hirq hold =>
    refine h.ofMove (c := c) heff hirq hold ?_ ?_ rfl ?_
    · simp [goto, stored, TlbCpu.port]
    · simp [goto, stored]
    · simp only [goto, cpu_upd_self]
      exact le_refl _
  | refillFlush c r hirq hold =>
    refine h.ofMove (c := c) heff hirq hold ?_ ?_ rfl ?_
    · simp [goto, flushLocal, TlbCpu.port]
    · simp [goto, flushLocal]
    · simp only [goto, cpu_upd_self]
      trivial
  | install c r lo0 lo1 stamp hirq hpc =>
    refine h.ofMove (c := c) heff hirq (by rw [hpc]; rfl) ?_ ?_ rfl ?_
    · simp [goto, TlbCpu.port]
    · simp [goto]
    · simp only [goto, cpu_upd_self]
      cases r.home <;> trivial
  | call c x p back hirq hpc s' hp hstep => exact h.callStep hirq hpc hp hstep
  | irq c p hirq => exact h.irqStep hirq
  | serve c hirq hpoll hpend => exact h.serve hirq hpoll hpend
  | evict c =>
    refine h.ofSame heff (fun d => ?_) (fun d => ?_) rfl
    all_goals rcases eq_or_eq_other c d with rfl | rfl
    all_goals simp [TlbCpu.port]
  | other => exact h.ofSame heff (fun _ => rfl) (fun _ => rfl) rfl

end Tlbs

/-- Both CPUs are ready and in the kernel, with any TLB contents; nothing has
been stored yet. -/
def tlbs (memsize : Word) : Machine (Tlbs (npage memsize)) (TlbLabel (npage memsize)) where
  init s := (∀ c, (s.cpu c).pc = .kernel ∧ (s.cpu c).irq = none ∧ (s.cpu c).ipiPending = false ∧
      ∀ e ∈ (s.cpu c).tlb, e.note = 0) ∧ s.pmapLock = none ∧ s.stores = 0 ∧ s.returned = []
  step := Tlbs.exec

/-- In every state, no TLB holds an entry for a call that has returned with a
word from before the store of that call. -/
theorem shootdown_complete {memsize : Word} {s : Tlbs (npage memsize)}
    (h : (tlbs memsize).Reachable s) : s.Complete := by
  have hinv : s.Inv := by
    apply h.invariant
    · intro s hs
      obtain ⟨hcpu, _, _, hret⟩ := hs
      refine ⟨fun c => ?_, fun c hne => ?_, fun c hask => ?_, fun hi k hmem => ?_⟩
      · rw [(hcpu c).1]
        trivial
      · exact absurd (hcpu c).2.1 hne
      · rw [(hcpu c).2.1, (hcpu c).2.2.1] at hask
        rcases hask with hask | hask
        · cases hask
        · exact absurd rfl hask
      · rw [hret] at hmem
        cases hmem
    · intro s l s' _ hinv _ hstep
      exact hinv.step (Tlbs.exec_cases hstep)
  exact hinv.complete

/-- Page 6 is mapped at `0x400000` in the directory in page 7, with its table
in page 5. -/
def mappedOnce : Pmap (npage 0x8000) where
  ppRef := fun p => if 5 ≤ p.val then 1 else 0
  pageFreeList := Links.empty
  mem := fun p i =>
    if p.val = 7 ∧ i = 1 then 0x5680 else if p.val = 5 ∧ i = 0 then 0x6780 else 0

def twoCpus : Tlbs (npage 0x8000) where
  pm := mappedOnce
  pmapLock := none
  cpu := fun _ => ⟨[], .kernel, none, false, true, (0, 0)⟩
  stores := 0
  returned := []

/-- CPU 1 has read the first word of the entry when CPU 0 removes the page,
and installs the entry while CPU 0 waits for it. -/
def staleInstall : List (TlbLabel (npage 0x8000)) :=
  [.miss 1 (Fin.last 7) 0x400000 3, .step 1, .step 1, .step 1,
   .call 0 (.pageRemove (Fin.last 7) 3 0x400000), .step 0, .step 0, .step 0, .step 0,
   .step 1, .step 1, .eret 1, .serve 1, .step 1, .step 1, .step 0]

theorem shootdown_complete_staleInstall : ∃ s : Tlbs (npage 0x8000), (tlbs 0x8000).Reachable s ∧
      (s.returned = [(entryHi 3 0x400000, 1)] ∧ (s.cpu 1).tlb.length = 0) ∧ s.Complete := by
  have hstart : (tlbs 0x8000).Reachable twoCpus := by
    refine .init ⟨fun c => ⟨rfl, rfl, rfl, fun e he => ?_⟩, rfl, rfl, rfl⟩
    cases he
  obtain ⟨s, hs, hdone⟩ := Machine.exists_reachableUnder_of_exec
    (P := fun s : Tlbs (npage 0x8000) =>
      s.returned = [(entryHi 3 0x400000, 1)] ∧ (s.cpu 1).tlb.length = 0)
    staleInstall hstart (by decide +kernel)
  exact ⟨s, hs, hdone, shootdown_complete hs⟩

end MosSmp
