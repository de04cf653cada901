import MosSmp.Env.Syscall
import MosSmp.Pmap.Frames

/-!
The system calls that map pages: `sys_mem_alloc`, `sys_mem_map`,
`sys_mem_unmap` and the page transfer of `sys_ipc_try_send`, over the page
layer and the environment blocks. User mappings are meant to be confined: an
environment maps only pages that a call has given to it, never kernel memory,
a directory or a table.

Calls run one after another here, each to its end. The argument `perm` reaches
`page_insert` as the user passes it, and the entry is the page's address with
all bits of `perm` added. Bits of `perm` above the low twelve therefore change
the address in the entry. `LowPerm` is the
condition that calls pass permission bits only, while no counter is about to
overflow; under it mappings are confined in every state.

Two records are not kernel state. `grants` says to which environments a page
has been given since it was last allocated, and `stored` lists the entries
that `page_insert` has stored, each with the page it was called with.
-/

namespace MosSmp

open Lib Function

theorem lowTen_val (w : Word) : (lowTen w).val = w.toNat % 1024 := by
  show (w &&& 0x3ff#32).toNat = _
  exact Nat.and_two_pow_sub_one_eq_mod w.toNat 10

theorem pdx_val (va : Word) : (pdx va).val = va.toNat / 2 ^ 22 := by
  unfold pdx
  rw [lowTen_val, BitVec.toNat_ushiftRight, Nat.shiftRight_eq_div_pow]
  omega

theorem ptx_val (va : Word) : (ptx va).val = va.toNat / 2 ^ 12 % 1024 := by
  unfold ptx
  rw [lowTen_val, BitVec.toNat_ushiftRight, Nat.shiftRight_eq_div_pow]

theorem pdx_utop : (pdx UTOP).val = 509 ∧ (pdx UVPT).val = 511 := by decide

/-- A legal user address lies in the part of a directory below `UTOP`. -/
theorem pdx_lt_utop {va : Word} (h : isIllegalVa va = false) : pdx va < pdx UTOP := by
  rw [Fin.lt_def, pdx_utop.1, pdx_val]
  have hlt : va.toNat < UTOP.toNat := by
    unfold isIllegalVa at h
    simp only [Bool.or_eq_false_iff, decide_eq_false_iff_not, BitVec.not_le, BitVec.lt_def] at h
    exact h.2
  have htop : UTOP.toNat = 509 * 2 ^ 22 := by decide
  omega

theorem Kern.envIpcDstva_recvSection (k : Kern) (cur e : EnvIdx) (dstva : Word) :
    ((k.recvSection cur dstva).envs e).envIpcDstva =
      if e = cur then dstva else (k.envs e).envIpcDstva := by
  unfold Kern.recvSection
  rw [Kern.envs_updEnv]
  split <;> rfl

theorem Kern.envIpcDstva_updEnv {k : Kern} {f : Env → Env} (e e' : EnvIdx)
    (h : ∀ x, (f x).envIpcDstva = x.envIpcDstva) :
    ((k.updEnv e f).envs e').envIpcDstva = (k.envs e').envIpcDstva := by
  rw [Kern.envs_updEnv]
  split
  · next he => rw [he, h]
  · rfl

structure MemSys (n : Nat) where
  kern : Kern
  pm : Pmap n
  /-- Pages below this index hold the kernel and its arrays. -/
  freemem : Nat
  /-- `base_pgdir`, the template of every directory above `UTOP`. -/
  basePgdir : Page n
  /-- Directories that belong to no environment. -/
  sysDirs : Page n → Bool
  /-- `env_pgdir`, or nothing before `env_setup_vm`. -/
  pgdir : EnvIdx → Option (Page n)
  own : Page n → Nat
  grants : EnvIdx → Page n → Bool
  stored : List (Page n × Word)

inductive MemCall
  | setupVm (e : EnvIdx)
  | memAlloc (cur : EnvIdx) (envid va perm : Word)
  | memMap (cur : EnvIdx) (srcid srcva dstid dstva perm : Word)
  | memUnmap (cur : EnvIdx) (envid va : Word)
  | ipcRecv (cur : EnvIdx) (dstva : Word)
  | ipcTrySend (cur : EnvIdx) (envid value srcva perm : Word)

/-- The word in the table entry for `va`, as the kernel reads it. -/
def Pmap.entryAt {n : Nat} (m : Pmap n) (pgdir : Page n) (va : Word) : Word :=
  match m.pgdirWalk pgdir va false with
  | some (.ok (some pte), _) => m.read pte
  | _ => 0

namespace MemSys

variable {n : Nat}

/-- The directory entries that are used by one directory only: all of them
in a system directory, those below `UTOP` in that of an environment. -/
def user (s : MemSys n) (d : Page n) (i : Idx) : Bool :=
  s.sysDirs d || (decide (∃ e, s.pgdir e = some d) && decide (i < pdx UTOP))

def tableAt (s : MemSys n) (d : Page n) (i : Idx) : Option (Page n) :=
  s.pm.tableAt s.user d i

def pageAt (s : MemSys n) (d : Page n) (i j : Idx) : Option (Page n) :=
  s.pm.pageAt s.user d i j

/-- The contents of a new directory. -/
def template (s : MemSys n) (p : Page n) (i : Idx) : Word :=
  if pdx UTOP ≤ i ∧ i < pdx UVPT then s.pm.mem s.basePgdir i
  else if i = pdx UVPT then page2pa p ||| PTE_V
  else 0

/-- `env_setup_vm`. -/
def envSetupVm (s : MemSys n) (e : EnvIdx) : Except Err Unit × MemSys n :=
  match s.pm.pageAlloc with
  | .error err => (.error err, s)
  | .ok (p, m) => (.ok (), { s with
      pm := { m.incref p with mem := update m.mem p (s.template p) }
      pgdir := update s.pgdir e (some p)
      own := update s.own p (s.own p + 1) })

/-- `page_insert` into the directory of `e`. -/
def insertInto (s : MemSys n) (e : EnvIdx) (pp : Page n) (va perm : Word) :
    Option (Except Err Unit × MemSys n) :=
  match s.pgdir e with
  | none => none
  | some d =>
    match s.pm.pageInsert d pp va perm with
    | none => none
    | some (.error err, m) => some (.error err, { s with pm := m })
    | some (.ok _, m) => some (.ok (), { s with
        pm := m
        grants := update s.grants e (update (s.grants e) pp true)
        stored := (pp, m.entryAt d va) :: s.stored })

/-- `page_lookup` in the directory of `e`. -/
def lookupIn (s : MemSys n) (e : EnvIdx) (va : Word) : Option (Option (Page n)) :=
  match s.pgdir e with
  | none => none
  | some d => (s.pm.pageLookup d va).map (fun r => r.map Prod.fst)

def sysMemAlloc (s : MemSys n) (cur : EnvIdx) (envid va perm : Word) :
    Option (Except Err Unit × MemSys n) :=
  if isIllegalVa va then some (.error .inval, s)
  else
    match s.kern.envid2env cur envid true with
    | .error err => some (.error err, s)
    | .ok e =>
      match s.pm.pageAlloc with
      | .error err => some (.error err, s)
      | .ok (pp, m) =>
        -- A page that has just been allocated belongs to nobody else.
        insertInto { s with
          pm := m
          grants := fun e' p => s.grants e' p && decide (p ≠ pp) } e pp va perm

def sysMemMap (s : MemSys n) (cur : EnvIdx) (srcid srcva dstid dstva perm : Word) :
    Option (Except Err Unit × MemSys n) :=
  if isIllegalVa srcva || isIllegalVa dstva then some (.error .inval, s)
  else
    match s.kern.envid2env cur srcid true with
    | .error err => some (.error err, s)
    | .ok srcenv =>
      match s.kern.envid2env cur dstid true with
      | .error err => some (.error err, s)
      | .ok dstenv =>
        match s.lookupIn srcenv srcva with
        | none => none
        | some none => some (.error .inval, s)
        | some (some pp) => s.insertInto dstenv pp dstva perm

def sysMemUnmap (s : MemSys n) (cur : EnvIdx) (envid va : Word) :
    Option (Except Err Unit × MemSys n) :=
  if isIllegalVa va then some (.error .inval, s)
  else
    match s.kern.envid2env cur envid true with
    | .error err => some (.error err, s)
    | .ok e =>
      match s.pgdir e with
      | none => none
      | some d => (s.pm.pageRemove d va).map (fun m => (.ok (), { s with pm := m }))

def sysIpcRecv (s : MemSys n) (cur : EnvIdx) (dstva : Word) : Except Err Unit × MemSys n :=
  if dstva ≠ 0 ∧ isIllegalVa dstva = true then (.error .inval, s)
  else (.ok (), { s with kern := s.kern.recvSection cur dstva })

/-- The end of a successful `sys_ipc_try_send`. -/
def deliver (s : MemSys n) (cur e : EnvIdx) (value ipcPerm : Word) : MemSys n :=
  { s with
    kern := (s.kern.fillIpc e value (s.kern.envs cur).envId ipcPerm).wakeSection e }

def setRecving (s : MemSys n) (e : EnvIdx) (b : Bool) : MemSys n :=
  { s with kern := s.kern.setRecving e b }

def sysIpcTrySend (s : MemSys n) (cur : EnvIdx) (envid value srcva perm : Word) :
    Option (Except Err Unit × MemSys n) :=
  if srcva ≠ 0 ∧ isIllegalVa srcva = true then some (.error .inval, s)
  else
    match s.kern.envid2env cur envid false with
    | .error err => some (.error err, s)
    | .ok e =>
      if (s.kern.envs e).envIpcRecving = false then some (.error .ipcNotRecv, s)
      else
        let s := s.setRecving e false
        if srcva = 0 then some (.ok (), s.deliver cur e value 0)
        else
          match s.lookupIn cur srcva with
          | none => none
          | some none => some (.error .inval, s.setRecving e true)
          | some (some p) =>
            match s.insertInto e p (s.kern.envs e).envIpcDstva perm with
            | none => none
            | some (.error err, s) => some (.error err, s.setRecving e true)
            | some (.ok _, s) => some (.ok (), s.deliver cur e value (PTE_V ||| perm))

/-- What a call does; it has no result when the kernel panics, or when an
environment has no directory. -/
def exec (s : MemSys n) : MemCall → Option (MemSys n)
  | .setupVm e => if s.pgdir e = none then some (s.envSetupVm e).2 else none
  | .memAlloc cur envid va perm => (s.sysMemAlloc cur envid va perm).map Prod.snd
  | .memMap cur srcid srcva dstid dstva perm =>
    (s.sysMemMap cur srcid srcva dstid dstva perm).map Prod.snd
  | .memUnmap cur envid va => (s.sysMemUnmap cur envid va).map Prod.snd
  | .ipcRecv cur dstva => some (s.sysIpcRecv cur dstva).2
  | .ipcTrySend cur envid value srcva perm =>
    (s.sysIpcTrySend cur envid value srcva perm).map Prod.snd

/-- User mappings are confined. -/
structure Confined (s : MemSys n) : Prop where
  /-- Every entry that `page_insert` stored has the address of its page. -/
  stored : ∀ x ∈ s.stored, pteAddr x.2 = page2pa x.1
  /-- No environment maps kernel memory, a directory, a table, or a page that
  was not given to it. -/
  mapped : ∀ e d i j p, s.pgdir e = some d → i < pdx UTOP → s.pageAt d i j = some p →
    s.freemem ≤ p.val ∧ (s.sysDirs p = false ∧ ∀ e', s.pgdir e' ≠ some p) ∧
      (∀ d' i', s.tableAt d' i' ≠ some p) ∧ s.grants e p = true

/-- The call passes permission bits only, and no page has so many references
that one more overflows its counter. -/
def LowPerm (s : MemSys n) : MemCall → Prop
  | .memAlloc _ _ _ perm | .memMap _ _ _ _ _ perm | .ipcTrySend _ _ _ _ perm =>
    perm < 0x1000#32 ∧ ∀ p, (s.pm.ppRef p).toNat < 65535
  | _ => True

instance (s : MemSys n) : (call : MemCall) → Decidable (s.LowPerm call)
  | .memAlloc _ _ _ _ | .memMap _ _ _ _ _ _ | .ipcTrySend _ _ _ _ _ =>
    inferInstanceAs (Decidable (_ ∧ ∀ _, _))
  | .setupVm _ | .memUnmap _ _ _ | .ipcRecv _ _ => inferInstanceAs (Decidable True)

variable {s s' : MemSys n} {e cur : EnvIdx} {d p pp : Page n} {i j : Idx}
variable {envid va perm : Word}

/-- The invariant behind `Confined`. A mapped page has no owner outside the
tables, which tells it from kernel memory and from directories. -/
structure Inv (s : MemSys n) : Prop where
  acc : s.pm.Accounted s.user s.own
  boot : ∀ p, p.val < s.freemem → 0 < s.own p
  apart : ∀ e e' d, s.pgdir e = some d → s.pgdir e' = some d → e = e'
  mapped : ∀ e d i j p, s.pgdir e = some d → i < pdx UTOP → s.pageAt d i j = some p →
    s.own p = 0 ∧ (∀ d' i', s.tableAt d' i' ≠ some p) ∧ s.grants e p = true
  dstva : ∀ e, pdx (s.kern.envs e).envIpcDstva < pdx UTOP
  stored : ∀ x ∈ s.stored, pteAddr x.2 = page2pa x.1

theorem user_of_pgdir (h : s.pgdir e = some d) (hi : i < pdx UTOP) : s.user d i = true := by
  unfold user
  have hex : ∃ e, s.pgdir e = some d := ⟨e, h⟩
  simp [hex, hi]

theorem user_dir (h : s.pgdir e = some d) : s.user d 0 = true :=
  user_of_pgdir h (by decide)

theorem Inv.confined (hinv : s.Inv) : s.Confined := by
  refine ⟨hinv.stored, fun e d i j p hd hi hp => ?_⟩
  obtain ⟨_, htab, hgrant⟩ := hinv.mapped e d i j p hd hi hp
  refine ⟨?_, ⟨?_, ?_⟩, htab, hgrant⟩
  · by_contra hlt
    have hpos := hinv.boot p (by omega)
    omega
  · by_contra hsys
    have hu : s.user p 0 = true := by
      unfold user
      simp [Bool.eq_true_of_not_eq_false hsys]
    have hpos := hinv.acc.dirs p 0 hu
    omega
  · intro e' he'
    have hpos := hinv.acc.dirs p 0 (user_of_pgdir he' (by decide))
    omega

/-- The entry read after a store is the stored one. -/
theorem entryAt_of_stores {m : Pmap n} {user : Page n → Idx → Bool} {own : Page n → Nat}
    {w : Word} (h : m.Accounted user own) (hu : user d (pdx va) = true)
    (hs : m.Stores user d va w) : m.entryAt d va = w := by
  obtain ⟨_, ht, hw⟩ := hs
  unfold Pmap.entryAt
  rw [h.walk hu, ht]
  exact hw

theorem granted_update {grants : EnvIdx → Page n → Bool} {e' : EnvIdx}
    (h : grants e' p = true ∨ e' = e ∧ p = pp) :
    update grants e (update (grants e) pp true) e' p = true := by
  rw [update_apply]
  by_cases he : e' = e
  · subst he
    rw [if_pos rfl, update_apply]
    rcases h with hg | ⟨_, hpp⟩
    · rw [hg]
      split <;> rfl
    · rw [if_pos hpp]
  · rw [if_neg he]
    rcases h with hg | ⟨he', _⟩
    · exact hg
    · exact absurd he' he

variable {r : Except Err Unit}

/-- A new directory is private below `UTOP`. -/
theorem user_setupVm (hnone : s.pgdir e = none) (hunused : ∀ i, s.user p i = false)
    (m : Pmap n) (own : Page n → Nat) :
    user { s with pm := m, pgdir := update s.pgdir e (some p), own := own } =
      update s.user p (fun i => decide (i < pdx UTOP)) := by
  funext d i
  have hiff : (∃ e', update s.pgdir e (some p) e' = some d) ↔
      d = p ∨ ∃ e', s.pgdir e' = some d := by
    constructor
    · rintro ⟨e', he'⟩
      rw [update_apply] at he'
      split at he'
      · exact .inl (Option.some.inj he').symm
      · exact .inr ⟨e', he'⟩
    · rintro (rfl | ⟨e', he'⟩)
      · exact ⟨e, update_self ..⟩
      · refine ⟨e', ?_⟩
        have hne : e' ≠ e := by
          rintro rfl
          rw [hnone] at he'
          cases he'
        rw [update_of_ne hne, he']
  have hvalue : user { s with pm := m, pgdir := update s.pgdir e (some p), own := own }
      d i = (s.sysDirs d || decide (d = p ∨ ∃ e', s.pgdir e' = some d) && decide (i < pdx UTOP)) :=
    congrArg (fun b => s.sysDirs d || b && decide (i < pdx UTOP)) (decide_eq_decide.mpr hiff)
  rw [hvalue]
  by_cases hd : d = p
  · have hsys : s.sysDirs d = false := by
      have h := hunused i
      rw [← hd] at h
      exact (Bool.or_eq_false_iff.mp h).1
    rw [hd, update_self, ← hd]
    simp [hsys]
  · rw [update_of_ne hd]
    simp [user, hd]

theorem template_below (hi : i < pdx UTOP) : s.template p i = 0 := by
  have htop : pdx UTOP < pdx UVPT := by decide
  unfold template
  rw [if_neg (fun h => absurd h.1 (not_le.mpr hi)), if_neg (ne_of_lt (hi.trans htop))]

/-- A directory that has just been made is accounted for, and refers to
nothing. -/
theorem accounted_setupVm {m : Pmap n} (hacc : s.pm.Accounted s.user s.own)
    (hnone : s.pgdir e = none) (ha : s.pm.pageAlloc = .ok (p, m)) :
    let s' : MemSys n := { s with
      pm := { m.incref p with mem := update m.mem p (s.template p) }
      pgdir := update s.pgdir e (some p)
      own := update s.own p (s.own p + 1) }
    s'.pm.Accounted s'.user s'.own ∧ s'.pm.slots s'.user = s.pm.slots s.user := by
  obtain ⟨_, hfree, _⟩ := hacc.pageAlloc ha
  obtain ⟨hdir, _⟩ := hacc.unused_of_free hfree
  have hblank : ∀ i, decide (i < pdx UTOP) = true →
      pteValid (update m.mem p (s.template p) p i) = false := by
    intro i hi
    rw [update_self, template_below (of_decide_eq_true hi)]
    exact pteValid_zero
  have href : ({ m.incref p with mem := update m.mem p (s.template p) } :
      Pmap n).ppRef = (m.incref p).ppRef := rfl
  have hnew := hacc.newDir ha href rfl (fun q hq => update_of_ne hq _ _) hblank
  rw [← user_setupVm hnone hdir { m.incref p with mem := update m.mem p (s.template p) }
    (update s.own p (s.own p + 1))] at hnew
  exact hnew

theorem pgdir_setupVm {e' : EnvIdx} (hd : update s.pgdir e (some p) e' = some d) :
    e' = e ∧ d = p ∨ s.pgdir e' = some d := by
  rw [update_apply] at hd
  split at hd
  · next he => exact .inl ⟨he, (Option.some.inj hd).symm⟩
  · exact .inr hd

section

variable (hinv : s.Inv)
include hinv

/-- Calls that change only the environment blocks. -/
theorem Inv.ofKern {k : Kern} (hdst : ∀ e, pdx (k.envs e).envIpcDstva < pdx UTOP) :
    Inv { s with kern := k } :=
  ⟨hinv.acc, hinv.boot, hinv.apart, hinv.mapped, hdst, hinv.stored⟩

theorem Inv.ofKern_same {k : Kern}
    (hdst : ∀ e, (k.envs e).envIpcDstva = (s.kern.envs e).envIpcDstva) :
    Inv { s with kern := k } := by
  refine hinv.ofKern fun e => ?_
  rw [hdst e]
  exact hinv.dstva e

/-- A page that an environment maps may be mapped again. -/
theorem Inv.lookupIn (hva : pdx va < pdx UTOP) (hrun : s.lookupIn e va = some (some pp)) :
    s.own pp = 0 ∧ (∀ d i, s.tableAt d i ≠ some pp) ∧ ¬ s.pm.Free pp := by
  unfold MemSys.lookupIn at hrun
  split at hrun
  · cases hrun
  · next d hd =>
    have hu := user_of_pgdir hd hva
    rcases hinv.acc.pageLookup hu with ⟨hlook, _⟩ | ⟨p, _, hlook, _, hp⟩
    · rw [hlook] at hrun
      cases hrun
    · rw [hlook] at hrun
      obtain rfl : p = pp := by simpa using hrun
      obtain ⟨hown, htab, _⟩ := hinv.mapped e d _ _ p hd hva hp
      exact ⟨hown, htab, hinv.acc.not_free_of_slot (x := .inr (_, _, _)) hp⟩

/-- A page that was just allocated has no owner and is not in use. -/
theorem Inv.allocated {m : Pmap n} (ha : s.pm.pageAlloc = .ok (pp, m)) :
    Inv { s with pm := m, grants := fun e' p => s.grants e' p && decide (p ≠ pp) } ∧
      s.own pp = 0 ∧ (∀ d i, m.tableAt s.user d i ≠ some pp) ∧ ¬ m.Free pp ∧
      m.ppRef pp = 0 := by
  obtain ⟨hacc, hfree, href, hslots, _, _, hiff⟩ := hinv.acc.pageAlloc ha
  obtain ⟨_, hunused⟩ := hinv.acc.unused_of_free hfree
  have hzero : s.pm.ppRef pp = 0 := hinv.acc.idle pp hfree
  have hown : s.own pp = 0 := by
    by_contra hpos
    exact hinv.acc.not_free_of_own (p := pp) (by omega) hfree
  have htable : ∀ d i, m.tableAt s.user d i = s.tableAt d i := by
    intro d i
    rw [← Pmap.slots_inl, hslots]
    rfl
  refine ⟨⟨hacc, hinv.boot, hinv.apart, ?_, hinv.dstva, hinv.stored⟩, hown, ?_, ?_, ?_⟩
  · intro e d i j p hd hi hp
    have hp' : s.pageAt d i j = some p := by
      unfold MemSys.pageAt
      rw [← Pmap.slots_inr, ← hslots]
      exact hp
    obtain ⟨h1, h2, h3⟩ := hinv.mapped e d i j p hd hi hp'
    refine ⟨h1, fun d' i' ht => h2 d' i' ((htable d' i').symm.trans ht), ?_⟩
    have hne : p ≠ pp := by
      rintro rfl
      exact hunused (.inr (d, i, j)) hp'
    simp [h3, hne]
  · intro d i ht
    exact hunused (.inl (d, i)) ((htable d i).symm.trans ht)
  · exact fun hq => ((hiff pp).mp hq).1 rfl
  · rw [href, hzero]

theorem Inv.memUnmap_step (hrun : s.sysMemUnmap cur envid va = some (r, s')) : s'.Inv := by
  unfold sysMemUnmap at hrun
  split at hrun
  · cases hrun
    exact hinv
  · next hva =>
    split at hrun
    · cases hrun
      exact hinv
    · next e _ =>
      split at hrun
      · cases hrun
      · next d hd =>
        have hu := user_of_pgdir hd (pdx_lt_utop (by simpa using hva))
        obtain ⟨_, hremove, hacc, htables, hpages⟩ := hinv.acc.pageRemove hu
        rw [hremove] at hrun
        cases hrun
        refine ⟨hacc, hinv.boot, hinv.apart, ?_, hinv.dstva, hinv.stored⟩
        intro e' d' i' j' p hd' hi' hp
        obtain ⟨h1, h2, h3⟩ := hinv.mapped e' d' i' j' p hd' hi' (hpages d' i' j' p hp)
        exact ⟨h1, fun d'' i'' ht => h2 d'' i'' ((htables d'' i'').symm.trans ht), h3⟩

theorem Inv.ipcRecv_step {dstva : Word} : Inv (s.sysIpcRecv cur dstva).2 := by
  unfold sysIpcRecv
  split
  · exact hinv
  · next hva =>
    refine hinv.ofKern fun e => ?_
    rw [Kern.envIpcDstva_recvSection]
    split
    · -- The address is legal, or it is zero and no page is wanted.
      by_cases hzero : dstva = 0
      · rw [hzero]
        decide
      · apply pdx_lt_utop
        rw [not_and, Bool.not_eq_true] at hva
        exact hva hzero
    · exact hinv.dstva e

theorem Inv.setRecving {b : Bool} : Inv (s.setRecving e b) :=
  hinv.ofKern_same fun e' => Kern.envIpcDstva_updEnv e e' fun _ => rfl

theorem Inv.deliver {value ipcPerm : Word} : Inv (s.deliver cur e value ipcPerm) := by
  refine hinv.ofKern_same fun e' => ?_
  unfold Kern.wakeSection Kern.fillIpc
  rw [Kern.envIpcDstva_updEnv, Kern.envIpcDstva_updEnv] <;> intro x <;> rfl

theorem Inv.setupVm_step (hnone : s.pgdir e = none) : Inv (s.envSetupVm e).2 := by
  unfold envSetupVm
  split
  · exact hinv
  · next p m ha =>
    obtain ⟨_, hfree, _⟩ := hinv.acc.pageAlloc ha
    obtain ⟨hdir, hunused⟩ := hinv.acc.unused_of_free hfree
    obtain ⟨hacc, hslots⟩ := accounted_setupVm hinv.acc hnone ha
    have hne : ∀ e', s.pgdir e' ≠ some p := by
      intro e' he'
      have hu := user_dir he'
      rw [hdir 0] at hu
      cases hu
    refine ⟨hacc, ?_, ?_, ?_, hinv.dstva, hinv.stored⟩
    · intro q hq
      have hpos := hinv.boot q hq
      show 0 < update s.own p (s.own p + 1) q
      rw [update_apply]
      split <;> omega
    · intro e₁ e₂ d h₁ h₂
      rcases pgdir_setupVm h₁ with ⟨rfl, rfl⟩ | h₁ <;>
        rcases pgdir_setupVm h₂ with ⟨he₂, hd₂⟩ | h₂
      · exact he₂.symm
      · exact absurd h₂ (hne e₂)
      · rw [hd₂] at h₁
        exact absurd h₁ (hne e₁)
      · exact hinv.apart e₁ e₂ d h₁ h₂
    · intro e' d i j q hd hi hq
      have hslot : s.pm.slots s.user (.inr (d, i, j)) = some q := by
        rw [← hslots]
        exact hq
      have hne' : q ≠ p := by
        rintro rfl
        exact hunused _ hslot
      rcases pgdir_setupVm hd with ⟨_, rfl⟩ | hd
      · -- Nothing is mapped through a directory that has just been made.
        have hnone' : s.pm.pageAt s.user d i j = none := by
          apply Pmap.pageAt_of_no_table
          unfold Pmap.tableAt
          rw [hdir i]
          rfl
        rw [Pmap.slots_inr, hnone'] at hslot
        cases hslot
      · obtain ⟨h1, h2, h3⟩ := hinv.mapped e' d i j q hd hi hslot
        refine ⟨?_, fun d' i' ht => ?_, h3⟩
        · show update s.own p (s.own p + 1) q = 0
          rw [update_of_ne hne', h1]
        · refine h2 d' i' ?_
          unfold tableAt
          rw [← Pmap.slots_inl, ← hslots]
          exact ht

end

section

variable (hn : n ≤ 2 ^ 20) (hinv : s.Inv)
include hn hinv

/-- `page_insert` into the directory of an environment, of a page that may be
mapped. -/
theorem Inv.insertInto (hva : pdx va < pdx UTOP) (hperm : perm < 0x1000#32) (hown : s.own pp = 0)
    (htab : ∀ d i, s.tableAt d i ≠ some pp) (hfree : ¬ s.pm.Free pp)
    (href : (s.pm.ppRef pp).toNat < 65535) (hrun : s.insertInto e pp va perm = some (r, s')) :
    s'.Inv ∧ s'.kern = s.kern := by
  unfold MemSys.insertInto at hrun
  split at hrun
  · cases hrun
  · next d hd =>
    have hu := user_of_pgdir hd hva
    have hfits := pteAddr_mapEntry_of_lt pp hperm
    obtain ⟨r', m', hins, hacc, hch, hout⟩ := hinv.acc.pageInsert hn hu hfits hfree (.inl href)
    rw [hins] at hrun
    rcases hout with ⟨rfl, hst⟩ | ⟨rfl, rfl⟩
    · cases hrun
      refine ⟨⟨hacc, hinv.boot, hinv.apart, ?_, hinv.dstva, ?_⟩, rfl⟩
      · intro e' d' i' j' p hd' hi' hp
        have hp' : m'.pageAt s.user d' i' j' = some p := hp
        have hold : s.own p = 0 ∧ (∀ d i, s.tableAt d i ≠ some p) ∧ ¬ s.pm.Free p ∧
            (s.grants e' p = true ∨ e' = e ∧ p = pp) := by
          rcases hch.pages d' i' j' with hsame | ⟨rfl, rfl, rfl, hnone | hnew⟩
          · rw [hsame] at hp'
            obtain ⟨h1, h2, h3⟩ := hinv.mapped e' d' i' j' p hd' hi' hp'
            refine ⟨h1, h2, ?_, .inl h3⟩
            exact hinv.acc.not_free_of_slot (x := .inr (d', i', j')) hp'
          · rw [hnone] at hp'
            cases hp'
          · cases hnew.symm.trans hp'
            exact ⟨hown, htab, hfree, .inr ⟨hinv.apart e' e d' hd' hd, rfl⟩⟩
        obtain ⟨hown', htab', hfree', hgrant⟩ := hold
        refine ⟨hown', fun d'' i'' ht => ?_, ?_⟩
        · rcases hch.tables d'' i'' p ht with hsame | ⟨hf, _⟩
          · exact htab' d'' i'' hsame
          · exact hfree' hf
        · exact granted_update hgrant
      · intro x hx
        rcases List.mem_cons.mp hx with rfl | hx
        · rw [entryAt_of_stores hacc hu hst]
          exact hfits
        · exact hinv.stored x hx
    · cases hrun
      exact ⟨hinv, rfl⟩

theorem Inv.memAlloc_step (hperm : perm < 0x1000#32)
    (hrun : s.sysMemAlloc cur envid va perm = some (r, s')) : s'.Inv := by
  unfold sysMemAlloc at hrun
  split at hrun
  · cases hrun
    exact hinv
  · next hva =>
    split at hrun
    · cases hrun
      exact hinv
    · next e _ =>
      split at hrun
      · cases hrun
        exact hinv
      · next pp m ha =>
        obtain ⟨hinv', hown, htab, hfree, href⟩ := hinv.allocated ha
        have hlt : pdx va < pdx UTOP := pdx_lt_utop (by simpa using hva)
        exact (hinv'.insertInto hn hlt hperm hown htab hfree
          (by show (m.ppRef pp).toNat < 65535; rw [href]; decide) hrun).1

section

variable (hperm : perm < 0x1000#32) (href : ∀ p, (s.pm.ppRef p).toNat < 65535)
include hperm href

theorem Inv.memMap_step {srcid srcva dstid dstva : Word}
    (hrun : s.sysMemMap cur srcid srcva dstid dstva perm = some (r, s')) : s'.Inv := by
  unfold sysMemMap at hrun
  split at hrun
  · cases hrun
    exact hinv
  · next hva =>
    obtain ⟨hsrc, hdst⟩ : isIllegalVa srcva = false ∧ isIllegalVa dstva = false := by
      simpa using hva
    split at hrun
    · cases hrun
      exact hinv
    · next srcenv _ =>
      split at hrun
      · cases hrun
        exact hinv
      · next dstenv _ =>
        split at hrun
        · cases hrun
        · cases hrun
          exact hinv
        · next pp hlook =>
          obtain ⟨hown, htab, hfree⟩ := hinv.lookupIn (pdx_lt_utop hsrc) hlook
          exact (hinv.insertInto hn (pdx_lt_utop hdst) hperm hown htab hfree (href pp) hrun).1

theorem Inv.ipcTrySend_step {value srcva : Word}
    (hrun : s.sysIpcTrySend cur envid value srcva perm = some (r, s')) : s'.Inv := by
  unfold sysIpcTrySend at hrun
  split at hrun
  · cases hrun
    exact hinv
  · next hva =>
    split at hrun
    · cases hrun
      exact hinv
    · next e _ =>
      split at hrun
      · cases hrun
        exact hinv
      · have htaken : Inv (s.setRecving e false) := hinv.setRecving
        dsimp only at hrun
        split at hrun
        · cases hrun
          exact htaken.deliver
        · next hsrc =>
          rw [not_and, Bool.not_eq_true] at hva
          have hlegal := hva hsrc
          split at hrun
          · cases hrun
          · cases hrun
            exact htaken.setRecving
          · next p hlook =>
            obtain ⟨hown, htab, hfree⟩ := htaken.lookupIn (pdx_lt_utop hlegal) hlook
            have hins : ∀ r' s₁, (s.setRecving e false).insertInto e p
                ((s.setRecving e false).kern.envs e).envIpcDstva perm = some (r', s₁) →
                s₁.Inv := fun r' s₁ h =>
              (htaken.insertInto hn (htaken.dstva e) hperm hown htab hfree (href p) h).1
            split at hrun <;> cases hrun
            · next err s₁ h =>
              exact (hins _ _ h).setRecving
            · next s₁ h =>
              exact (hins _ _ h).deliver

end

/-- Every call with permission bits only keeps the invariant. -/
theorem Inv.step {call : MemCall} (hok : s.LowPerm call) (hstep : s.exec call = some s') :
    s'.Inv := by
  cases call with
  | setupVm =>
    simp only [exec] at hstep
    split at hstep <;> cases hstep
    next hnone =>
    exact hinv.setupVm_step hnone
  | memAlloc =>
    obtain ⟨⟨r, s₁⟩, hrun, rfl⟩ := Option.map_eq_some_iff.mp hstep
    exact hinv.memAlloc_step hn hok.1 hrun
  | memMap =>
    obtain ⟨⟨r, s₁⟩, hrun, rfl⟩ := Option.map_eq_some_iff.mp hstep
    exact hinv.memMap_step hn hok.1 hok.2 hrun
  | memUnmap =>
    obtain ⟨⟨r, s₁⟩, hrun, rfl⟩ := Option.map_eq_some_iff.mp hstep
    exact hinv.memUnmap_step hrun
  | ipcRecv =>
    cases hstep
    exact hinv.ipcRecv_step
  | ipcTrySend =>
    obtain ⟨⟨r, s₁⟩, hrun, rfl⟩ := Option.map_eq_some_iff.mp hstep
    exact hinv.ipcTrySend_step hn hok.1 hok.2 hrun

end

end MemSys

/-- The calls over a page layer in any state that the kernel has brought it
to while it still owns its own pages, before any environment has a
directory. -/
def memCalls (memsize : Word) : Machine (MemSys (npage memsize)) MemCall where
  init s := ∃ f : Frames (npage memsize), (frames memsize).ReachableUnder Frames.Allowed f ∧
    s.pm = f.pm ∧ s.sysDirs = f.dirs ∧ s.own = f.own ∧ (∀ e, s.pgdir e = none) ∧
    (∀ p, p.val < s.freemem → 0 < f.own p) ∧
    (∀ e, isIllegalVa (s.kern.envs e).envIpcDstva = true → (s.kern.envs e).envIpcDstva = 0) ∧
    s.stored = []
  step := MemSys.exec

theorem MemSys.Inv.start {memsize : Word} {s : MemSys (npage memsize)}
    (h : (memCalls memsize).init s) : s.Inv := by
  obtain ⟨f, hf, hpm, hdirs, hown, hnone, hboot, hdst, hstored⟩ := h
  have huser : s.user = f.user := by
    funext d i
    have hno : ¬ ∃ e, s.pgdir e = some d := by
      rintro ⟨e, he⟩
      rw [hnone e] at he
      cases he
    unfold MemSys.user Frames.user
    simp [hno, hdirs]
  refine ⟨?_, ?_, ?_, ?_, ?_, ?_⟩
  · rw [huser, hpm, hown]
    exact Frames.inv_of_allowed hf
  · intro p hp
    rw [hown]
    exact hboot p hp
  · intro e e' d hd
    rw [hnone e] at hd
    cases hd
  · intro e d i j p hd
    rw [hnone e] at hd
    cases hd
  · intro e
    cases hva : isIllegalVa (s.kern.envs e).envIpcDstva with
    | false => exact pdx_lt_utop hva
    | true =>
      rw [hdst e hva]
      decide
  · rw [hstored]
    intro x hx
    cases hx

theorem MemSys.inv_of_lowPerm {memsize : Word} {s : MemSys (npage memsize)}
    (hrun : (memCalls memsize).ReachableUnder MemSys.LowPerm s) : s.Inv := by
  apply hrun.invariant
  · intro s hs
    exact MemSys.Inv.start hs
  · intro s call s' _ hinv hok hstep
    exact hinv.step (npage_le memsize) hok hstep

/-- In every state that calls with permission bits only lead to, each stored
entry has the address of its page, and no environment maps kernel memory, a
directory, a table, or a page that was not given to it. -/
theorem confined_of_lowPerm {memsize : Word} {s : MemSys (npage memsize)}
    (hrun : (memCalls memsize).ReachableUnder MemSys.LowPerm s) : s.Confined :=
  (MemSys.inv_of_lowPerm hrun).confined

theorem seven_lt_npage : 7 < npage 0x8000 := by decide

/-- Eight pages, of which the kernel has two and the base directory is the
last. -/
def bootMem : MemSys (npage 0x8000) where
  kern := Kern.envInit
  pm := (((Frames.start _ 2 (fun _ _ => 0)).exec .newDir).getD (Frames.start _ 2 fun _ _ => 0)).pm
  freemem := 2
  basePgdir := ⟨7, seven_lt_npage⟩
  sysDirs := update (fun _ => false) ⟨7, seven_lt_npage⟩ true
  pgdir := fun _ => none
  own := update (fun p => if p.val < 2 then 1 else 0) ⟨7, seven_lt_npage⟩ 1
  grants := fun _ _ => false
  stored := []

theorem bootMem_init : (memCalls 0x8000).init bootMem := by
  have hstart : (frames 0x8000).ReachableUnder Frames.Allowed
      (Frames.start _ 2 (fun _ _ => 0)) := .init ⟨2, fun _ _ => 0, rfl⟩
  refine ⟨{ pm := bootMem.pm, dirs := bootMem.sysDirs, own := bootMem.own },
    .step hstart (l := .newDir) trivial rfl, rfl, rfl, rfl, fun _ => rfl, ?_, ?_, rfl⟩
  · decide +kernel
  · intro e _
    rfl

/-- An environment allocates a page and maps it a second time. -/
theorem confined_mappedTwice :
    ∃ s : MemSys (npage 0x8000), (memCalls 0x8000).ReachableUnder MemSys.LowPerm s ∧
      (s.pageAt ⟨6, by decide⟩ 1 0 = some ⟨5, by decide⟩ ∧
        s.pageAt ⟨6, by decide⟩ 1 1 = some ⟨5, by decide⟩) ∧ s.Confined := by
  have hstart : (memCalls 0x8000).ReachableUnder MemSys.LowPerm bootMem := .init bootMem_init
  obtain ⟨s, hs, hmapped⟩ := Machine.exists_reachableUnder_of_exec
    (P := fun s : MemSys (npage 0x8000) =>
      s.pageAt ⟨6, by decide⟩ 1 0 = some ⟨5, by decide⟩ ∧
        s.pageAt ⟨6, by decide⟩ 1 1 = some ⟨5, by decide⟩)
    [.setupVm 0, .memAlloc 0 0 0x400000 0x100, .memMap 0 0 0x400000 0 0x401000 0x100]
    hstart (by decide +kernel)
  exact ⟨s, hs, hmapped, confined_of_lowPerm hs⟩

/-- With bit 13 of `perm` set, `sys_mem_alloc` maps page 7, the base
directory, where it allocated page 5. -/
theorem baseDirMapped_reachable : ∃ s : MemSys (npage 0x8000), (memCalls 0x8000).Reachable s ∧
      (s.pgdir 0 = some ⟨6, by decide⟩ ∧ s.pageAt ⟨6, by decide⟩ 1 0 = some ⟨7, by decide⟩ ∧
        s.sysDirs ⟨7, by decide⟩ = true) ∧
      (∃ x ∈ s.stored, pteAddr x.2 ≠ page2pa x.1) ∧ ¬ s.Confined := by
  have hstart : (memCalls 0x8000).Reachable bootMem := .init bootMem_init
  obtain ⟨s, hs, hmapped, hstored⟩ := Machine.exists_reachableUnder_of_exec
    (P := fun s : MemSys (npage 0x8000) => (s.pgdir 0 = some ⟨6, by decide⟩ ∧
        s.pageAt ⟨6, by decide⟩ 1 0 = some ⟨7, by decide⟩ ∧
        s.sysDirs ⟨7, by decide⟩ = true) ∧ ∃ x ∈ s.stored, pteAddr x.2 ≠ page2pa x.1)
    [.setupVm 0, .memAlloc 0 0 0x400000 0x2000] hstart (by decide +kernel)
  refine ⟨s, hs, hmapped, hstored, fun hconf => ?_⟩
  obtain ⟨x, hx, hne⟩ := hstored
  exact hne (hconf.stored x hx)

end MosSmp
