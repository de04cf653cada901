import MosSmp.Lib.Exclusive
import MosSmp.Smp.QueueEffect

/-!
The creation of environments, cut finer than in the two-CPU machine. There
`sys_exofork` is one step; here `env_alloc` takes one step for the read of the
free-list head, for `env_setup_vm`, for `asid_alloc`, for `mkenvid` and for
the `LIST_REMOVE`, and `env_free` one for the directory, one for the ASID and
one for its critical section. None of the first five holds a lock that covers
the next, so two CPUs can be handed the same head.

`CreatesAlone` excludes that, and nothing else: while one CPU is between the
read of the head and the `LIST_REMOVE`, the other does not read the head. Then
the environments that exist have different slots, ids, ASIDs and directories,
and the free list holds the slots that remain.

The pages of page directories are named by their kernel addresses. What an
environment maps besides is left out.
-/

namespace MosSmp

open Lib Function Kern BitVec List

/-- Where `env_alloc` and `sys_exofork` are, once the head has been read. -/
inductive MakeStage
  | setupVm
  | asidAlloc
  | mkenvid
  | listRemove
  | install
  deriving DecidableEq

/-- Where `env_free` is. -/
inductive FreeStage
  | decref
  | asidFree
  | listInsert
  deriving DecidableEq

/-- What `sys_exofork` takes from its caller. -/
structure Caller where
  envId : Word
  pri : Word
  tf : Trapframe

inductive CreatePc
  | idle
  | making (stage : MakeStage) (e : EnvIdx) (caller : Caller)
  | releasing (stage : FreeStage) (e : EnvIdx)

/-- What a successful `sys_exofork` returns: the slot, and what is in it. -/
structure Made where
  slot : EnvIdx
  envId : Word
  asid : Word
  pgdir : Word
  deriving DecidableEq

structure Creation where
  kern : Kern
  /-- `page_free_list`. -/
  pages : List Word
  pc : CpuId → CreatePc
  /-- The results of the successful calls, without those that were released
  since. -/
  made : List Made

inductive CreateAct
  | exofork (caller : Caller)
  | free (e : EnvIdx)
  | run

structure CreateLabel where
  cpu : CpuId
  act : CreateAct

namespace Kern

def made (k : Kern) (e : EnvIdx) : Made :=
  ⟨e, (k.envs e).envId, (k.envs e).envAsid, (k.envs e).envPgdir⟩

def asidEnv (asid : Word) (x : Env) : Env :=
  { x with envAsid := asid }

/-- `asid_alloc(&e->env_asid)` found the ASID `i`. -/
def setAsid (k : Kern) (e : EnvIdx) (i : Fin NASID) (bitmap : Fin NASID → Bool) : Kern :=
  { k.updEnv e (asidEnv (BitVec.ofNat 32 i.val)) with asidBitmap := bitmap }

def idEnv (id : Word) (x : Env) : Env :=
  { x with envId := id }

/-- `e->env_id = mkenvid(e)`. -/
def setId (k : Kern) (e : EnvIdx) : Kern :=
  { k.updEnv e (idEnv (mkenvid (k.mkenvidI + 1) e)) with mkenvidI := k.mkenvidI + 1 }

def parentEnv (parentId : Word) (x : Env) : Env :=
  { x with
    envParentId := parentId
    envTf := { x.envTf.setReg 29 (USTACKTOP - 8) with cp0Status := 0xC013 } }

/-- The rest of `env_alloc`, up to its `LIST_REMOVE`. -/
def unlink (k : Kern) (e : EnvIdx) (parentId : Word) : Kern :=
  { k.updEnv e (parentEnv parentId) with envFreeList := k.envFreeList.remove e }

def childEnv (caller : Caller) (x : Env) : Env :=
  { x with
    envTf := caller.tf.setReg 2 0
    envStatus := .notRunnable
    envPri := caller.pri }

/-- The rest of `sys_exofork`. -/
def installChild (k : Kern) (e : EnvIdx) (caller : Caller) : Kern :=
  k.updEnv e (childEnv caller)

section Frame

variable {β : Type} {k k' : Kern} {e a : EnvIdx} {f : Env → Env}

/-- A field that an update leaves alone. -/
theorem field_updEnv (g : Env → β) (hk' : k'.envs = (k.updEnv e f).envs)
    (h : ∀ x, g (f x) = g x) : g (k'.envs a) = g (k.envs a) := by
  rw [hk', envs_updEnv]
  split
  · next heq => rw [heq, h]
  · rfl

/-- The other slots. -/
theorem envs_of_ne (hk' : k'.envs = (k.updEnv e f).envs) (hne : a ≠ e) : k'.envs a = k.envs a := by
  rw [hk', envs_updEnv_ne _ _ hne]

end Frame

end Kern

namespace Creation

def goto (s : Creation) (c : CpuId) (pc : CreatePc) : Creation :=
  { s with pc := update s.pc c pc }

def setKern (s : Creation) (k : Kern) : Creation :=
  { s with kern := k }

def setPages (s : Creation) (pages : List Word) : Creation :=
  { s with pages := pages }

def setMade (s : Creation) (made : List Made) : Creation :=
  { s with made := made }

/-- One step of `env_alloc` or `sys_exofork`. A call that fails leaves the
kernel. -/
def make (s : Creation) (c : CpuId) (e : EnvIdx) (caller : Caller) : MakeStage → Creation
  | .setupVm =>
    match s.pages with
    | [] => s.goto c .idle
    | p :: rest =>
      ((s.setKern (s.kern.updEnv e (resetEnv p))).setPages rest).goto c
        (.making .asidAlloc e caller)
  | .asidAlloc =>
    match MosSmp.asidAlloc s.kern.asidBitmap with
    | none => s.goto c .idle
    | some (i, bitmap) =>
      (s.setKern (s.kern.setAsid e i bitmap)).goto c (.making .mkenvid e caller)
  | .mkenvid => (s.setKern (s.kern.setId e)).goto c (.making .listRemove e caller)
  | .listRemove =>
    (s.setKern (s.kern.unlink e caller.envId)).goto c (.making .install e caller)
  | .install =>
    let k := s.kern.installChild e caller
    ((s.setKern k).setMade (k.made e :: s.made)).goto c .idle

/-- One step of `env_free`. -/
def release (s : Creation) (c : CpuId) (e : EnvIdx) : FreeStage → Creation
  | .decref =>
    (s.setPages ((s.kern.envs e).envPgdir :: s.pages)).goto c (.releasing .asidFree e)
  | .asidFree =>
    (s.setKern (s.kern.asidFree (s.kern.envs e).envAsid)).goto c (.releasing .listInsert e)
  | .listInsert => (s.setKern (s.kern.freeSection e)).goto c .idle

/-- `env_alloc` reads the head of the free list. -/
def readHead (s : Creation) (c : CpuId) (caller : Caller) : Creation :=
  match s.kern.envFreeList.first with
  | none => s
  | some e => s.goto c (.making .setupVm e caller)

/-- `env_destroy` calls `env_free` unless the slot is free already. -/
def callFree (s : Creation) (c : CpuId) (e : EnvIdx) : Creation :=
  if s.kern.status e = .free then s
  else (s.setMade (s.made.filter (fun m => m.slot ≠ e))).goto c (.releasing .decref e)

def step (s : Creation) (l : CreateLabel) : Option Creation :=
  match s.pc l.cpu, l.act with
  | .idle, .exofork caller => some (s.readHead l.cpu caller)
  | .idle, .free e => some (s.callFree l.cpu e)
  | .making stage e caller, .run => some (s.make l.cpu e caller stage)
  | .releasing stage e, .run => some (s.release l.cpu e stage)
  | _, _ => none

def start (pages : List Word) : Creation :=
  ⟨envInit, pages, fun _ => .idle, []⟩

end Creation

/-- Creation and release of environments, from the state after `env_init` and
any free pages. -/
def creation : Machine Creation CreateLabel where
  init s := ∃ pages : List Word, pages.Nodup ∧ s = Creation.start pages
  step := Creation.step

namespace CreatePc

/-- The slot between the read of the head and the `LIST_REMOVE`. -/
def choosing : CreatePc → Option EnvIdx
  | .making .install _ _ => none
  | .making _ e _ => some e
  | _ => none

/-- The slot between the `LIST_REMOVE` and the return of `sys_exofork`. -/
def unlinked : CreatePc → Option EnvIdx
  | .making .install e _ => some e
  | _ => none

inductive Side
  | making
  | releasing

/-- The slot a CPU works on, and what it does with it. -/
def place : CreatePc → Option (Side × EnvIdx)
  | .idle => none
  | .making _ e _ => some (.making, e)
  | .releasing _ e => some (.releasing, e)

/-- The slot whose directory a CPU has allocated and not yet released. -/
def dirSlot : CreatePc → Option EnvIdx
  | .making .setupVm _ _ => none
  | .making _ e _ => some e
  | .releasing .decref e => some e
  | _ => none

/-- The slot whose ASID a CPU has allocated and not yet released. -/
def asidSlot : CreatePc → Option EnvIdx
  | .making .setupVm _ _ | .making .asidAlloc _ _ => none
  | .making _ e _ => some e
  | .releasing .decref e | .releasing .asidFree e => some e
  | _ => none

/-- The slot to which a CPU has given an id. -/
def idSlot : CreatePc → Option EnvIdx
  | .making .listRemove e _ | .making .install e _ => some e
  | _ => none

variable {p : CreatePc} {e : EnvIdx}

theorem place_of_dirSlot (h : p.dirSlot = some e) : ∃ side, p.place = some (side, e) := by
  unfold dirSlot at h
  split at h <;> first | cases h; exact ⟨_, rfl⟩ | cases h

theorem place_of_asidSlot (h : p.asidSlot = some e) : ∃ side, p.place = some (side, e) := by
  unfold asidSlot at h
  split at h <;> first | cases h; exact ⟨_, rfl⟩ | cases h

theorem place_of_idSlot (h : p.idSlot = some e) : ∃ side, p.place = some (side, e) := by
  unfold idSlot at h
  split at h <;> first | cases h; exact ⟨_, rfl⟩ | cases h

theorem place_of_unlinked (h : p.unlinked = some e) : p.place = some (.making, e) := by
  unfold unlinked at h
  split at h <;> cases h
  rfl

theorem choosing_or_unlinked (h : p.place = some (.making, e)) :
    p.choosing = some e ∨ p.unlinked = some e := by
  cases p with
  | idle | releasing => cases h
  | making stage =>
    cases h
    cases stage with
    | install => exact .inr rfl
    | _ => exact .inl rfl

end CreatePc

open CreatePc

namespace Creation

/-- The slot is free and has not been taken off the list. -/
def Remaining (s : Creation) (e : EnvIdx) : Prop :=
  s.kern.status e = .free ∧ ∀ c, (s.pc c).unlinked ≠ some e

/-- The environments that exist have different slots, ids, ASIDs and
directories, and the free list is a list of exactly the slots that remain. -/
structure Distinct (s : Creation) : Prop where
  made : s.made.Pairwise (fun m n =>
    m.slot ≠ n.slot ∧ m.envId ≠ n.envId ∧ m.asid ≠ n.asid ∧ m.pgdir ≠ n.pgdir)
  freeList : s.kern.envFreeList.Holds s.Remaining

/-- A CPU reads the head only when the other is not between its read of the
head and its `LIST_REMOVE`, and `env_free` is called once for each
environment. -/
def CreatesAlone (s : Creation) (l : CreateLabel) : Prop :=
  match l.act with
  | .exofork _ => ∀ d, d ≠ l.cpu → (s.pc d).choosing = none
  | .free e => e ∈ s.made.map Made.slot
  | .run => True

instance decidableCreatesAlone (s : Creation) (l : CreateLabel) : Decidable (s.CreatesAlone l) :=
  match h : l.act with
  | .exofork _ => decidable_of_iff (∀ d, d ≠ l.cpu → (s.pc d).choosing = none)
      (by unfold CreatesAlone; rw [h])
  | .free e => decidable_of_iff (e ∈ s.made.map Made.slot) (by unfold CreatesAlone; rw [h])
  | .run => decidable_of_iff True (by unfold CreatesAlone; rw [h])

attribute [simps -fullyApplied] goto setKern setPages setMade

/-- The steps of CPU `c` from `s`. -/
inductive CreateCase (s : Creation) (c : CpuId) : Creation → Prop
  | same : CreateCase s c s
  | fails : (s.pc c).unlinked = none → CreateCase s c (s.goto c .idle)
  | readHead {e : EnvIdx} {caller : Caller} : s.pc c = .idle →
      s.kern.envFreeList.first = some e → (∀ d, d ≠ c → (s.pc d).choosing = none) →
      CreateCase s c (s.goto c (.making .setupVm e caller))
  | setupVm {e : EnvIdx} {caller : Caller} {p : Word} {rest : List Word} :
      s.pc c = .making .setupVm e caller → s.pages = p :: rest →
      CreateCase s c (((s.setKern (s.kern.updEnv e (resetEnv p))).setPages rest).goto c
        (.making .asidAlloc e caller))
  | asidAlloc {e : EnvIdx} {caller : Caller} {i : Fin NASID} :
      s.pc c = .making .asidAlloc e caller → s.kern.asidBitmap i = false →
      CreateCase s c ((s.setKern
        (s.kern.setAsid e i (update s.kern.asidBitmap i true))).goto c
        (.making .mkenvid e caller))
  | mkenvid {e : EnvIdx} {caller : Caller} : s.pc c = .making .mkenvid e caller →
      CreateCase s c ((s.setKern (s.kern.setId e)).goto c (.making .listRemove e caller))
  | listRemove {e : EnvIdx} {caller : Caller} : s.pc c = .making .listRemove e caller →
      CreateCase s c ((s.setKern (s.kern.unlink e caller.envId)).goto c
        (.making .install e caller))
  | install {e : EnvIdx} {caller : Caller} : s.pc c = .making .install e caller →
      CreateCase s c (((s.setKern (s.kern.installChild e caller)).setMade
        ((s.kern.installChild e caller).made e :: s.made)).goto c .idle)
  | callFree {e : EnvIdx} : s.pc c = .idle → e ∈ s.made.map Made.slot →
      s.kern.status e ≠ .free →
      CreateCase s c ((s.setMade (s.made.filter (fun m => m.slot ≠ e))).goto c
        (.releasing .decref e))
  | decref {e : EnvIdx} : s.pc c = .releasing .decref e →
      CreateCase s c ((s.setPages ((s.kern.envs e).envPgdir :: s.pages)).goto c
        (.releasing .asidFree e))
  | asidFree {e : EnvIdx} : s.pc c = .releasing .asidFree e →
      CreateCase s c ((s.setKern (s.kern.asidFree (s.kern.envs e).envAsid)).goto c
        (.releasing .listInsert e))
  | listInsert {e : EnvIdx} : s.pc c = .releasing .listInsert e →
      CreateCase s c ((s.setKern (s.kern.freeSection e)).goto c .idle)

variable {s s' : Creation} {c d : CpuId} {e : EnvIdx} {caller : Caller}

theorem make_cases {stage : MakeStage} (hpc : s.pc c = .making stage e caller) :
    CreateCase s c (s.make c e caller stage) := by
  cases stage with
  | setupVm =>
    cases hpages : s.pages with
    | nil =>
      simp only [make, hpages]
      exact .fails (by rw [hpc]; rfl)
    | cons =>
      simp only [make, hpages]
      exact .setupVm hpc hpages
  | asidAlloc =>
    cases hasid : MosSmp.asidAlloc s.kern.asidBitmap with
    | none =>
      simp only [make, hasid]
      exact .fails (by rw [hpc]; rfl)
    | some found =>
      obtain ⟨_, _⟩ := found
      obtain ⟨hclear, rfl⟩ := asidAlloc_some hasid
      simp only [make, hasid]
      exact .asidAlloc hpc hclear
  | mkenvid => exact .mkenvid hpc
  | listRemove => exact .listRemove hpc
  | install => exact .install hpc

theorem step_cases {l : CreateLabel} (hok : s.CreatesAlone l) (h : s.step l = some s') :
    CreateCase s l.cpu s' := by
  unfold CreatesAlone at hok
  unfold step at h
  split at h
  · next caller hpc hact =>
    rw [hact] at hok
    cases h
    unfold readHead
    split
    · exact .same
    · next hfirst => exact .readHead hpc hfirst hok
  · next e hpc hact =>
    rw [hact] at hok
    cases h
    unfold callFree
    split
    · exact .same
    · next hlive => exact .callFree hpc hok hlive
  · next hpc hact =>
    cases h
    exact make_cases hpc
  · next stage e hpc hact =>
    cases h
    cases stage with
    | decref => exact .decref hpc
    | asidFree => exact .asidFree hpc
    | listInsert => exact .listInsert hpc
  · cases h

end Creation

/-- What `sys_exofork` takes from the environment `cur` on CPU `c`. -/
def Kern.callerOf (k : Kern) (c : CpuId) (cur : EnvIdx) : Caller :=
  ⟨(k.envs cur).envId, (k.envs cur).envPri, (k.cpuData c).trapframe⟩

/-- A successful `sys_exofork`, stage by stage. -/
theorem Kern.exofork_stages {k k' : Kern} {c : CpuId} {cur e : EnvIdx} {p : Word}
    (h : k.exofork c cur (some p) = (.ok e, k')) :
    k.envFreeList.first = some e ∧ ∃ i bitmap, asidAlloc k.asidBitmap = some (i, bitmap) ∧
      k' = ((((k.updEnv e (resetEnv p)).setAsid e i bitmap).setId e).unlink e
        (k.callerOf c cur).envId).installChild e (k.callerOf c cur) := by
  unfold exofork envAlloc at h
  cases hfirst : k.envFreeList.first with
  | none => simp [hfirst] at h
  | some f =>
    cases hasid : asidAlloc k.asidBitmap with
    | none => simp [hfirst, hasid, updEnv] at h
    | some found =>
      obtain ⟨i, bitmap⟩ := found
      simp only [hfirst, updEnv, hasid, Prod.mk.injEq, Except.ok.injEq] at h
      obtain ⟨rfl, rfl⟩ := h
      refine ⟨rfl, i, bitmap, rfl, ?_⟩
      have hpri : ∀ x, (update k.envs f (nameEnv (mkenvid (k.mkenvidI + 1) f)
          (BitVec.ofNat 32 i.val) x (resetEnv p (k.envs f))) cur).envPri =
          (k.envs cur).envPri := by
        intro x
        rw [update_apply]
        split
        · next heq => rw [heq]; rfl
        · rfl
      simp only [installChild, unlink, setId, setAsid, updEnv, update_self, update_idem, hpri]
      rfl

namespace Creation

variable {s s' : Creation} {c d : CpuId} {e : EnvIdx} {caller : Caller}

/-- Without interference the stages add up to the `sys_exofork` of the
two-CPU machine. -/
theorem exec_alone {cur : EnvIdx} {k : Kern} {p : Word} {rest : List Word}
    (hidle : s.pc c = .idle) (hpages : s.pages = p :: rest)
    (h : s.kern.exofork c cur (some p) = (.ok e, k)) :
    creation.exec (fun _ _ => True) s
      (⟨c, .exofork (s.kern.callerOf c cur)⟩ :: List.replicate 5 ⟨c, .run⟩) =
      some ⟨k, rest, s.pc, k.made e :: s.made⟩ := by
  obtain ⟨hfirst, i, bitmap, hasid, rfl⟩ := exofork_stages h
  have hasid' : MosSmp.asidAlloc (s.kern.updEnv e (resetEnv p)).asidBitmap =
      some (i, bitmap) := hasid
  have hpc : update s.pc c .idle = s.pc := by rw [← hidle, update_eq_self]
  simp only [Machine.exec, creation, step, hidle, readHead, hfirst, List.replicate, if_true, make,
    goto_pc, setKern_pc, setPages_pc, update_self, hpages, goto_pages, goto_kern,
    setPages_kern, setKern_kern, hasid']
  simp only [goto, setMade, setKern, setPages, update_idem, hpc]

/-- Where the slots in use are: being made, being released, or made. -/
structure Placed (status : EnvIdx → EnvStatus)
    (place : CpuId → Option (Side × EnvIdx)) (slots : List EnvIdx) : Prop where
  making : ∀ c e, place c = some (.making, e) → status e = .free
  releasing : ∀ c e, place c = some (.releasing, e) → status e ≠ .free
  made : ∀ e ∈ slots, status e ≠ .free
  idle : ∀ e ∈ slots, ∀ c side, place c ≠ some (side, e)
  nodup : slots.Nodup
  alone : ∀ c d e x y, place c = some (x, e) → place d = some (y, e) → c = d

/-- The slot is in use, by an environment or by a CPU in one of the positions
that `f` picks out. -/
def Uses (s : Creation) (f : CreatePc → Option EnvIdx) (e : EnvIdx) : Prop :=
  e ∈ s.made.map Made.slot ∨ ∃ c, f (s.pc c) = some e

/-- The bit of an ASID in `asid_bitmap`. -/
def asidIdx (asid : Word) : Fin NASID :=
  Fin.ofNat NASID asid.toNat

structure CreateInv (s : Creation) : Prop where
  placed : Placed s.kern.status (fun c => (s.pc c).place) (s.made.map Made.slot)
  choosing : ∀ c d e f, (s.pc c).choosing = some e → (s.pc d).choosing = some f → c = d
  freeList : s.kern.envFreeList.Holds s.Remaining
  pages : s.pages.Nodup
  dirs : Exclusive (s.Uses dirSlot) (fun e => (s.kern.envs e).envPgdir)
    (fun p => p ∈ s.pages)
  asids : Exclusive (s.Uses asidSlot) (fun e => asidIdx (s.kern.envs e).envAsid)
    (fun i => s.kern.asidBitmap i = false)
  exact : ∀ m ∈ s.made, m = s.kern.made m.slot
  named : ∀ e, s.Uses idSlot e → ∃ i, (s.kern.envs e).envId = mkenvid i e

/-- A position function after CPU `c` has moved to `pc`. -/
theorem update_some {f : CreatePc → Option EnvIdx} {pc : CreatePc}
    (h : f (update s.pc c pc d) = some e) :
    (d = c ∧ f pc = some e) ∨ (d ≠ c ∧ f (s.pc d) = some e) := by
  by_cases hd : d = c
  · subst hd
    exact .inl ⟨rfl, by simpa using h⟩
  · exact .inr ⟨hd, by simpa [update_of_ne hd] using h⟩

section Placed

variable {status status' : EnvIdx → EnvStatus}
  {place place' : CpuId → Option (Side × EnvIdx)} {slots slots' : List EnvIdx}

section

variable (h : Placed status place slots)
include h

/-- A CPU may drop the slot it works on. -/
theorem Placed.drop (hplace : ∀ c x, place' c = some x → place c = some x) :
    Placed status place' slots where
  making := fun c e hp => h.making c e (hplace c _ hp)
  releasing := fun c e hp => h.releasing c e (hplace c _ hp)
  made := h.made
  idle := fun e he c side hp => h.idle e he c side (hplace c _ hp)
  nodup := h.nodup
  alone := fun c d e x y hc hd => h.alone c d e x y (hplace c _ hc) (hplace d _ hd)

/-- CPU `c` takes up the slot `e`, which nobody else works on. -/
theorem Placed.enter {side : Side} (hfree : side = .making → status e = .free)
    (hlive : side = .releasing → status e ≠ .free) (hnone : ∀ d x, place d ≠ some (x, e))
    (hplace : ∀ d x, place' d = some x → (d = c ∧ x = (side, e)) ∨ (d ≠ c ∧ place d = some x))
    (hslots : ∀ f ∈ slots', f ∈ slots ∧ f ≠ e) (hnodup : slots'.Nodup) :
    Placed status place' slots' where
  making := by
    intro d f hp
    rcases hplace d _ hp with ⟨_, heq⟩ | ⟨_, hold⟩
    · cases heq
      exact hfree rfl
    · exact h.making d f hold
  releasing := by
    intro d f hp
    rcases hplace d _ hp with ⟨_, heq⟩ | ⟨_, hold⟩
    · cases heq
      exact hlive rfl
    · exact h.releasing d f hold
  made := fun f hf => h.made f (hslots f hf).1
  idle := by
    intro f hf d x hp
    rcases hplace d _ hp with ⟨_, heq⟩ | ⟨_, hold⟩
    · cases heq
      exact (hslots _ hf).2 rfl
    · exact h.idle f (hslots f hf).1 d x hold
  nodup := hnodup
  alone := by
    intro a b f x y ha hb
    rcases hplace a _ ha with ⟨hac, heq⟩ | ⟨_, hold⟩
    · rcases hplace b _ hb with ⟨hbc, _⟩ | ⟨_, holdb⟩
      · rw [hac, hbc]
      · cases heq
        exact absurd holdb (hnone b y)
    · rcases hplace b _ hb with ⟨_, heq⟩ | ⟨_, holdb⟩
      · cases heq
        exact absurd hold (hnone a x)
      · exact h.alone a b f x y hold holdb

/-- CPU `c` is done with the slot `e`, made or released. -/
theorem Placed.leave {side : Side} (hc : place c = some (side, e))
    (hplace : ∀ d x, place' d = some x → d ≠ c ∧ place d = some x)
    (hstatus : ∀ f, f ≠ e → status' f = status f)
    (hslots : ∀ f ∈ slots', f ∈ slots ∨ (f = e ∧ status' e ≠ .free)) (hnodup : slots'.Nodup) :
    Placed status' place' slots' := by
  have hne : ∀ d f x, place' d = some (x, f) → f ≠ e := by
    rintro d f x hp rfl
    obtain ⟨hdc, hold⟩ := hplace d _ hp
    exact hdc (h.alone d c f _ _ hold hc)
  have hslot : ∀ f ∈ slots, f ≠ e := by
    rintro f hf rfl
    exact h.idle f hf c side hc
  refine ⟨fun d f hp => ?_, fun d f hp => ?_, fun f hf => ?_, fun f hf d x hp => ?_, hnodup,
    fun a b f x y ha hb => h.alone a b f x y (hplace a _ ha).2 (hplace b _ hb).2⟩
  · rw [hstatus f (hne d f _ hp)]
    exact h.making d f (hplace d _ hp).2
  · rw [hstatus f (hne d f _ hp)]
    exact h.releasing d f (hplace d _ hp).2
  · rcases hslots f hf with hold | ⟨heq, hlive⟩
    · rw [hstatus f (hslot f hold)]
      exact h.made f hold
    · rw [heq]
      exact hlive
  · rcases hslots f hf with hold | ⟨heq, _⟩
    · exact h.idle f hold d x (hplace d _ hp).2
    · exact hne d f x hp heq

end

end Placed

variable {pc : CreatePc}

theorem place_update (h : pc.place = (s.pc c).place) :
    (fun d => (update s.pc c pc d).place) = fun d => (s.pc d).place := by
  funext d
  by_cases hd : d = c
  · subst hd
    rw [update_self, h]
  · rw [update_of_ne hd]

/-- The places after CPU `c` has moved to a position outside of all slots. -/
theorem place_left {x : Side × EnvIdx} (hpc : pc.place = none)
    (h : (update s.pc c pc d).place = some x) : d ≠ c ∧ (s.pc d).place = some x := by
  by_cases hd : d = c
  · subst hd
    rw [update_self, hpc] at h
    cases h
  · exact ⟨hd, by rwa [update_of_ne hd] at h⟩

theorem place_entered {x y : Side × EnvIdx} (hpc : pc.place = some y)
    (h : (update s.pc c pc d).place = some x) :
    (d = c ∧ x = y) ∨ (d ≠ c ∧ (s.pc d).place = some x) := by
  by_cases hd : d = c
  · subst hd
    rw [update_self, hpc] at h
    exact .inl ⟨rfl, (Option.some.inj h).symm⟩
  · exact .inr ⟨hd, by rwa [update_of_ne hd] at h⟩

variable {slots : List EnvIdx}

/-- CPU `c` moves on with its slot, and no status changes. -/
theorem Placed.move {k : Kern} (h : Placed s.kern.status (fun d => (s.pc d).place) slots)
    (hpc : pc.place = (s.pc c).place) (hst : k.status = s.kern.status) :
    Placed k.status (fun d => (update s.pc c pc d).place) slots := by
  rw [hst, place_update hpc]
  exact h

theorem status_updEnv {k k' : Kern} {f : Env → Env} (hk' : k'.envs = (k.updEnv e f).envs)
    (h : ∀ x, (f x).envStatus = x.envStatus) : k'.status = k.status :=
  funext fun _ => field_updEnv Env.envStatus hk' h

/-- The slots that remain, after CPU `c` has moved. -/
theorem remaining_iff (hs' : s'.pc = update s.pc c pc) (f : EnvIdx) :
    s'.Remaining f ↔ s'.kern.status f = .free ∧ pc.unlinked ≠ some f ∧
      ∀ d, d ≠ c → (s.pc d).unlinked ≠ some f := by
  unfold Remaining
  rw [hs']
  refine and_congr_right fun _ => ⟨fun h => ⟨?_, fun d hd => ?_⟩, fun h d => ?_⟩
  · simpa using h c
  · simpa [update_of_ne hd] using h d
  · by_cases hd : d = c
    · subst hd
      simpa using h.1
    · simpa [update_of_ne hd] using h.2 d hd

theorem remaining_self (c : CpuId) (f : EnvIdx) :
    s.Remaining f ↔ s.kern.status f = .free ∧ (s.pc c).unlinked ≠ some f ∧
      ∀ d, d ≠ c → (s.pc d).unlinked ≠ some f :=
  remaining_iff (update_eq_self c s.pc).symm f

/-- Nobody else has a slot unlinked that CPU `c` works on. -/
theorem Placed.not_unlinked {status : EnvIdx → EnvStatus} {side : Side}
    (h : Placed status (fun d => (s.pc d).place) slots) (hc : (s.pc c).place = some (side, e))
    (hd : d ≠ c) : (s.pc d).unlinked ≠ some e :=
  fun hun => hd (h.alone d c e _ _ (place_of_unlinked hun) hc)

section

variable (hinv : CreateInv s) (h : CreateCase s c s')
include hinv h

theorem CreateInv.placed_step :
    Placed s'.kern.status (fun d => (s'.pc d).place) (s'.made.map Made.slot) := by
  have hplaced := hinv.placed
  cases h with
  | same => exact hplaced
  | fails => exact hplaced.drop fun d x hx => (place_left rfl hx).2
  | @readHead e caller hpc hfirst halone =>
    obtain ⟨hfree, hlinked⟩ := hinv.freeList.first hfirst
    refine hplaced.enter (fun _ => hfree) (by simp) (fun d x hd => ?_)
      (fun d x hx => place_entered rfl hx) (fun f hf => ⟨hf, ?_⟩) hplaced.nodup
    · cases x with
      | releasing => exact hplaced.releasing d e hd hfree
      | making =>
        rcases choosing_or_unlinked hd with hch | hun
        · by_cases hdc : d = c
          · rw [hdc, hpc] at hch
            cases hch
          · rw [halone d hdc] at hch
            cases hch
        · exact hlinked d hun
    · rintro rfl
      exact hplaced.made f hf hfree
  | setupVm hpc | asidAlloc hpc | mkenvid hpc | listRemove hpc =>
    exact hplaced.move (by rw [hpc]; rfl) (status_updEnv rfl fun _ => rfl)
  | decref hpc | asidFree hpc => exact hplaced.move (by rw [hpc]; rfl) rfl
  | @install e caller hpc =>
    have hc : (s.pc c).place = some (.making, e) := by rw [hpc]; rfl
    refine hplaced.leave hc (fun d x hx => place_left rfl hx) (fun f hf => ?_)
      (fun f hf => ?_) (nodup_cons.mpr ⟨fun hin => ?_, hplaced.nodup⟩)
    · exact congrArg Env.envStatus (envs_of_ne rfl hf)
    · rcases mem_cons.mp hf with heq | hold
      · refine .inr ⟨heq, ?_⟩
        simp [status, installChild, childEnv]
      · exact .inl hold
    · exact hplaced.idle e hin c _ hc
  | @callFree e hpc hmade hlive =>
    refine hplaced.enter (by simp) (fun _ => hlive) (hplaced.idle e hmade)
      (fun d x hx => place_entered rfl hx) (fun f hf => ?_) ?_
    · obtain ⟨_, hm, rfl⟩ := mem_map.mp hf
      obtain ⟨hm, hne⟩ := mem_filter.mp hm
      exact ⟨mem_map_of_mem hm, by simpa using hne⟩
    · exact hplaced.nodup.sublist (filter_sublist.map Made.slot)
  | @listInsert e hpc =>
    refine hplaced.leave (by rw [hpc]; rfl) (fun d x hx => place_left rfl hx) (fun f hf => ?_)
      (fun f hf => .inl hf) hplaced.nodup
    simp [status, envs_freeSection, update_of_ne hf]

theorem CreateInv.choosing_step {x y : CpuId} {f g : EnvIdx} (hx : (s'.pc x).choosing = some f)
    (hy : (s'.pc y).choosing = some g) : x = y := by
  have hmove : ∀ {pc : CreatePc}, (∀ e, pc.choosing = some e → (s.pc c).choosing = some e) →
      s'.pc = update s.pc c pc → x = y := by
    intro pc hpc hs'
    rw [hs'] at hx hy
    have hkeep : ∀ {d : CpuId} {e : EnvIdx},
        (update s.pc c pc d).choosing = some e → (s.pc d).choosing = some e := by
      intro d e hd
      rcases update_some (f := CreatePc.choosing) hd with ⟨rfl, hnew⟩ | ⟨_, hold⟩
      · exact hpc e hnew
      · exact hold
    exact hinv.choosing x y f g (hkeep hx) (hkeep hy)
  cases h with
  | same => exact hinv.choosing x y f g hx hy
  | readHead hpc hfirst halone =>
    rcases update_some (f := CreatePc.choosing) hx with ⟨hxc, _⟩ | ⟨hxc, hx⟩
    · rcases update_some (f := CreatePc.choosing) hy with ⟨hyc, _⟩ | ⟨hyc, hy⟩
      · rw [hxc, hyc]
      · rw [halone y hyc] at hy
        cases hy
    · rw [halone x hxc] at hx
      cases hx
  | setupVm hpc | asidAlloc hpc | mkenvid hpc => exact hmove (by simp [CreatePc.choosing, hpc]) rfl
  | _ =>
    exact hmove (by simp [CreatePc.choosing]) rfl

theorem CreateInv.freeList_step : s'.kern.envFreeList.Holds s'.Remaining := by
  have hlist := hinv.freeList
  -- Where the list does not change, neither do the slots that remain.
  have hmove : ∀ {pc : CreatePc}, pc.unlinked = (s.pc c).unlinked →
      s'.pc = update s.pc c pc → s'.kern.status = s.kern.status →
      s'.kern.envFreeList = s.kern.envFreeList → s'.kern.envFreeList.Holds s'.Remaining := by
    intro pc hpc hs' hst hfree
    rw [hfree]
    refine hlist.congr fun f => ?_
    rw [remaining_iff hs', remaining_self c, hst, hpc]
  cases h with
  | same => exact hlist
  | fails hpc | readHead hpc | callFree hpc | decref hpc | asidFree hpc =>
    exact hmove (by rw [hpc]; rfl) rfl rfl rfl
  | setupVm hpc | asidAlloc hpc | mkenvid hpc =>
    exact hmove (by rw [hpc]; rfl) rfl (status_updEnv rfl fun _ => rfl) rfl
  | @listRemove e caller hpc =>
    have hc : (s.pc c).place = some (.making, e) := by rw [hpc]; rfl
    have hst : (s.kern.unlink e caller.envId).status = s.kern.status :=
      status_updEnv rfl fun _ => rfl
    have hrem : s.Remaining e := (remaining_self c e).mpr
      ⟨hinv.placed.making c e hc, by simp [hpc, unlinked],
        fun d hd => hinv.placed.not_unlinked hc hd⟩
    refine (hlist.remove hrem).congr fun f => ?_
    rw [remaining_self c, remaining_iff (s := s) rfl]
    simp only [goto_kern, setKern_kern, hst, hpc, unlinked, ne_eq, Option.some.injEq]
    tauto
  | @install e caller hpc =>
    refine hlist.congr fun f => ?_
    rw [remaining_self c, remaining_iff (s := s) rfl]
    have hst : (s.kern.installChild e caller).status =
        update s.kern.status e .notRunnable := status_of_envs rfl rfl
    simp only [goto_kern, setMade_kern, setKern_kern, hst, hpc, unlinked, ne_eq,
      Option.some.injEq, update_apply]
    by_cases hf : f = e
    · simp [hf]
    · simp [hf, Ne.symm hf]
  | @listInsert e hpc =>
    have hc : (s.pc c).place = some (.releasing, e) := by rw [hpc]; rfl
    have hlive := hinv.placed.releasing c e hc
    have hst : (s.kern.freeSection e).status = update s.kern.status e .free :=
      status_of_envs (envs_freeSection ..) rfl
    have hfree : (s.kern.freeSection e).envFreeList = s.kern.envFreeList.insertHead e :=
      envFreeList_freeSection ..
    simp only [goto_kern, setKern_kern, hfree]
    refine (hlist.insertHead (fun hrem => hlive hrem.1)).congr fun f => ?_
    rw [remaining_self c, remaining_iff (s := s) rfl]
    have hnone : ∀ d, d ≠ c → (s.pc d).unlinked ≠ some e :=
      fun d hd => hinv.placed.not_unlinked hc hd
    have hown : (s.pc c).unlinked = CreatePc.idle.unlinked := by rw [hpc]; rfl
    rw [hown]
    simp only [goto_kern, setKern_kern, hst, update_apply]
    by_cases hf : f = e
    · subst hf
      exact ⟨fun _ => ⟨if_pos rfl, by simp [unlinked], hnone⟩, fun _ => .inl rfl⟩
    · simp [hf]

theorem CreateInv.pages_step : s'.pages.Nodup := by
  cases h with
  | setupVm hpc hpages =>
    have hnodup := hinv.pages
    rw [hpages] at hnodup
    exact (nodup_cons.mp hnodup).2
  | @decref e hpc =>
    refine nodup_cons.mpr ⟨?_, hinv.pages⟩
    exact hinv.dirs.held e (.inr ⟨c, by rw [hpc]; rfl⟩)
  | _ => exact hinv.pages

end

section Uses

variable {f : CreatePc → Option EnvIdx} {pc : CreatePc}

section

variable (h : s'.Uses f e)
include h

section

variable (hs' : s'.pc = update s.pc c pc)
include hs'

/-- The slots in use after CPU `c` has moved. -/
theorem Uses.cases :
    e ∈ s'.made.map Made.slot ∨ f pc = some e ∨ ∃ d, d ≠ c ∧ f (s.pc d) = some e := by
  rcases h with hmade | ⟨d, hd⟩
  · exact .inl hmade
  · rw [hs'] at hd
    rcases update_some hd with ⟨_, hnew⟩ | ⟨hne, hold⟩
    · exact .inr (.inl hnew)
    · exact .inr (.inr ⟨d, hne, hold⟩)

/-- The step takes no new slot into use. -/
theorem Uses.back
    (hmade : ∀ a ∈ s'.made.map Made.slot, a ∈ s.made.map Made.slot ∨ f (s.pc c) = some a)
    (hpc : ∀ a, f pc = some a → a ∈ s.made.map Made.slot ∨ f (s.pc c) = some a) : s.Uses f e := by
  have hown : e ∈ s.made.map Made.slot ∨ f (s.pc c) = some e → s.Uses f e :=
    fun hor => hor.imp_right fun hc => ⟨c, hc⟩
  rcases h.cases hs' with hin | hnew | ⟨d, _, hd⟩
  · exact hown (hmade e hin)
  · exact hown (hpc e hnew)
  · exact .inr ⟨d, hd⟩

/-- The step takes at most one new slot into use. -/
theorem Uses.back_or {x : EnvIdx} (hmade : s'.made = s.made) (hpc : ∀ a, f pc = some a → a = x) :
    e = x ∨ s.Uses f e := by
  rcases h.cases hs' with hin | hnew | ⟨d, _, hd⟩
  · exact .inr (.inl (hmade ▸ hin))
  · exact .inl (hpc e hnew)
  · exact .inr (.inr ⟨d, hd⟩)

/-- CPU `c` stops using the slot it works on. -/
theorem Uses.back_ne {x : EnvIdx} {side : Side} (hmade : s'.made = s.made)
    (hpc : f pc = none)
    (hplaced : Placed s.kern.status (fun d => (s.pc d).place) (s.made.map Made.slot))
    (hc : (s.pc c).place = some (side, x))
    (hf : ∀ p a, f p = some a → ∃ side, p.place = some (side, a)) : e ≠ x ∧ s.Uses f e := by
  rcases h.cases hs' with hin | hnew | ⟨d, hd, hold⟩
  · rw [hmade] at hin
    refine ⟨?_, .inl hin⟩
    rintro rfl
    exact hplaced.idle e hin c side hc
  · rw [hpc] at hnew
    cases hnew
  · refine ⟨?_, .inr ⟨d, hold⟩⟩
    rintro rfl
    obtain ⟨x, hx⟩ := hf _ _ hold
    exact hd (hplaced.alone d c e x side hx hc)

end

end

end Uses

theorem made_filter {a : EnvIdx} {ms : List Made} {p : Made → Bool}
    (h : a ∈ (ms.filter p).map Made.slot) : a ∈ ms.map Made.slot := by
  obtain ⟨_, hm, rfl⟩ := mem_map.mp h
  exact mem_map_of_mem (mem_of_mem_filter hm)

theorem made_cons {a : EnvIdx} {m : Made} {ms : List Made} {o : Option EnvIdx}
    (h : a ∈ (m :: ms).map Made.slot) (ho : o = some m.slot) :
    a ∈ ms.map Made.slot ∨ o = some a := by
  rcases mem_cons.mp h with rfl | hin
  · exact .inr ho
  · exact .inl hin

variable {f : CreatePc → Option EnvIdx}

/-- A step that neither gives out nor takes back the resources of the slots
in use. -/
theorem shrink_of_back {ρ : Type} {pc : CreatePc} {res res' : EnvIdx → ρ} {free free' : ρ → Prop}
    (h : Exclusive (s.Uses f) res free) (hs' : s'.pc = update s.pc c pc)
    (hmade : ∀ a ∈ s'.made.map Made.slot, a ∈ s.made.map Made.slot ∨ f (s.pc c) = some a)
    (hpc : ∀ a, f pc = some a → a ∈ s.made.map Made.slot ∨ f (s.pc c) = some a)
    (hres : ∀ a, res' a = res a) (hfree : ∀ r, free' r → free r) :
    Exclusive (s'.Uses f) res' free' :=
  h.shrink (fun a ha => ⟨ha.back hs' hmade hpc, hres a⟩) hfree

/-- CPU `c` moves on and uses no other slot than before. -/
theorem kept_of_moved {ρ : Type} {pc : CreatePc} {res res' : EnvIdx → ρ} {free free' : ρ → Prop}
    (h : Exclusive (s.Uses f) res free) (hs' : s'.pc = update s.pc c pc) (hmade : s'.made = s.made)
    (hpc : ∀ a, f pc = some a → f (s.pc c) = some a) (hres : ∀ a, res' a = res a)
    (hfree : free' = free) : Exclusive (s'.Uses f) res' free' :=
  shrink_of_back h hs' (fun _ ha => .inl (hmade ▸ ha)) (fun a ha => .inr (hpc a ha)) hres
    (fun _ hr => hfree ▸ hr)

theorem CreateInv.dirs_step (hinv : CreateInv s) (h : CreateCase s c s') :
    Exclusive (s'.Uses dirSlot) (fun e => (s'.kern.envs e).envPgdir)
      (fun p => p ∈ s'.pages) := by
  have hdirs := hinv.dirs
  cases h with
  | same => exact hdirs
  | @setupVm e caller p rest hpc hpages =>
    have hnodup := hinv.pages
    rw [hpages] at hnodup
    have hself : ((s.kern.updEnv e (resetEnv p)).envs e).envPgdir = p := by
      simp [resetEnv]
    refine hdirs.give (fun a ha => ?_) (x := e) ?_ (fun q hq => ⟨?_, ?_⟩)
    · by_cases hae : a = e
      · exact .inl hae
      · refine .inr ⟨(ha.back_or rfl rfl (by simp [dirSlot])).resolve_left hae, ?_⟩
        exact congrArg Env.envPgdir (envs_updEnv_ne _ _ hae)
    · rw [hpages]
      exact mem_cons.mpr (.inl hself)
    · rw [hpages]
      exact mem_cons_of_mem p hq
    · rintro rfl
      exact (nodup_cons.mp hnodup).1 (hself ▸ hq)
  | asidAlloc hpc | mkenvid hpc | listRemove hpc =>
    exact kept_of_moved hdirs rfl rfl (by simp [dirSlot, hpc])
      (fun a => field_updEnv Env.envPgdir rfl fun _ => rfl) rfl
  | install hpc =>
    refine shrink_of_back hdirs rfl (fun a ha => ?_) (by simp [dirSlot])
      (fun a => field_updEnv Env.envPgdir rfl fun _ => rfl) (fun _ hp => hp)
    exact made_cons ha (by rw [hpc]; rfl)
  | callFree hpc hin =>
    exact shrink_of_back hdirs rfl (fun _ h => .inl (made_filter h))
      (fun a h => .inl (by cases h; exact hin)) (fun _ => rfl) (fun _ hp => hp)
  | @decref e hpc =>
    refine hdirs.giveBack (x := e) (.inr ⟨c, by rw [hpc]; rfl⟩) (fun a ha => ?_) (fun p hp => ?_)
    · obtain ⟨hne, hold⟩ := ha.back_ne (s := s) rfl rfl rfl hinv.placed (by rw [hpc]; rfl)
        (fun _ _ => place_of_dirSlot)
      exact ⟨hne, hold, rfl⟩
    · exact (mem_cons.mp hp).symm
  | @listInsert e hpc =>
    exact kept_of_moved hdirs rfl rfl (by simp [dirSlot])
      (fun a => field_updEnv Env.envPgdir (envs_freeSection ..) fun _ => rfl) rfl
  | _ =>
    exact kept_of_moved hdirs rfl rfl (by simp [dirSlot]) (fun _ => rfl) rfl

theorem asidIdx_ofNat (i : Fin NASID) : asidIdx (BitVec.ofNat 32 i.val) = i := by
  have hi : i.val < 256 := i.isLt
  have hmod : i.val % 2 ^ 32 % 256 = i.val := by omega
  apply Fin.ext
  show (BitVec.ofNat 32 i.val).toNat % 256 = i.val
  rw [toNat_ofNat, hmod]

section

variable (hinv : CreateInv s)
include hinv

section

variable (h : CreateCase s c s')
include h

theorem CreateInv.asids_step :
    Exclusive (s'.Uses asidSlot) (fun e => asidIdx (s'.kern.envs e).envAsid)
      (fun i => s'.kern.asidBitmap i = false) := by
  have hasids := hinv.asids
  cases h with
  | same => exact hasids
  | fails hpc | readHead hpc | decref hpc =>
    exact kept_of_moved hasids rfl rfl (by simp [asidSlot, hpc]) (fun _ => rfl) rfl
  | setupVm hpc | mkenvid hpc | listRemove hpc =>
    exact kept_of_moved hasids rfl rfl (by simp [asidSlot, hpc])
      (fun a => congrArg asidIdx (field_updEnv Env.envAsid rfl fun _ => rfl)) rfl
  | @asidAlloc e caller i hpc hclear =>
    have hself : asidIdx ((s.kern.setAsid e i
        (update s.kern.asidBitmap i true)).envs e).envAsid = i := by
      rw [show ((s.kern.setAsid e i (update s.kern.asidBitmap i true)).envs e).envAsid =
        BitVec.ofNat 32 i.val by simp [Kern.setAsid, Kern.asidEnv], asidIdx_ofNat]
    refine hasids.give (fun a ha => ?_) (x := e) (hself.symm ▸ hclear) (fun j hj => ⟨?_, ?_⟩)
    · by_cases hae : a = e
      · exact .inl hae
      · refine .inr ⟨(ha.back_or rfl rfl (by simp [asidSlot])).resolve_left hae, ?_⟩
        exact congrArg (fun x => asidIdx x.envAsid) (envs_of_ne rfl hae)
    · by_cases hji : j = i
      · rw [hji]
        exact hclear
      · exact (update_of_ne hji _ _).symm.trans hj
    · intro hji
      have hset : update s.kern.asidBitmap i true j = false := hj
      rw [hji.trans hself, update_self] at hset
      cases hset
  | install hpc =>
    refine shrink_of_back hasids rfl (fun a ha => ?_) (by simp [asidSlot])
      (fun a => congrArg asidIdx (field_updEnv Env.envAsid rfl fun _ => rfl))
      (fun _ hp => hp)
    exact made_cons ha (by rw [hpc]; rfl)
  | callFree hpc hin =>
    exact shrink_of_back hasids rfl (fun _ h => .inl (made_filter h))
      (fun a h => .inl (by cases h; exact hin)) (fun _ => rfl) (fun _ hp => hp)
  | @asidFree e hpc =>
    refine hasids.giveBack (x := e) (.inr ⟨c, by rw [hpc]; rfl⟩) (fun a ha => ?_) (fun i hi => ?_)
    · obtain ⟨hne, hold⟩ := ha.back_ne (s := s) rfl rfl rfl hinv.placed (by rw [hpc]; rfl)
        (fun _ _ => place_of_asidSlot)
      exact ⟨hne, hold, rfl⟩
    · by_cases hie : i = asidIdx (s.kern.envs e).envAsid
      · exact .inr hie
      · exact .inl ((update_of_ne hie _ _).symm.trans hi)
  | @listInsert e hpc =>
    refine kept_of_moved hasids rfl rfl (by simp [asidSlot]) (fun a => ?_) ?_
    · exact congrArg asidIdx
        (field_updEnv Env.envAsid (envs_freeSection ..) fun _ => rfl)
    · exact funext fun i => by rw [← asidBitmap_freeSection s.kern e]; rfl

/-- The control blocks of the environments that exist do not change. -/
theorem CreateInv.exact_step : ∀ m ∈ s'.made, m = s'.kern.made m.slot := by
  -- A step that writes to the slot `e` of CPU `c` only.
  have hmove : ∀ {e : EnvIdx} {f : Env → Env} {side : Side},
      s'.kern.envs = (s.kern.updEnv e f).envs → (s.pc c).place = some (side, e) →
      ∀ m ∈ s.made, m = s'.kern.made m.slot := by
    intro e f side hk' hc m hm
    have hne : m.slot ≠ e := by
      rintro rfl
      exact hinv.placed.idle m.slot (mem_map_of_mem hm) c side hc
    have hold := hinv.exact m hm
    unfold Kern.made at hold ⊢
    rw [envs_of_ne hk' hne]
    exact hold
  cases h with
  | setupVm hpc | asidAlloc hpc | mkenvid hpc | listRemove hpc => exact hmove rfl (by rw [hpc]; rfl)
  | @install e caller hpc =>
    intro m hm
    rcases mem_cons.mp hm with rfl | hm
    · rfl
    · exact hmove (f := childEnv caller) rfl (by rw [hpc]; rfl) m hm
  | callFree => exact fun m hm => hinv.exact m (mem_of_mem_filter hm)
  | listInsert hpc => exact hmove (envs_freeSection ..) (by rw [hpc]; rfl)
  | _ => exact hinv.exact

theorem CreateInv.named_step (hu : s'.Uses idSlot e) :
    ∃ i, (s'.kern.envs e).envId = mkenvid i e := by
  have hkeep : s.Uses idSlot e → (s'.kern.envs e).envId = (s.kern.envs e).envId →
      ∃ i, (s'.kern.envs e).envId = mkenvid i e := by
    intro hold hid
    rw [hid]
    exact hinv.named e hold
  cases h with
  | same => exact hinv.named e hu
  | setupVm | asidAlloc =>
    exact hkeep (hu.back rfl (fun _ h => .inl h) (by simp [idSlot]))
      (field_updEnv Env.envId rfl fun _ => rfl)
  | @mkenvid f caller hpc =>
    by_cases hef : e = f
    · subst hef
      exact ⟨s.kern.mkenvidI + 1, by simp [setId, idEnv]⟩
    · exact hkeep ((hu.back_or rfl rfl (by simp [idSlot])).resolve_left hef)
        (congrArg Env.envId (envs_of_ne rfl hef))
  | listRemove hpc =>
    exact hkeep (hu.back rfl (fun _ h => .inl h) (fun a h => .inr (by rw [hpc]; exact h)))
      (field_updEnv Env.envId rfl fun _ => rfl)
  | install hpc =>
    exact hkeep (hu.back rfl (fun a ha => made_cons ha (by rw [hpc]; rfl))
      (by simp [idSlot])) (field_updEnv Env.envId rfl fun _ => rfl)
  | callFree =>
    exact hkeep (hu.back rfl (fun _ h => .inl (made_filter h)) (by simp [idSlot])) rfl
  | listInsert =>
    exact hkeep (hu.back rfl (fun _ h => .inl h) (by simp [idSlot]))
      (field_updEnv Env.envId (envs_freeSection ..) fun _ => rfl)
  | _ =>
    exact hkeep (hu.back rfl (fun _ h => .inl h) (by simp [idSlot])) rfl

theorem CreateInv.step : CreateInv s' where
  placed := hinv.placed_step h
  choosing := fun _ _ _ _ hx hy => hinv.choosing_step h hx hy
  freeList := hinv.freeList_step h
  pages := hinv.pages_step h
  dirs := hinv.dirs_step h
  asids := hinv.asids_step h
  exact := hinv.exact_step h
  named := fun _ hu => hinv.named_step h hu

end

end

theorem CreateInv.start {pages : List Word} (hpages : pages.Nodup) :
    CreateInv (Creation.start pages) := by
  have hnone : ∀ {f : CreatePc → Option EnvIdx} {a : EnvIdx}, f .idle = none →
      ¬ (Creation.start pages).Uses f a := by
    rintro f a hf (hin | ⟨_, hc⟩)
    · cases hin
    · exact absurd (hf.symm.trans hc) (by simp)
  -- No CPU is in a call, and nothing has been made.
  refine ⟨⟨nofun, nofun, nofun, nofun, nodup_nil, nofun⟩, nofun, ?_, hpages,
    ⟨fun _ _ ha => absurd ha (hnone rfl), fun _ ha => absurd ha (hnone rfl)⟩,
    ⟨fun _ _ ha => absurd ha (hnone rfl), fun _ ha => absurd ha (hnone rfl)⟩, nofun,
    fun _ hu => absurd hu (hnone rfl)⟩
  refine ⟨finRange NENV, rep_envInit, fun e => ?_⟩
  exact ⟨fun _ => ⟨rfl, by simp [Creation.start, unlinked]⟩, fun _ => mem_finRange e⟩

end Creation

theorem Kern.mkenvid_mod (i : Word) (e : EnvIdx) : (mkenvid i e).toNat % 2 ^ 11 = e.val := by
  have he : e.val < 1024 := e.isLt
  have hhigh : i.toNat <<< 11 % 2 ^ 32 % 2 ^ 11 = 0 := by
    rw [Nat.shiftLeft_eq]
    omega
  have hlow : e.val % 2 ^ 32 % 2 ^ 11 = e.val := by omega
  unfold mkenvid
  rw [toNat_or, toNat_shiftLeft, toNat_ofNat, Nat.or_mod_two_pow, hhigh, hlow, Nat.zero_or]

/-- The slot can be read off an id. -/
theorem Kern.mkenvid_inj {i j : Word} {e f : EnvIdx} (h : mkenvid i e = mkenvid j f) : e = f := by
  apply Fin.ext
  rw [← mkenvid_mod i e, h, mkenvid_mod]

namespace Creation

variable {s : Creation}

theorem CreateInv.distinct (hinv : CreateInv s) : s.Distinct where
  freeList := hinv.freeList
  made := by
    have hslots : s.made.Pairwise (fun m n => m.slot ≠ n.slot) := pairwise_map.mp hinv.placed.nodup
    refine hslots.imp_of_mem fun {m n} hm hn hne => ?_
    have hum : ∀ f, s.Uses f m.slot := fun _ => .inl (mem_map_of_mem hm)
    have hun : ∀ f, s.Uses f n.slot := fun _ => .inl (mem_map_of_mem hn)
    have hem := hinv.exact m hm
    have hen := hinv.exact n hn
    refine ⟨hne, fun hid => ?_, fun hasid => ?_, fun hdir => ?_⟩
    · obtain ⟨_, hi⟩ := hinv.named _ (hum _)
      obtain ⟨_, hj⟩ := hinv.named _ (hun _)
      rw [hem, hen] at hid
      exact hne (mkenvid_inj (hi.symm.trans (hid.trans hj)))
    · rw [hem, hen] at hasid
      exact hne (hinv.asids.inj _ _ (hum _) (hun _) (congrArg asidIdx hasid))
    · rw [hem, hen] at hdir
      exact hne (hinv.dirs.inj _ _ (hum _) (hun _) hdir)

end Creation

/-- In every run in which the CPUs do not choose a slot at the same time, and
each environment is released once, the environments that exist are distinct
and the free list is exact. -/
theorem distinct_of_createsAlone {s : Creation}
    (hrun : creation.ReachableUnder (fun s l => s.CreatesAlone l) s) : s.Distinct := by
  have hinv : s.CreateInv := by
    apply hrun.invariant
    · rintro s ⟨_, hpages, rfl⟩
      exact Creation.CreateInv.start hpages
    · intro s l s' _ hinv hok hstep
      exact hinv.step (Creation.step_cases hok hstep)
  exact hinv.distinct

theorem creation_exists_of_run (ok : Creation → CreateLabel → Prop) [∀ s l, Decidable (ok s l)]
    (P : Creation → Prop) [DecidablePred P] (pages : List Word) (labels : List CreateLabel)
    (hpages : pages.Nodup)
    (hrun : (creation.exec ok (Creation.start pages) labels).any (fun s => decide (P s)) = true) :
    ∃ s, creation.ReachableUnder ok s ∧ P s :=
  Machine.exists_reachableUnder_of_exec labels (.init ⟨pages, hpages, rfl⟩) hrun

/-- A caller for the runs below. -/
def Caller.zero : Caller := ⟨0, 1, .zero⟩

/-- CPU 0 makes an environment; CPU 1 makes one as soon as the first is off
the free list. -/
theorem distinct_oneAfterTheOther : ∃ s, creation.ReachableUnder (fun s l => s.CreatesAlone l) s ∧
      s.made.map Made.slot = [1, 0] ∧ s.Distinct := by
  obtain ⟨s, hs, hmade⟩ := creation_exists_of_run (fun s l => s.CreatesAlone l)
    (fun s => s.made.map Made.slot = [1, 0]) [0x80500000, 0x80501000]
    ([⟨0, .exofork .zero⟩] ++ replicate 4 ⟨0, .run⟩ ++ [⟨1, .exofork .zero⟩, ⟨0, .run⟩] ++
      replicate 5 ⟨1, .run⟩) (by decide) (by decide +kernel)
  exact ⟨s, hs, hmade, distinct_of_createsAlone hs⟩

/-- Both CPUs read the same head, and both calls return slot 0. -/
theorem sameSlotTwice_reachable : ∃ s, creation.Reachable s ∧ ¬ s.Distinct := by
  obtain ⟨s, hs, hmade⟩ := creation_exists_of_run (fun _ _ => True)
    (fun s => s.made.map Made.slot = [0, 0]) [0x80500000, 0x80501000]
    ([⟨0, .exofork .zero⟩, ⟨1, .exofork .zero⟩] ++ replicate 5 ⟨0, .run⟩ ++
      replicate 5 ⟨1, .run⟩) (by decide) (by decide +kernel)
  refine ⟨s, hs, fun h => ?_⟩
  have hslots : (s.made.map Made.slot).Nodup := pairwise_map.mpr (h.made.imp fun hmn => hmn.1)
  rw [hmade] at hslots
  simp at hslots

end MosSmp
