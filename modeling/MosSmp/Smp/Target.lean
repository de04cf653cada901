import MosSmp.Smp.RunQueue

/-!
The slot a call acts on. `envid2env` resolves an id once and without a lock;
what follows uses the slot. `sys_env_destroy` marks or releases whatever is in
the slot when it holds `env_sched_lock`, and `sys_ipc_try_send` claims the
receiver, maps the page, writes the message and wakes the receiver in four
separate stages. In between, the other CPU can release the slot and hand it
out again.

`SlotsHeld` is the condition that excludes this: no slot is released or handed
out while the other CPU runs its environment or a call on it. Under it a
destruction hits the environment that was named, and a message goes to it.

To say which environment was named, the machine is run with a record: the id
that the call on each CPU asked for, and for each slot the id that the call
which marked it asked for.
-/

namespace MosSmp

open Lib Function Kern Sys

namespace Pc

/-- The slot that the code at this position holds a pointer to. -/
def pointee : Pc → Option EnvIdx
  | .statusLock e _ | .sendLock e _ _ _ | .sendMap e _ _ _ | .sendUndo e _ | .sendFill e _ _
  | .sendWake e | .destroyLock e | .freeMem e _ | .freeLock e _ => some e
  | _ => none

/-- The targets that `envid2env` found. -/
def resolved : Pc → Option EnvIdx
  | .freeMem _ .killed | .freeLock _ .killed => none
  | pc => pc.pointee

/-- The slot that `env_destroy` has been called for. -/
def destroys : Pc → Option EnvIdx
  | .destroyLock e => some e
  | _ => none

variable {p : Pc} {e : EnvIdx}

theorem resolved_of_destroys (h : p.destroys = some e) : p.resolved = some e := by
  cases p <;> first | exact h | cases h

theorem pointee_of_inFree (h : p.inFree = some e) : p.pointee = some e := by
  cases p <;> first | exact h | cases h

theorem pointee_of_resolved (h : p.resolved = some e) : p.pointee = some e := by
  unfold resolved at h
  split at h
  · cases h
  · cases h
  · exact h

end Pc

/-- The id argument of a call. -/
def Syscall.envid : Syscall → Word
  | .setEnvStatus envid _ | .ipcTrySend envid _ _ _ | .envDestroy envid => envid
  | _ => 0

namespace Sys

/-- The id of the environment that the argument `envid` stands for on
CPU `c`. -/
def idOf (s : Sys) (c : CpuId) (envid : Word) : Word :=
  if envid = 0 then
    match s.kern.curenv c with
    | some cur => (s.kern.envs cur).envId
    | none => 0
  else envid

/-- CPU `d` has a pointer to slot `e`, or works for the environment in it. -/
def Uses (s : Sys) (d : CpuId) (e : EnvIdx) : Prop :=
  (s.pc d).pointee = some e ∨ (s.kern.curenv d = some e ∧ (s.pc d).active e = true)

instance (s : Sys) (d : CpuId) (e : EnvIdx) : Decidable (s.Uses d e) :=
  inferInstanceAs (Decidable (_ ∨ _))

/-- The slot that the next step of CPU `c` allocates, begins to release or
releases. -/
def taking (s : Sys) (c : CpuId) : Option EnvIdx :=
  match s.pc c with
  | .sys .exofork => s.kern.envFreeList.first
  | .destroyLock e =>
    if s.kern.status e ≠ .free ∧
      ((s.kern.envs e).envRunning = false ∨ (s.kern.envs e).envCpuId = some c) then some e
    else none
  | .sched _ => (s.kern.curenv c).filter (fun e => (s.kern.envs e).envKillPending)
  | .freeLock e _ => some e
  | _ => none

/-- The step takes no slot that the other CPU uses. -/
def SlotsHeld (s : Sys) (c : CpuId) : Prop :=
  ∀ e ∈ s.taking c, ∀ d, d ≠ c → ¬ s.Uses d e

instance (s : Sys) (c : CpuId) : Decidable (s.SlotsHeld c) :=
  Option.decidableForallMem _

end Sys

/-- A record of the ids that calls asked for. -/
structure Asked where
  /-- The id that the current call on the CPU asked for. -/
  call : CpuId → Word
  /-- The id that the call which marked the slot `env_kill_pending` asked for. -/
  kill : EnvIdx → Word

/-- What the next step adds to the record: a call looks up its argument, and
`env_destroy` marks the slot. -/
def Asked.note (s : Sys) (l : Label) (a : Asked) : Asked :=
  match s.pc l.cpu with
  | .sys call =>
    { a with call := update a.call l.cpu (s.idOf l.cpu call.envid) }
  | .destroyLock e =>
    if s.kern.status e ≠ .free then
      { a with kill := update a.kill e (a.call l.cpu) }
    else a
  | _ => a

/-- The two-CPU kernel with the record of ids. -/
def smpAsked : Machine (Sys × Asked) Label :=
  smp.record ⟨fun _ => 0, fun _ => 0⟩ Asked.note

theorem Kern.envid2env_id {k : Kern} {cur e : EnvIdx} {envid : Word} {checkperm : Bool}
    (h : k.envid2env cur envid checkperm = .ok e) :
    (k.envs e).envId = if envid = 0 then (k.envs cur).envId else envid := by
  unfold envid2env at h
  split at h
  · next h0 =>
    cases h
    rw [if_pos h0]
  · next h0 =>
    dsimp only at h
    split at h
    · cases h
    · next hnot =>
      split at h <;> cases h
      rw [if_neg h0]
      exact not_not.mp fun hne => hnot (.inr hne)

namespace Sys

variable {s s' : Sys} {c d : CpuId} {e : EnvIdx}

theorem taking_of_freeing (h : e ∈ s.freeing c) : e ∈ s.taking c := by
  unfold freeing at h
  split at h
  · next hpc => simpa [taking, hpc] using h
  · cases h

theorem taking_of_allocated (h : e ∈ s.allocated c) : e ∈ s.taking c := by
  unfold allocated at h
  split at h
  · next hpc => simpa [taking, hpc] using h
  · cases h

/-- Where a pointer to a slot comes from: the CPU had it before the step, a
call has just looked it up, or `schedule` found a pending kill. -/
inductive TargetCase (s : Sys) (c : CpuId) (s' : Sys) (e : EnvIdx) : Prop
  | kept : (s.pc c).pointee = some e →
      ((s'.pc c).resolved = some e → (s.pc c).resolved = some e) →
      ((s'.pc c).inFree = some e → (s.pc c).inFree = some e ∨
        (e ∈ s.taking c ∧ (s'.kern.envs e).envKillPending = true)) →
      (∀ call, s.pc c ≠ .sys call) → s.freeing c = none → TargetCase s c s' e
  | looked {call : Syscall} {cur : EnvIdx} {checkperm : Bool} : s.pc c = .sys call →
      s.kern.curenv c = some cur → s.kern.envid2env cur call.envid checkperm = .ok e →
      (s'.pc c).inFree = none → s'.kern = s.kern → TargetCase s c s' e
  | killed {yield : Bool} : s.pc c = .sched yield → s.kern.curenv c = some e →
      (s.kern.envs e).envKillPending = true → (s'.pc c).resolved = none →
      s'.kern = s.kern → TargetCase s c s' e

theorem Goes.pointee_cases {p q : Pc} (h : Goes s c p q) (hpc : s.pc c = p)
    (ht : q.pointee = some e) : TargetCase s c (s.goto c q) e := by
  cases h with
  | setStatus hcur _ hid | send hcur hid | destroy hcur hid =>
    cases ht
    exact .looked hpc hcur hid (by simp [Pc.inFree]) rfl
  | mapped | mapFails =>
    cases ht
    exact .kept (by rw [hpc]; rfl) (fun _ => by rw [hpc]; rfl) (by simp [Pc.inFree])
      (by simp [hpc]) (by simp [freeing, hpc])
  | kill hcur hpend =>
    cases ht
    exact .killed hpc hcur hpend (by simp [Pc.resolved]) rfl
  | _ => cases ht

theorem StepCase.pointee_cases (h : StepCase s c s') (ht : (s'.pc c).pointee = some e) :
    TargetCase s c s' e := by
  cases h with
  | goes p hgo => exact hgo.pointee_cases rfl (by simpa using ht)
  | sendTake hpc | sendFill hpc =>
    obtain rfl : _ = e := by simpa [Pc.pointee] using ht
    exact .kept (by rw [hpc]; rfl) (fun _ => by rw [hpc]; rfl) (by simp [Pc.inFree])
      (by simp [hpc]) (by simp [freeing, hpc])
  | destroyLocal hpc hcur hlive hor =>
    obtain rfl : _ = e := by simpa [Pc.pointee] using ht
    refine .kept (by rw [hpc]; rfl) (fun _ => by rw [hpc]; rfl) (fun _ => .inr ⟨?_, by simp⟩)
      (by simp [hpc]) (by simp [freeing, hpc])
    simp [taking, hpc, status, hlive, hor]
  | @freeMem f kind hpc =>
    obtain rfl : f = e := by simpa [Pc.pointee] using ht
    refine .kept (by rw [hpc]; rfl) (fun hr => ?_) (fun _ => .inl (by rw [hpc]; rfl))
      (by simp [hpc]) (by simp [freeing, hpc])
    rw [hpc]
    cases kind <;> simp_all [Pc.resolved, Pc.pointee]
  | tick =>
    simp only [Sys.tick, goto_pc, update_self] at ht
    split at ht <;> cases ht
  | enter => simp [Sys.enter, Pc.pointee] at ht
  | lockSched => simp [noteScheduleReady, Pc.pointee] at ht
  | halt hpc =>
    rw [hpc] at ht
    cases ht
  | _ => simp [Pc.pointee] at ht

/-- A pending kill stays pending until the slot is released or allocated. -/
theorem StepCase.pending_kept (h : StepCase s c s')
    (hpend : (s.kern.envs e).envKillPending = true) :
    (s'.kern.envs e).envKillPending = true ∨ e ∈ s.freeing c ∨ e ∈ s.allocated c := by
  cases h.env_effect e with
  | reset pgdir halloc | fork id asid parentId pgdir pri tf halloc => exact .inr (.inr halloc)
  | free hfree => exact .inr (.inl hfree)
  | data tf runs value from_ perm heq | block dstva hpc hcur heq | status st hpc heq
  | take value srcva perm hpc hrecv heq | undo err hpc heq | wake hpc heq | release hdes heq
  | assign hpc _ hor heq => exact .inl (by rw [heq]; exact hpend)
  | killRemote hpc hlive hrun hcpu heq | killLocal hpc hlive hrun heq => exact .inl (by rw [heq])

/-- What holds of the slots and of the record as long as no slot is taken
away from the other CPU. -/
structure HeldInv (s : Sys) (a : Asked) : Prop where
  freeList : s.kern.envFreeList.Holds (fun e => s.kern.status e = .free)
  clean : ∀ e, s.kern.status e = .free → (s.kern.envs e).envKillPending = false
  live : ∀ c e, s.kern.curenv c = some e → (s.pc c).active e = true → s.kern.status e ≠ .free
  target : ∀ c e, (s.pc c).pointee = some e → s.kern.status e ≠ .free
  named : ∀ c e, (s.pc c).resolved = some e → (s.kern.envs e).envId = a.call c
  killed : ∀ e, (s.kern.envs e).envKillPending = true → (s.kern.envs e).envId = a.kill e
  marked : ∀ c e, (s.pc c).inFree = some e → (s.kern.envs e).envKillPending = true
  alone : ∀ c d e, (s.pc c).inFree = some e → (s.pc d).inFree = some e → c = d

variable {a : Asked}

theorem HeldInv.changing_live (hinv : HeldInv s a) (he : e ∈ s.changing c) :
    s.kern.status e ≠ .free := by
  unfold changing at he
  split at he
  · next dstva hpc => exact hinv.live c e he (by rw [hpc]; rfl)
  · next f st hpc =>
    obtain rfl : f = e := by simpa using he
    exact hinv.target c f (by rw [hpc]; rfl)
  · next f hpc =>
    obtain rfl : f = e := by simpa using he
    exact hinv.target c f (by rw [hpc]; rfl)
  · next f kind hpc =>
    obtain rfl : f = e := by simpa using he
    exact hinv.target c f (by rw [hpc]; rfl)
  · cases he

/-- The slots that the other CPU uses keep their incarnation. -/
theorem SlotsHeld.untaken (hok : s.SlotsHeld c) (hne : d ≠ c)
    (huse : s.Uses d e) : s.freeing c ≠ some e ∧ s.allocated c ≠ some e := by
  constructor
  · intro hfree
    exact hok e (taking_of_freeing hfree) d hne huse
  · intro halloc
    exact hok e (taking_of_allocated halloc) d hne huse

theorem SlotsHeld.status_kept (hok : s.SlotsHeld c) (hvalid : s.StatusValid)
    (h : StepCase s c s') (hne : d ≠ c) (huse : s.Uses d e)
    (hlive : s.kern.status e ≠ .free) : s'.kern.status e ≠ .free := by
  intro hfree
  rcases h.free_source hvalid hfree with hold | hfreeing
  · exact hlive hold
  · exact (hok.untaken hne huse).1 hfreeing

theorem HeldInv.target_own (hinv : HeldInv s a) (hvalid : s.StatusValid) (h : StepCase s c s')
    (ht : (s'.pc c).pointee = some e) : s'.kern.status e ≠ .free := by
  cases h.pointee_cases ht with
  | kept hold _ _ _ hnone =>
    intro hfree
    rcases h.free_source hvalid hfree with hfree | hfreeing
    · exact hinv.target c e hold hfree
    · rw [hnone] at hfreeing
      cases hfreeing
  | looked hpc hcur hid _ hkern =>
    rw [hkern]
    exact envid2env_live hid (hinv.live c _ hcur (by rw [hpc]; rfl))
  | killed hpc hcur hpend _ hkern =>
    rw [hkern]
    intro hfree
    rw [hinv.clean e hfree] at hpend
    cases hpend

variable {l : Label}

theorem Asked.call_note_of_ne (hne : d ≠ l.cpu) : (Asked.note s l a).call d = a.call d := by
  unfold Asked.note
  split
  · simp [update_of_ne hne]
  · split <;> rfl
  · rfl

theorem Asked.call_note_of_not_sys (hpc : ∀ call, s.pc l.cpu ≠ .sys call) :
    (Asked.note s l a).call = a.call := by
  unfold Asked.note
  split
  · next call heq => exact absurd heq (hpc call)
  · split <;> rfl
  · rfl

section

variable (hinv : HeldInv s a)
include hinv

theorem HeldInv.named_own (h : StepCase s l.cpu s') (hr : (s'.pc l.cpu).resolved = some e) :
    (s'.kern.envs e).envId = (Asked.note s l a).call l.cpu := by
  cases h.pointee_cases (Pc.pointee_of_resolved hr) with
  | kept hold hres _ hsys hnone =>
    have halloc : s.allocated l.cpu = none := by
      unfold allocated
      split
      · next hpc => exact absurd hpc (hsys _)
      · rfl
    rw [Asked.call_note_of_not_sys hsys, (h.sameIncarnation hnone halloc).1]
    exact hinv.named _ e (hres hr)
  | looked hpc hcur hid _ hkern =>
    rw [hkern, envid2env_id hid]
    simp [Asked.note, hpc, idOf, hcur]
  | killed hpc hcur hpend hnone =>
    rw [hnone] at hr
    cases hr

theorem HeldInv.named_step (hok : s.SlotsHeld l.cpu) (h : StepCase s l.cpu s')
    (hr : (s'.pc d).resolved = some e) : (s'.kern.envs e).envId = (Asked.note s l a).call d := by
  by_cases hd : d = l.cpu
  · subst hd
    exact hinv.named_own h hr
  · rw [(h.frame hd).1] at hr
    obtain ⟨hfree, halloc⟩ := hok.untaken hd (.inl (Pc.pointee_of_resolved hr))
    rw [Asked.call_note_of_ne hd]
    rcases h.incarnation_cases e with hsame | hmem | hmem
    · rw [hsame.1]
      exact hinv.named d e hr
    · exact absurd hmem hfree
    · exact absurd hmem halloc

theorem HeldInv.killed_step (h : StepCase s l.cpu s')
    (hpend' : (s'.kern.envs e).envKillPending = true) :
    (s'.kern.envs e).envId = (Asked.note s l a).kill e := by
  have hid : (s.kern.envs e).envKillPending = true ∨ s.pc l.cpu = .destroyLock e →
      (s'.kern.envs e).envId = (s.kern.envs e).envId := by
    intro hor
    rcases h.incarnation_cases e with hsame | hfree | halloc
    · exact hsame.1
    · rw [h.freeing_cases hfree] at hpend'
      cases hpend'
    · rcases hor with hpend | hpc
      · have hfree : s.kern.status e = .free := by
          unfold allocated at halloc
          split at halloc
          · exact hinv.freeList.first halloc
          · cases halloc
        rw [hinv.clean e hfree] at hpend
        cases hpend
      · simp [allocated, hpc] at halloc
  by_cases hpc : s.pc l.cpu = .destroyLock e
  · have hlive := hinv.target l.cpu e (by rw [hpc]; rfl)
    rw [hid (.inr hpc), hinv.named l.cpu e (by rw [hpc]; rfl)]
    simp [Asked.note, hpc, hlive]
  · have hpend : (s.kern.envs e).envKillPending = true := by
      by_contra hnot
      exact hpc (h.pending_source hnot hpend').1
    have hkill : (Asked.note s l a).kill e = a.kill e := by
      unfold Asked.note
      split
      · rfl
      · next f hf =>
        have hne : e ≠ f := by
          rintro rfl
          exact hpc hf
        split
        · simp [update_of_ne hne]
        · rfl
      · rfl
    rw [hid (.inl hpend), hkill]
    exact hinv.killed e hpend

section

variable (hok : s.SlotsHeld c) (h : StepCase s c s')
include hok h

theorem HeldInv.marked_step (hfree : (s'.pc d).inFree = some e) :
    (s'.kern.envs e).envKillPending = true := by
  by_cases hd : d = c
  · subst hd
    cases h.pointee_cases (Pc.pointee_of_inFree hfree) with
    | kept hold _ hin hsys hnone =>
      rcases hin hfree with hin | ⟨_, hpend⟩
      · rcases h.pending_kept (hinv.marked d e hin) with hpend | hmem | hmem
        · exact hpend
        · rw [hnone] at hmem
          cases hmem
        · unfold allocated at hmem
          split at hmem
          · next hpc => exact absurd hpc (hsys _)
          · cases hmem
      · exact hpend
    | looked _ _ _ hnone =>
      rw [hnone] at hfree
      cases hfree
    | killed _ _ hpend _ hkern =>
      rw [hkern]
      exact hpend
  · rw [(h.frame hd).1] at hfree
    obtain ⟨hnfree, hnalloc⟩ := hok.untaken hd (.inl (Pc.pointee_of_inFree hfree))
    rcases h.pending_kept (hinv.marked d e hfree) with hpend | hmem | hmem
    · exact hpend
    · exact absurd hmem hnfree
    · exact absurd hmem hnalloc

/-- A CPU that enters `env_free` is the only one in it for that slot. -/
theorem HeldInv.alone_own (hne : d ≠ c) (hfree : (s'.pc c).inFree = some e) :
    (s.pc d).inFree ≠ some e := by
  intro hd
  have huse : s.Uses d e := .inl (Pc.pointee_of_inFree hd)
  cases h.pointee_cases (Pc.pointee_of_inFree hfree) with
  | kept hold _ hin =>
    rcases hin hfree with hin | ⟨htake, _⟩
    · exact hne (hinv.alone d c e hd hin)
    · exact hok e htake d hne huse
  | looked _ _ _ hnone =>
    rw [hnone] at hfree
    cases hfree
  | killed hpc hcur hpend =>
    exact hok e (by simp [taking, hpc, hcur, hpend]) d hne huse

theorem HeldInv.alone_step {x y : CpuId} (hx : (s'.pc x).inFree = some e)
    (hy : (s'.pc y).inFree = some e) : x = y := by
  by_cases hxc : x = c
  · by_cases hyc : y = c
    · rw [hxc, hyc]
    · rw [(h.frame hyc).1] at hy
      rw [hxc] at hx
      exact absurd hy (hinv.alone_own hok h hyc hx)
  · rw [(h.frame hxc).1] at hx
    by_cases hyc : y = c
    · rw [hyc] at hy
      exact absurd hx (hinv.alone_own hok h hxc hy)
    · rw [(h.frame hyc).1] at hy
      exact hinv.alone x y e hx hy

end

theorem HeldInv.step (hvalid : s.StatusValid) (hboot : s.BootIdle) (hok : s.SlotsHeld l.cpu)
    (h : StepCase s l.cpu s') : HeldInv s' (Asked.note s l a) where
  freeList := h.freeList_step hvalid (fun e he => hinv.changing_live he) hinv.freeList
  clean := fun e hfree => h.clean_step hvalid (hinv.clean e) hfree
  live := by
    intro d e hcur hact
    by_cases hd : d = l.cpu
    · subst hd
      exact h.live_own hvalid hboot (hinv.live _ e) hcur hact
    · rw [(h.frame hd).1] at hact
      rw [(h.frame hd).2] at hcur
      exact hok.status_kept hvalid h hd (.inr ⟨hcur, hact⟩) (hinv.live d e hcur hact)
  target := by
    intro d e ht
    by_cases hd : d = l.cpu
    · subst hd
      exact hinv.target_own hvalid h ht
    · rw [(h.frame hd).1] at ht
      exact hok.status_kept hvalid h hd (.inl ht) (hinv.target d e ht)
  named := fun _ _ hr => hinv.named_step hok h hr
  killed := fun _ hpend => hinv.killed_step h hpend
  marked := fun _ _ hfree => hinv.marked_step hok h hfree
  alone := fun _ _ _ hx hy => hinv.alone_step hok h hx hy

end

theorem HeldInv.start {images : List Kern.Image} {k : Kern} (hboot : boot images = some k) :
    HeldInv (Sys.start k) a := by
  have hnone : ∀ c e, ((Sys.start k).pc c).pointee ≠ some e := by
    intro c e ht
    simp only [Sys.start] at ht
    split at ht <;> cases ht
  have hclear : ∀ e, (k.envs e).envKillPending = false := fun e => (boot_fresh hboot e).2.1
  refine ⟨(boot_queues hboot).1, fun e _ => hclear e, fun c e hcur => ?_, fun c e ht => ?_,
    fun c e hr => ?_, fun e hpend => ?_, fun c e hin => ?_, fun c d e hin => ?_⟩
  · have hcur : k.curenv c = some e := hcur
    rw [boot_curenv hboot c] at hcur
    cases hcur
  · exact absurd ht (hnone c e)
  · exact absurd (Pc.pointee_of_resolved hr) (hnone c e)
  · have hpend : (k.envs e).envKillPending = true := hpend
    rw [hclear e] at hpend
    cases hpend
  · exact absurd (Pc.pointee_of_inFree hin) (hnone c e)
  · exact absurd (Pc.pointee_of_inFree hin) (hnone c e)

theorem heldInv_of_reachable (ok : Sys → Label → Prop) {p : Sys × Asked}
    (himp : ∀ s l, ok s l → s.SlotsHeld l.cpu)
    (hreach : smpAsked.ReachableUnder (fun p l => ok p.1 l) p) : HeldInv p.1 p.2 := by
  apply hreach.invariant
  · rintro ⟨s, _⟩ ⟨⟨_, _, hboot, rfl⟩, rfl⟩
    exact HeldInv.start hboot
  · intro p l p' hreach hinv hok hstep
    obtain ⟨hs, ha⟩ := Machine.record_step hstep
    rw [ha]
    have hsmp := hreach.of_record ok
    exact hinv.step (statusValid_of_reachable hsmp) (bootIdle_of_reachable hsmp)
      (himp p.1 l hok) (step_cases hs).2

end Sys

/-- `sys_env_destroy` acts on the environment it was asked for: what it marks
has that id, and so has what is released because of it; a slot that is being
released is not on the free list, and only one CPU is releasing it. -/
structure DestroysNamed (s : Sys) (a : Asked) : Prop where
  marks : ∀ c e, (s.pc c).destroys = some e → s.kern.status e ≠ .free →
    (s.kern.envs e).envId = a.call c
  frees : ∀ c e, s.pc c = .freeMem e .destroy ∨ s.pc c = .freeLock e .destroy →
    (s.kern.envs e).envId = a.call c
  kills : ∀ c e, s.pc c = .freeMem e .killed ∨ s.pc c = .freeLock e .killed →
    (s.kern.envs e).envId = a.kill e
  once : ∀ c e, (s.pc c).inFree = some e →
    ¬ s.kern.envFreeList.Listed e ∧ ∀ d, (s.pc d).inFree = some e → d = c

variable {s : Sys}

theorem Sys.HeldInv.destroysNamed {a : Asked} (hinv : s.HeldInv a) : DestroysNamed s a where
  marks := fun c e hpc _ => hinv.named c e (Pc.resolved_of_destroys hpc)
  frees := by
    rintro c e (hpc | hpc)
    · exact hinv.named c e (by rw [hpc]; rfl)
    · exact hinv.named c e (by rw [hpc]; rfl)
  kills := by
    rintro c e (hpc | hpc)
    · exact hinv.killed e (hinv.marked c e (by rw [hpc]; rfl))
    · exact hinv.killed e (hinv.marked c e (by rw [hpc]; rfl))
  once := by
    intro c e hin
    refine ⟨fun hlisted => ?_, fun d hd => hinv.alone d c e hd hin⟩
    exact hinv.target c e (Pc.pointee_of_inFree hin) (hinv.freeList.listed_iff.mp hlisted)

/-- In every run in which no slot is released or handed out while the other
CPU uses it, destructions hit the environment they name. -/
theorem destroysNamed_of_slotsHeld {p : Sys × Asked}
    (hrun : smpAsked.ReachableUnder (fun p l => p.1.SlotsHeld l.cpu) p) :
    DestroysNamed p.1 p.2 :=
  (heldInv_of_reachable _ (fun _ _ hok => hok) hrun).destroysNamed

theorem smpAsked_exists_of_run (ok : Sys → Label → Prop) [∀ s l, Decidable (ok s l)]
    (P : Sys → Asked → Prop) [∀ s a, Decidable (P s a)] (images : List Kern.Image)
    (labels : List Label)
    (hrun : ((boot images).bind (fun k => smpAsked.exec (fun p l => ok p.1 l)
      (start k, ⟨fun _ => 0, fun _ => 0⟩) labels)).any (fun p => decide (P p.1 p.2)) = true) :
    ∃ p, smpAsked.ReachableUnder (fun p l => ok p.1 l) p ∧ P p.1 p.2 := by
  cases hboot : boot images with
  | none => simp [hboot] at hrun
  | some k =>
    rw [hboot] at hrun
    exact Machine.exists_reachableUnder_of_exec labels (.init ⟨⟨images, k, hboot, rfl⟩, rfl⟩) hrun

/-- Two environments start. The one on CPU 0 forks environment 2, and CPU 1
takes the child up. -/
def childOnOtherCpu : List Label :=
  [.go 0, .go 0, .go 0, .go 0, .go 1, .go 1, .go 1, .go 1, .go 1,
   .call 0 .exofork, .go 0, .call 0 (.setEnvStatus 6146 1), .go 0, .go 0, .go 0,
   .call 1 .yield, .go 1, .go 1, .go 1, .go 1, .go 1]

/-- The parent destroys the child, and CPU 1 is about to release it. -/
theorem destroysNamed_remoteKill : ∃ p, smpAsked.ReachableUnder (fun p l => p.1.SlotsHeld l.cpu) p ∧
      ((p.1.pc 1).inFree = some 2 ∧ p.2.kill 2 = 6146) ∧ DestroysNamed p.1 p.2 := by
  obtain ⟨p, hp, hfree⟩ := smpAsked_exists_of_run (fun s l => s.SlotsHeld l.cpu)
    (fun s a => (s.pc 1).inFree = some 2 ∧ a.kill 2 = 6146) [.plain, .plain]
    (childOnOtherCpu ++ [.call 0 (.envDestroy 6146), .go 0, .go 0, .call 1 .yield, .go 1, .go 1,
      .go 1]) (by decide +kernel)
  exact ⟨p, hp, hfree, destroysNamed_of_slotsHeld hp⟩

/-- The parent has looked the child up. The child exits, and the environment
that CPU 1 runs next forks into its slot. -/
def slotReusedBeforeKill : List Label :=
  childOnOtherCpu ++ [.call 0 (.envDestroy 6146), .go 0,
    .call 1 (.envDestroy 0), .go 1, .go 1, .go 1, .go 1, .go 1, .go 1, .go 1, .go 1, .go 1,
    .call 1 .exofork, .go 1]

/-- CPU 0 is about to kill the new environment, whose id it was never
given. -/
theorem unnamedKill_reachable : ∃ p, smpAsked.Reachable p ∧ ¬ DestroysNamed p.1 p.2 := by
  obtain ⟨p, hp, hpc, hlive, hid⟩ := smpAsked_exists_of_run (fun _ _ => True)
    (fun s a => (s.pc 0).destroys = some 2 ∧ s.kern.status 2 ≠ .free ∧
      (s.kern.envs 2).envId ≠ a.call 0) [.plain, .plain]
    slotReusedBeforeKill (by decide +kernel)
  exact ⟨p, hp, fun h => hid (h.marks 0 2 hpc hlive)⟩

/-- The slot that the next step of the sender on CPU `c` writes to: the claim
of the receiver and its withdrawal, the mapping of the page, the message and
the wake-up. -/
def Sys.ipcWrites (s : Sys) (c : CpuId) : Option EnvIdx :=
  match s.pc c with
  | .sendLock e _ _ _ => if (s.kern.envs e).envIpcRecving then some e else none
  | .sendMap e _ srcva _ => if srcva = 0 then none else some e
  | .sendUndo e _ | .sendFill e _ _ | .sendWake e => some e
  | _ => none

theorem Sys.resolved_of_ipcWrites {c : CpuId} {e : EnvIdx} (h : e ∈ s.ipcWrites c) :
    (s.pc c).resolved = some e := by
  unfold ipcWrites at h
  split at h
  · next hpc =>
    rw [hpc]
    split at h
    · exact h
    · cases h
  · next hpc =>
    rw [hpc]
    split at h
    · cases h
    · exact h
  · next hpc => rw [hpc]; exact h
  · next hpc => rw [hpc]; exact h
  · next hpc => rw [hpc]; exact h
  · cases h

/-- A sender writes only to the environment it was asked for, and a slot on
the free list is neither runnable nor on the run queue. -/
structure DeliversToNamed (s : Sys) (a : Asked) : Prop where
  addressed : ∀ c, ∀ e ∈ s.ipcWrites c, (s.kern.envs e).envId = a.call c
  dead : ∀ e, s.kern.envFreeList.Listed e →
    s.kern.status e ≠ .runnable ∧ ¬ s.kern.envSchedList.toLinks.Listed e

theorem Sys.HeldInv.deliversToNamed {a : Asked} (hinv : s.HeldInv a)
    (hq : s.kern.envSchedList.Holds (fun e => s.kern.status e = .runnable)) :
    DeliversToNamed s a where
  addressed := fun c e he => hinv.named c e (resolved_of_ipcWrites he)
  dead := by
    intro e hlisted
    have hfree := hinv.freeList.listed_iff.mp hlisted
    have hne : s.kern.status e ≠ .runnable := by simp [hfree]
    exact ⟨hne, fun hin => hne (hq.links.listed_iff.mp hin)⟩

/-- In every run in which no slot is released or handed out while the other
CPU uses it, messages wake only environments that are not runnable, and only
runnable environments receive, messages go to the environment they name. -/
theorem deliversToNamed_of_slotsHeld {p : Sys × Asked} (hrun : smpAsked.ReachableUnder
      (fun p l => p.1.SlotsHeld l.cpu ∧ p.1.QueueTrusted l.cpu) p) :
    DeliversToNamed p.1 p.2 := by
  let ok := fun (s : Sys) (l : Label) => s.SlotsHeld l.cpu ∧ s.QueueTrusted l.cpu
  have hheld : ∀ p, smpAsked.ReachableUnder (fun p l => ok p.1 l) p → p.1.HeldInv p.2 :=
    fun p hreach => heldInv_of_reachable ok (fun _ _ hok => hok.1) hreach
  have hqueue : p.1.kern.envSchedList.Holds (fun e => p.1.kern.status e = .runnable) := by
    apply hrun.invariant
    · rintro ⟨s, _⟩ ⟨⟨_, _, hboot, rfl⟩, rfl⟩
      exact (boot_queues hboot).2
    · intro p l p' hreach hq hok hstep
      have hinv := hheld p hreach
      exact (step_cases (Machine.record_step hstep).1).2.schedList_step
        (statusValid_of_reachable (hreach.of_record ok))
        (fun e he => hinv.changing_live he) hok.2 hinv.freeList hq
  exact (hheld p hrun).deliversToNamed hqueue

/-- The child runs on CPU 0 and blocks in `sys_ipc_recv`; CPU 0 returns to the
parent. -/
def childBlocksUnderParent : List Label :=
  [.go 0, .go 0, .go 0, .go 0, .go 1, .go 1, .go 1, .go 1, .go 1,
   .call 0 .exofork, .go 0, .call 0 (.setEnvStatus 6146 1), .go 0, .go 0, .go 0,
   .call 0 .yield, .go 0, .go 0, .go 0, .go 0, .go 0,
   .call 0 (.ipcRecv 0), .go 0, .go 0, .go 0, .go 0, .go 0, .go 0, .go 0]

/-- The environment on CPU 1 is about to wake the child. -/
theorem deliversToNamed_strangerSends :
    ∃ p, smpAsked.ReachableUnder (fun p l => p.1.SlotsHeld l.cpu ∧ p.1.QueueTrusted l.cpu) p ∧
      (p.1.woken 1 = some 2 ∧ p.2.call 1 = 6146) ∧ DeliversToNamed p.1 p.2 := by
  obtain ⟨p, hp, hwake⟩ := smpAsked_exists_of_run
    (fun s l => s.SlotsHeld l.cpu ∧ s.QueueTrusted l.cpu)
    (fun s a => s.woken 1 = some 2 ∧ a.call 1 = 6146) [.plain, .plain]
    (childBlocksUnderParent ++ [.call 1 (.ipcTrySend 6146 7 0 0), .go 1, .go 1, .go 1, .go 1])
    (by decide +kernel)
  exact ⟨p, hp, hwake, deliversToNamed_of_slotsHeld hp⟩

/-- The environment on CPU 1 has claimed the child; the parent destroys the
child, and then the message is delivered. -/
def destroyedBeforeWake : List Label :=
  childBlocksUnderParent ++ [.call 1 (.ipcTrySend 6146 7 0 0), .go 1, .go 1,
    .call 0 (.envDestroy 6146), .go 0, .go 0, .go 0, .go 0, .go 1, .go 1, .go 1]

/-- The slot of the destroyed child is on the free list and runnable. -/
theorem revivedSlot_reachable : ∃ p, smpAsked.Reachable p ∧ ¬ DeliversToNamed p.1 p.2 := by
  obtain ⟨p, hp, hlisted, hrun⟩ := smpAsked_exists_of_run (fun _ _ => True)
    (fun s _ => s.kern.envFreeList.Listed 2 ∧ s.kern.status 2 = .runnable) [.plain, .plain]
    destroyedBeforeWake (by decide +kernel)
  exact ⟨p, hp, fun h => (h.dead 2 hlisted).1 hrun⟩

end MosSmp
