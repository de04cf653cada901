import MosSmp.Smp.Kill
import MosSmp.Smp.QueueEffect

/-!
Runs in which system calls are atomic. A CPU takes a step only while the other
one is at rest: in user mode, in the idle loop of `schedule`, waiting for a
remote release, or still booting. An environment may go on issuing calls on
its CPU until that CPU next schedules, whatever the other CPU has done to its
status in the meantime.

In such runs the free list is always exactly the list of free slots, the
running marks are sound, and an environment that a CPU works for is never
freed by the other CPU. These facts need no condition on the calls; the
invariants of the run queue and of IPC are built on them.
-/

namespace MosSmp

open Lib Function Kern

namespace Pc

def resting : Pc → Bool
  | .boot | .user | .schedSpin | .waitRemote _ _ => true
  | _ => false

end Pc

namespace Sys

/-- The other CPU is at rest. -/
def Atomic (s : Sys) (c : CpuId) : Prop :=
  ∀ d, d ≠ c → (s.pc d).resting = true

instance (s : Sys) (c : CpuId) : Decidable (s.Atomic c) :=
  inferInstanceAs (Decidable (∀ d, d ≠ c → _))

/-- What a CPU in the middle of a call relies on: its target is still alive,
and nobody else runs the environment it gives up or releases. -/
def PcSound (s : Sys) (c : CpuId) : Prop :=
  match s.pc c with
  | .statusLock e _ | .sendLock e _ _ _ | .sendMap e _ _ _ | .sendUndo e _ | .sendFill e _ _
  | .sendWake e => s.kern.status e ≠ .free
  | .freeMem e _ | .freeLock e _ =>
    s.kern.status e ≠ .free ∧ ∀ d, d ≠ c → ¬ s.kern.runsOn e d
  | .recvTail | .sched true | .schedLock true =>
    ∀ e, s.kern.curenv c = some e → ∀ d, d ≠ c → ¬ s.kern.runsOn e d
  | _ => True

structure AtomicInv (s : Sys) : Prop where
  marks : MarkInv s
  freeList : s.kern.envFreeList.Holds (fun e => s.kern.status e = .free)
  idle : ∀ e, s.kern.status e = .free →
    (s.kern.envs e).envRunning = false ∨ ∃ c, s.pc c = .envRun e
  clean : ∀ e, s.kern.status e = .free → (s.kern.envs e).envKillPending = false
  live : ∀ c e, s.kern.curenv c = some e → (s.pc c).active e = true → s.kern.status e ≠ .free
  sound : ∀ c, s.PcSound c

variable {s s' : Sys} {c d : CpuId} {e : EnvIdx}

theorem pcSound_of_resting (h : (s.pc c).resting = true) : s.PcSound c := by
  unfold PcSound
  cases hpc : s.pc c <;> simp_all [Pc.resting]

/-- An environment that the CPU is active for is not run by the other. -/
theorem MarkInv.not_runsOn_other (hmarks : MarkInv s) (hcur : s.kern.curenv c = some e)
    (hact : (s.pc c).active e = true) (hne : d ≠ c) : ¬ s.kern.runsOn e d :=
  fun hd => hne (Kern.runsOn_unique hd (hmarks.active c e hcur hact))

theorem StepCase.free_source (h : StepCase s c s') (hvalid : s.StatusValid)
    (hfree : s'.kern.status e = .free) : s.kern.status e = .free ∨ e ∈ s.freeing c := by
  cases h.queue_effect with
  | same hst | rotate f _ hst => exact .inl (hst ▸ hfree)
  | block f dstva hpc hcur hst | wake f hpc hst | fork f hpc hfirst hst =>
    by_cases hf : e = f
    · subst hf
      simp [hst] at hfree
    · exact .inl (by simpa [hst, update_of_ne hf] using hfree)
  | status f st hpc hst =>
    by_cases hf : e = f
    · subst hf
      rw [hst, update_self] at hfree
      exact absurd hfree (hvalid c e st hpc)
    · exact .inl (by simpa [hst, update_of_ne hf] using hfree)
  | free f kind hpc hst =>
    by_cases hf : e = f
    · subst hf
      exact .inr (by simp [freeing, hpc])
    · exact .inl (by simpa [hst, update_of_ne hf] using hfree)

theorem free_iff_of_update {st : EnvStatus} (hst' : s'.kern.status = update s.kern.status e st)
    (he : s.kern.status e ≠ .free) (hst : st ≠ .free) (f : EnvIdx) :
    s.kern.status f = .free ↔ s'.kern.status f = .free := by
  rw [hst', update_apply]
  by_cases hf : f = e
  · subst hf
    simp [he, hst]
  · simp [hf]

/-- The environment that leaves or changes its status in the next step of
CPU `c`, `env_alloc` apart. -/
def changing (s : Sys) (c : CpuId) : Option EnvIdx :=
  match s.pc c with
  | .recvLock _ => s.kern.curenv c
  | .statusLock e _ | .sendWake e | .freeLock e _ => some e
  | _ => none

/-- The free list stays exact as long as no step changes the status of a slot
that is on it. -/
theorem StepCase.freeList_step (h : StepCase s c s') (hvalid : s.StatusValid)
    (hlive : ∀ e ∈ s.changing c, s.kern.status e ≠ .free)
    (hq : s.kern.envFreeList.Holds (fun e => s.kern.status e = .free)) :
    s'.kern.envFreeList.Holds (fun e => s'.kern.status e = .free) := by
  cases h.queue_effect with
  | same hst hfree | rotate f _ hst hfree =>
    rw [hst, hfree]
    exact hq
  | block e dstva hpc hcur hst hfree =>
    have he := hlive e (by simp [changing, hpc, hcur])
    rw [hfree]
    exact hq.congr (free_iff_of_update hst he (by simp))
  | status e st hpc hst hfree =>
    have he := hlive e (by simp [changing, hpc])
    rw [hfree]
    exact hq.congr (free_iff_of_update hst he (hvalid c e st hpc))
  | wake e hpc hst hfree =>
    have he := hlive e (by simp [changing, hpc])
    rw [hfree]
    exact hq.congr (free_iff_of_update hst he (by simp))
  | free e kind hpc hst hfree =>
    have he := hlive e (by simp [changing, hpc])
    rw [hfree]
    refine (hq.insertHead he).congr fun f => ?_
    rw [hst, update_apply]
    by_cases hf : f = e <;> simp [hf]
  | fork e hpc hfirst hst hfree =>
    rw [hfree]
    refine (hq.remove (hq.first hfirst)).congr fun f => ?_
    rw [hst, update_apply]
    by_cases hf : f = e <;> simp [hf]

section

variable (hinv : AtomicInv s)
include hinv

theorem AtomicInv.not_runsOn_descheduled {yield : Bool}
    (hpc : s.pc c = .sched yield ∨ s.pc c = .schedLock yield) (hcur : s.kern.curenv c = some e)
    (hne : d ≠ c) : ¬ s.kern.runsOn e d := by
  have hsound := hinv.sound c
  unfold PcSound at hsound
  cases yield with
  | true => rcases hpc with hpc | hpc <;> rw [hpc] at hsound <;> exact hsound e hcur d hne
  | false =>
    apply hinv.marks.not_runsOn_other hcur _ hne
    rcases hpc with hpc | hpc <;> rw [hpc] <;> rfl

/-- In atomic runs the steps keep the other CPU's marks. -/
theorem AtomicInv.marksKept (hatom : s.Atomic c) : s.MarksKept c := by
  refine ⟨fun e he d hne => ?_, fun e he d hne => ?_, fun e he d => ?_⟩
  · unfold descheduled at he
    split at he
    · next yield hpc =>
      split at he
      · exact hinv.not_runsOn_descheduled (.inr hpc) (by simpa using he) hne
      · cases he
    · cases he
  · unfold freeing at he
    split at he
    · next f kind hpc =>
      obtain rfl : f = e := by simpa using he
      have hsound := hinv.sound c
      unfold PcSound at hsound
      rw [hpc] at hsound
      exact hsound.2 d hne
    · cases he
  · unfold allocated at he
    split at he
    · next hpc =>
      have hfree := hinv.freeList.first he
      rintro ⟨hrun, _⟩
      rcases hinv.idle e hfree with hidle | ⟨a, ha⟩
      · rw [hidle] at hrun
        cases hrun
      · have hac : a ≠ c := by
          rintro rfl
          cases hpc.symm.trans ha
        have hrest := hatom a hac
        rw [ha] at hrest
        cases hrest
    · cases he

theorem AtomicInv.changing_live (he : e ∈ s.changing c) : s.kern.status e ≠ .free := by
  have hsound := hinv.sound c
  unfold PcSound at hsound
  unfold changing at he
  split at he
  · next dstva hpc => exact hinv.live c e he (by rw [hpc]; rfl)
  · next f st hpc =>
    obtain rfl : f = e := by simpa using he
    rw [hpc] at hsound
    exact hsound
  · next f hpc =>
    obtain rfl : f = e := by simpa using he
    rw [hpc] at hsound
    exact hsound
  · next f kind hpc =>
    obtain rfl : f = e := by simpa using he
    rw [hpc] at hsound
    exact hsound.1
  · cases he

theorem AtomicInv.idle_step (hvalid : s.StatusValid) (hatom : s.Atomic c) (h : StepCase s c s')
    (hfree : s'.kern.status e = .free) :
    (s'.kern.envs e).envRunning = false ∨ ∃ a, s'.pc a = .envRun e := by
  rcases h.free_source hvalid hfree with hold | hfreeing
  · rcases hinv.idle e hold with hidle | ⟨a, ha⟩
    · cases h.env_effect e with
      | assign hpc => exact .inr ⟨c, hpc⟩
      | data tf runs value from_ perm heq | status st hpc heq
      | take value srcva perm hpc hrecv heq | undo err hpc heq | wake hpc heq
      | killRemote hpc hlive hrun hcpu heq | killLocal hpc hlive hrun heq =>
        exact .inl (by rw [heq]; exact hidle)
      | reset pgdir halloc heq | free hfree heq => exact .inl (by rw [heq]; rfl)
      | fork id asid parentId pgdir pri tf halloc hstamp hrecvs hsends heq =>
        exact .inl (by rw [heq]; rfl)
      | block dstva hpc hcur heq | release hdes heq => exact .inl (by rw [heq])
    · by_cases hac : a = c
      · subst hac
        rcases h.envRun_cases ha with ⟨hrun, _⟩ | ⟨_, hpc, _⟩
        · rw [status, hrun] at hold
          cases hold
        · exact .inr ⟨a, hpc⟩
      · have hrest := hatom a hac
        rw [ha] at hrest
        cases hrest
  · exact .inl (by rw [h.freeing_cases hfreeing]; rfl)

end

/-- A CPU that works for an environment after its step works for a live
one. -/
theorem StepCase.live_own (h : StepCase s c s') (hvalid : s.StatusValid) (hboot : s.BootIdle)
    (hlive : s.kern.curenv c = some e → (s.pc c).active e = true → s.kern.status e ≠ .free)
    (hcur : s'.kern.curenv c = some e) (hact : (s'.pc c).active e = true) :
    s'.kern.status e ≠ .free := by
  intro hfree
  rcases h.active_cases hcur hact with ⟨hcur, hact, _⟩ | ⟨hpc, _⟩ | ⟨hpc, hcur⟩
  · rcases h.free_source hvalid hfree with hold | hold
    · exact hlive hcur hact hold
    · unfold freeing at hold
      split at hold
      · next f kind hpc =>
        obtain rfl : f = e := by simpa using hold
        simp [hpc, Pc.active] at hact
      · cases hold
  · rcases h.envRun_cases hpc with ⟨hrun, _⟩ | ⟨_, hpc', _⟩
    · rcases h.free_source hvalid hfree with hold | hold
      · rw [status, hrun] at hold
        cases hold
      · simp [freeing, hpc] at hold
    · simp [hpc', Pc.active] at hact
  · rw [hboot c hpc] at hcur
    cases hcur

section

variable (hinv : AtomicInv s)
include hinv

theorem AtomicInv.live_other (hvalid : s.StatusValid) (hkept : s.MarksKept c) (h : StepCase s c s')
    (hne : d ≠ c) (hcur : s.kern.curenv d = some e) (hact : (s.pc d).active e = true) :
    s'.kern.status e ≠ .free := by
  intro hfree
  rcases h.free_source hvalid hfree with hold | hfreeing
  · exact hinv.live d e hcur hact hold
  · exact hkept.2.1 e hfreeing d hne (hinv.marks.active d e hcur hact)

theorem AtomicInv.goes_sound {p q : Pc} (hgo : Goes s c p q) (hpc : s.pc c = p) :
    PcSound (s.goto c q) c := by
  unfold PcSound
  rw [goto_pc, update_self]
  have hsound := hinv.sound c
  unfold PcSound at hsound
  rw [hpc] at hsound
  cases hgo with
  | yield | statusSelf hcur =>
    intro e hcur d hne
    exact hinv.marks.not_runsOn_other hcur (by rw [hpc]; rfl) hne
  | setStatus hcur _ hid =>
    exact envid2env_live hid (hinv.live c _ hcur (by rw [hpc]; rfl))
  | send hcur hid => exact envid2env_live hid (hinv.live c _ hcur (by rw [hpc]; rfl))
  | mapped | mapFails => exact hsound
  | kill hcur hpend =>
    refine ⟨fun hfree => ?_, fun d hne => ?_⟩
    · rw [hinv.clean _ hfree] at hpend
      cases hpend
    · exact hinv.not_runsOn_descheduled (.inl hpc) hcur hne
  | _ => trivial

theorem AtomicInv.sound_own (h : StepCase s c s') : s'.PcSound c := by
  have hsound := hinv.sound c
  unfold PcSound at hsound ⊢
  cases h with
  | goes p hgo => exact hinv.goes_sound hgo rfl
  | block hor =>
    rw [goto_pc, update_self]
    intro e hcur d hne
    have hcur : s.kern.curenv c = some e := by simpa using hcur
    rcases hor with hpc | ⟨_, hpc⟩
    · rw [hpc] at hsound
      exact hsound e hcur d hne
    · exact hinv.marks.not_runsOn_other hcur (by rw [hpc]; rfl) hne
  | recv hpc hcur =>
    rw [goto_pc, update_self]
    intro e he d hne hrun
    cases hcur.symm.trans (by simpa using he)
    simp [runsOn, envs_recvSection] at hrun
  | sendTake hpc =>
    rw [hpc] at hsound
    rw [goto_pc, update_self]
    simpa [status, envs_setRecving] using hsound
  | sendFill hpc =>
    rw [hpc] at hsound
    rw [goto_pc, update_self]
    simpa [status, envs_fillIpc] using hsound
  | destroyLocal hpc _ hlive hor =>
    rw [goto_pc, update_self]
    refine ⟨?_, fun d hne hrun => ?_⟩
    · simpa [status] using hlive
    · obtain ⟨hmark, hcpu⟩ : (s.kern.envs _).envRunning = true ∧
          (s.kern.envs _).envCpuId = some d := by simpa [runsOn] using hrun
      rcases hor with hidle | hown
      · rw [hidle] at hmark
        cases hmark
      · exact hne (Option.some.inj (hcpu.symm.trans hown))
  | freeMem hpc =>
    rw [hpc] at hsound
    rw [goto_pc, update_self]
    exact hsound
  | leave =>
    rw [goto_pc, update_self]
    intro e hcur
    simp [curenv_setCurenv] at hcur
  | @lockSched yield hpc =>
    rw [hpc] at hsound
    simp only [noteScheduleReady, goto_pc, update_self]
    cases yield with
    | true => exact hsound
    | false => trivial
  | tick =>
    simp only [Sys.tick, goto_pc, update_self]
    cases s.kern.timerScheduleReady <;> trivial
  | enter => simp [Sys.enter]
  | halt => exact hsound
  | _ => simp

theorem AtomicInv.step (hvalid : s.StatusValid) (hboot : s.BootIdle) (hatom : s.Atomic c)
    (h : StepCase s c s') : AtomicInv s' := by
  have hkept := hinv.marksKept hatom
  refine ⟨hinv.marks.step hboot h hkept,
    h.freeList_step hvalid (fun e he => hinv.changing_live he) hinv.freeList,
    ?_, ?_, ?_, ?_⟩
  · intro e hfree
    exact hinv.idle_step hvalid hatom h hfree
  · intro e hfree
    exact h.clean_step hvalid (hinv.clean e) hfree
  · intro d e hcur hact
    by_cases hd : d = c
    · subst hd
      exact h.live_own hvalid hboot (hinv.live d e) hcur hact
    · rw [(h.frame hd).1] at hact
      rw [(h.frame hd).2] at hcur
      exact hinv.live_other hvalid hkept h hd hcur hact
  · intro d
    by_cases hd : d = c
    · subst hd
      exact hinv.sound_own h
    · apply pcSound_of_resting
      rw [(h.frame hd).1]
      exact hatom d hd

end

theorem AtomicInv.start {images : List Kern.Image} {k : Kern}
    (hboot : boot images = some k) : AtomicInv (Sys.start k) where
  marks := MarkInv.start hboot
  freeList := (boot_queues hboot).1
  idle := fun e _ => .inl (boot_fresh hboot e).1
  clean := fun e _ => (boot_fresh hboot e).2.1
  live := by
    intro c e hcur
    have hnone : k.curenv c = some e := hcur
    rw [boot_curenv hboot c] at hnone
    cases hnone
  sound := by
    intro c
    unfold PcSound Sys.start
    by_cases hc : c = 0 <;> simp [hc]

theorem atomicInv_of_reachable {ok : Sys → Label → Prop}
    (himp : ∀ s l, ok s l → s.Atomic l.cpu) (hreach : smp.ReachableUnder ok s) :
    AtomicInv s := by
  apply hreach.invariant
  · rintro s ⟨_, _, hboot, rfl⟩
    exact AtomicInv.start hboot
  · intro s l s' hreach hinv hok hstep
    exact hinv.step (statusValid_of_reachable hreach) (bootIdle_of_reachable hreach)
      (himp s l hok) (step_cases hstep).2

end Sys

end MosSmp
