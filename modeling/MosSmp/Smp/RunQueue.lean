import MosSmp.Smp.Incarnation
import MosSmp.Smp.Atomic

/-!
The run queue and the free list in runs with atomic calls. The comment on
`env_sched_list` says that the list holds exactly the runnable environments.
Most operations test the status before they touch the queue. Two do not:
`sys_ipc_recv` removes its caller whatever the caller's status is, and
`sys_ipc_try_send` inserts its target whatever the target's status is.
`QueueTrusted` is the condition that both find the status they rely on; under
it both queues are exact in every state.

A blocked receiver keeps `env_ipc_recving` when its parent makes it runnable
with `sys_set_env_status`. The next message inserts it a second time, and the
receiver becomes its own successor in the queue.
-/

namespace MosSmp

open Lib Function

namespace Sys

/-- The run queue is duplicate free and holds exactly the runnable
environments; the free list is duplicate free and holds exactly the free
slots. -/
def QueuesExact (s : Sys) : Prop :=
  s.kern.envSchedList.Holds (fun e => s.kern.status e = .runnable) ∧
    s.kern.envFreeList.Holds (fun e => s.kern.status e = .free)

/-- The environment that the next step of CPU `c` blocks, in
`sys_ipc_recv`. -/
def blocking (s : Sys) (c : CpuId) : Option EnvIdx :=
  match s.pc c with
  | .recvLock _ => s.kern.curenv c
  | _ => none

/-- A message wakes no environment that is runnable already, and only a
runnable environment receives. -/
def QueueTrusted (s : Sys) (c : CpuId) : Prop :=
  (∀ e ∈ s.woken c, s.kern.status e ≠ .runnable) ∧
    ∀ e ∈ s.blocking c, s.kern.status e = .runnable

instance (s : Sys) (c : CpuId) : Decidable (s.QueueTrusted c) :=
  @instDecidableAnd _ _ (Option.decidableForallMem _) (Option.decidableForallMem _)

variable {s s' : Sys} {c : CpuId} {e : EnvIdx}

/-- The run queue stays exact when an environment enters it at the tail. -/
theorem holds_enqueue (hq : s.kern.envSchedList.Holds (fun f => s.kern.status f = .runnable))
    (hne : s.kern.status e ≠ .runnable)
    (hst : s'.kern.status = update s.kern.status e .runnable)
    (hsched : s'.kern.envSchedList = s.kern.envSchedList.insertTail e) :
    s'.kern.envSchedList.Holds (fun f => s'.kern.status f = .runnable) := by
  rw [hsched]
  refine (hq.insertTail hne).congr fun f => ?_
  rw [hst, update_apply]
  by_cases hf : f = e <;> simp [hf]

variable {st : EnvStatus}

section

variable (hq : s.kern.envSchedList.Holds (fun f => s.kern.status f = .runnable))
include hq

/-- The run queue stays exact when a queued environment leaves it. -/
theorem holds_dequeue (hrun : s.kern.status e = .runnable) (hne : st ≠ .runnable)
    (hst : s'.kern.status = update s.kern.status e st)
    (hsched : s'.kern.envSchedList = s.kern.envSchedList.remove e) :
    s'.kern.envSchedList.Holds (fun f => s'.kern.status f = .runnable) := by
  rw [hsched]
  refine (hq.remove hrun).congr fun f => ?_
  rw [hst, update_apply]
  by_cases hf : f = e <;> simp [hf, hne]

/-- The run queue stays exact when a status changes that is not, and does not
become, the runnable one. -/
theorem holds_aside (hiff : s.kern.status e = .runnable ↔ st = .runnable)
    (hst : s'.kern.status = update s.kern.status e st)
    (hsched : s'.kern.envSchedList = s.kern.envSchedList) :
    s'.kern.envSchedList.Holds (fun f => s'.kern.status f = .runnable) := by
  rw [hsched]
  refine hq.congr fun f => ?_
  rw [hst, update_apply]
  by_cases hf : f = e
  · subst hf
    simpa using hiff
  · simp [hf]

end

theorem schedList_status (hlive : s.kern.status e ≠ .free) (hvalid : st ≠ .free)
    (hq : s.kern.envSchedList.Holds (fun f => s.kern.status f = .runnable))
    (hst : s'.kern.status = update s.kern.status e st)
    (hsched : s'.kern.envSchedList =
      if st = .runnable ∧ s.kern.status e ≠ .runnable then s.kern.envSchedList.insertTail e
      else if st = .notRunnable ∧ s.kern.status e ≠ .notRunnable then
        s.kern.envSchedList.remove e
      else s.kern.envSchedList) :
    s'.kern.envSchedList.Holds (fun f => s'.kern.status f = .runnable) := by
  cases st with
  | free => exact absurd rfl hvalid
  | runnable =>
    by_cases hrun : s.kern.status e = .runnable
    · exact holds_aside hq (by simp [hrun]) hst (by simpa [hrun] using hsched)
    · exact holds_enqueue hq hrun hst (by simpa [hrun] using hsched)
  | notRunnable =>
    cases hold : s.kern.status e with
    | free => exact absurd hold hlive
    | runnable => exact holds_dequeue hq hold (by simp) hst (by simpa [hold] using hsched)
    | notRunnable => exact holds_aside hq (by simp [hold]) hst (by simpa [hold] using hsched)

/-- The run queue stays exact under the same condition as the free list, if
messages and receives find the status they rely on. -/
theorem StepCase.schedList_step (h : StepCase s c s') (hvalid : s.StatusValid)
    (hlive : ∀ e ∈ s.changing c, s.kern.status e ≠ .free) (hok : s.QueueTrusted c)
    (hfreeList : s.kern.envFreeList.Holds (fun f => s.kern.status f = .free))
    (hq : s.kern.envSchedList.Holds (fun f => s.kern.status f = .runnable)) :
    s'.kern.envSchedList.Holds (fun f => s'.kern.status f = .runnable) := by
  cases h.queue_effect with
  | same hst _ hsched =>
    rw [hst, hsched]
    exact hq
  | block e dstva hpc hcur hst _ hsched =>
    have hrun : s.kern.status e = .runnable := hok.2 e (by simp [blocking, hpc, hcur])
    exact holds_dequeue hq hrun (by simp) hst hsched
  | status e st hpc hst _ hsched =>
    have he := hlive e (by simp [changing, hpc])
    exact schedList_status he (hvalid c e st hpc) hq hst hsched
  | wake e hpc hst _ hsched =>
    have hne : s.kern.status e ≠ .runnable := hok.1 e (by simp [woken, hpc])
    exact holds_enqueue hq hne hst hsched
  | free e kind hpc hst _ hsched =>
    by_cases hrun : s.kern.status e = .runnable
    · exact holds_dequeue hq hrun (by simp) hst (by simpa [hrun] using hsched)
    · exact holds_aside hq (by simp [hrun]) hst (by simpa [hrun] using hsched)
  | fork e hpc hfirst hst _ hsched =>
    have hfree : s.kern.status e = .free := hfreeList.first hfirst
    exact holds_aside hq (by simp [hfree]) hst hsched
  | rotate e hrun hst _ hsched =>
    rw [hst, hsched]
    have hout := hq.remove hrun
    refine (hout.insertTail (by simp)).congr fun f => ?_
    by_cases hf : f = e
    · subst hf
      simp [hrun]
    · simp [hf]

end Sys

/-- In every run with atomic calls in which messages wake only environments
that are not runnable, and only runnable environments receive, the two queues
are exact in every state. -/
theorem queuesExact_of_queueTrusted {s : Sys}
    (hrun : smp.ReachableUnder (fun s l => s.Atomic l.cpu ∧ s.QueueTrusted l.cpu) s) :
    s.QueuesExact := by
  have hatom : ∀ {s : Sys},
      smp.ReachableUnder (fun s l => s.Atomic l.cpu ∧ s.QueueTrusted l.cpu) s → s.AtomicInv :=
    fun hreach => Sys.atomicInv_of_reachable (fun _ _ hok => hok.1) hreach
  refine ⟨?_, (hatom hrun).freeList⟩
  apply hrun.invariant
  · rintro s ⟨_, _, hboot, rfl⟩
    exact (Kern.boot_queues hboot).2
  · intro s l s' hreach hq hok hstep
    have hinv := hatom hreach
    exact (Sys.step_cases hstep).2.schedList_step (Sys.statusValid_of_reachable hreach)
      (fun e he => hinv.changing_live he) hok.2 hinv.freeList hq

/-- The child blocks in `sys_ipc_recv` and its parent sends it a message. -/
theorem queuesExact_childWoken :
    ∃ s, smp.ReachableUnder (fun s l => s.Atomic l.cpu ∧ s.QueueTrusted l.cpu) s ∧
      (s.kern.status 1 = .runnable ∧ s.kern.envSchedList.next 0 = some 1) ∧ s.QueuesExact := by
  obtain ⟨s, hs, hwoken⟩ := smp_exists_of_run (fun s l => s.Atomic l.cpu ∧ s.QueueTrusted l.cpu)
    (fun s => s.kern.status 1 = .runnable ∧ s.kern.envSchedList.next 0 = some 1) [.plain]
    (childBlocks ++ [.call 0 (.ipcTrySend 4097 7 0 0), .go 0, .go 0, .go 0, .go 0, .go 0])
    (by decide +kernel)
  exact ⟨s, hs, hwoken, queuesExact_of_queueTrusted hs⟩

/-- The parent makes the blocked child runnable, and then sends to it. -/
def wokenTwice : List Label :=
  [.call 0 (.setEnvStatus 4097 1), .go 0, .go 0, .go 0,
   .call 0 (.ipcTrySend 4097 7 0 0), .go 0, .go 0, .go 0, .go 0, .go 0]

/-- With atomic calls, the child becomes its own successor in the run
queue. -/
theorem queuedTwice_reachable :
    ∃ s, smp.ReachableUnder (fun s l => s.Atomic l.cpu) s ∧ ¬ s.QueuesExact := by
  obtain ⟨s, hs, hst, hnext⟩ := smp_exists_of_run (fun s l => s.Atomic l.cpu)
    (fun s => s.kern.status 1 = .runnable ∧ s.kern.envSchedList.next 1 = some 1) [.plain]
    (childBlocks ++ wokenTwice) (by decide +kernel)
  exact ⟨s, hs, fun h => h.1.next_ne hst hnext⟩

end MosSmp
