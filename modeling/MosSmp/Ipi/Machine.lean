import Mathlib.Logic.Function.Basic
import MosSmp.Lib.Transition
import MosSmp.Word

/-!
The calls between CPUs of `kern/smp.c`, with the shared-memory variant of the
interrupt: `smp_group_function_call`, `ipi_wait_done`, `handle_ipi_irq` and
`handle_timer_irq`. Every read and every write of the shared arrays is a step
of its own; in particular `ipi_pending[cpu] |= signal` and
`ipi_pending[cpu] &= ~status` are a load followed by a store.

A CPU has a stack of activations, the running one first, because
`ipi_wait_done` serves calls while it waits, a function that is called may
itself call, and a timer interrupt may come between any two steps while
interrupts are enabled. With two CPUs the loop of `smp_group_function_call`
has one turn, for the other CPU.

Some entries of `Port` are not kernel state. They record the calls that were
made, those that took the lock, the functions that were executed, and how many
executions have ended, calls have returned and pending bits were cleared.
-/

namespace MosSmp

open Lib Function

def IPI_START : Word := 0x1
def IPI_CALL : Word := 0x2

/-- A function and its arguments, as they stand in a mailbox. -/
structure Call where
  fn : Word
  arg0 : Word
  arg1 : Word
  deriving DecidableEq

/-- What the functions do with the mailboxes: nothing, or one call of
`smp_group_function_call` for a function that makes no such call itself. -/
structure Handlers where
  callBack : Call → Option Call
  plain : ∀ x y, callBack x = some y → callBack y = none

/-- Where an activation of `smp_group_function_call` stands. -/
inductive CallPc
  | enter
  | lock
  | clearDone
  | writeFn
  | writeArg0
  | writeArg1
  | sendLoad
  | sendStore (pending : Word)
  | waitDone
  | waitPoll
  | resetFn
  | unlock
  deriving DecidableEq

/-- Where an activation of `handle_ipi_irq` stands. -/
inductive IrqPc
  | status
  | clearLoad (status : Word)
  | clearStore (status pending : Word)
  | dispatch (status : Word)
  | readFn
  | readArg0 (fn : Word)
  | readArg1 (fn arg0 : Word)
  | invoke (x : Call)
  | finish (x : Call)
  | setDone
  deriving DecidableEq

inductive Frame
  | call (x : Call) (p : CallPc)
  | irq (p : IrqPc)
  | timer
  deriving DecidableEq

/-- The entries of the shared arrays for one CPU, and the history of the calls
for it. -/
structure Port where
  ipiReady : Bool
  ipiDone : Bool
  ipiPending : Word
  ipiMailbox : Call
  ipiMailboxLock : Bool
  called : List Call
  issued : List Call
  executed : List Call
  finished : Nat
  returned : Nat
  cleared : Nat
  deriving DecidableEq

/-- One step of `smp_group_function_call` for the CPU with port `b`, where
`own` is the word `ipi_pending` of the calling CPU: the port afterwards and
what replaces the activation on the stack. -/
def CallPc.step (x : Call) (own : Word) (b : Port) : CallPc → Port × List Frame
  | .enter =>
    if x.fn = 0 ∨ b.ipiReady = false then (b, [])
    else ({ b with called := b.called ++ [x] }, [.call x .lock])
  | .lock =>
    if b.ipiMailboxLock then (b, [.call x .lock])
    else ({ b with ipiMailboxLock := true, issued := b.issued ++ [x] }, [.call x .clearDone])
  | .clearDone => ({ b with ipiDone := false }, [.call x .writeFn])
  | .writeFn => ({ b with ipiMailbox := { b.ipiMailbox with fn := x.fn } }, [.call x .writeArg0])
  | .writeArg0 =>
    ({ b with ipiMailbox := { b.ipiMailbox with arg0 := x.arg0 } }, [.call x .writeArg1])
  | .writeArg1 =>
    ({ b with ipiMailbox := { b.ipiMailbox with arg1 := x.arg1 } }, [.call x .sendLoad])
  | .sendLoad => (b, [.call x (.sendStore b.ipiPending)])
  | .sendStore pending => ({ b with ipiPending := pending ||| IPI_CALL }, [.call x .waitDone])
  | .waitDone => (b, [.call x (if b.ipiDone then .resetFn else .waitPoll)])
  | .waitPoll =>
    if own = 0 then (b, [.call x .waitDone]) else (b, [.irq .status, .call x .waitDone])
  | .resetFn => ({ b with ipiMailbox := { b.ipiMailbox with fn := 0 } }, [.call x .unlock])
  | .unlock => ({ b with ipiMailboxLock := false, returned := b.returned + 1 }, [])

/-- The port after the store of `ipi_status_clear`. -/
def Port.clear (b : Port) (status pending : Word) : Port :=
  { b with
    ipiPending := pending &&& ~~~status
    cleared := if b.ipiPending &&& IPI_CALL ≠ 0 ∧ (pending &&& ~~~status) &&& IPI_CALL = 0
      then b.cleared + 1 else b.cleared }

/-- One step of `handle_ipi_irq` on the CPU with port `b`. -/
def IrqPc.step (h : Handlers) (b : Port) : IrqPc → Port × List Frame
  | .status =>
    if b.ipiPending = 0 then (b, []) else (b, [.irq (.clearLoad b.ipiPending)])
  | .clearLoad w => (b, [.irq (.clearStore w b.ipiPending)])
  | .clearStore w pending => (b.clear w pending, [.irq (.dispatch w)])
  | .dispatch w =>
    (if w &&& IPI_START ≠ 0 then { b with ipiReady := true } else b,
      if w &&& IPI_CALL ≠ 0 then [.irq .readFn] else [])
  | .readFn => (b, [.irq (.readArg0 b.ipiMailbox.fn)])
  | .readArg0 fn => (b, [.irq (.readArg1 fn b.ipiMailbox.arg0)])
  | .readArg1 fn arg0 => (b, [.irq (.invoke ⟨fn, arg0, b.ipiMailbox.arg1⟩)])
  | .invoke x =>
    if x.fn = 0 then (b, [.irq .setDone])
    else ({ b with executed := b.executed ++ [x] },
      match h.callBack x with
      | none => [.irq (.finish x)]
      | some y => [.call y .enter, .irq (.finish x)])
  | .finish _ => ({ b with finished := b.finished + 1 }, [.irq .setDone])
  | .setDone => ({ b with ipiDone := true }, [])

structure Ipi where
  port : CpuId → Port
  stack : CpuId → List Frame
  timerScheduleReady : Bool
  /-- Interrupts are enabled in the code that runs below any interrupt. -/
  statusIe : CpuId → Bool

inductive IpiLabel
  /-- The running activation of the CPU takes a step. -/
  | step (c : CpuId)
  /-- Kernel code outside the handlers calls `smp_group_function_call`. -/
  | call (c : CpuId) (x : Call)
  /-- A polling loop or the scheduler calls `handle_ipi_irq`. -/
  | poll (c : CpuId)
  | timer (c : CpuId)
  /-- `smp_note_schedule_ready` on CPU 0. -/
  | noteReady

/-- The only other CPU. -/
def other (c : CpuId) : CpuId := 1 - c

theorem other_other : ∀ c : CpuId, other (other c) = c := by decide

theorem other_ne : ∀ c : CpuId, other c ≠ c := by decide

theorem eq_or_eq_other : ∀ c d : CpuId, d = c ∨ d = other c := by decide

namespace Ipi

def replaceTop (s : Ipi) (c d : CpuId) (rest : List Frame) (r : Port × List Frame) : Ipi :=
  { s with
    port := update s.port d r.1
    stack := update s.stack c (r.2 ++ rest) }

def push (s : Ipi) (c : CpuId) (fs : List Frame) : Ipi :=
  { s with stack := update s.stack c (fs ++ s.stack c) }

/-- The end of `handle_timer_irq`. A CPU that enters the scheduler never comes
back to what the interrupt found there, and its kernel code runs with
interrupts disabled from then on. -/
def leaveTimer (s : Ipi) (c : CpuId) (rest : List Frame) : Ipi :=
  if s.timerScheduleReady then
    { s with
      stack := update s.stack c []
      statusIe := update s.statusIe c false }
  else { s with stack := update s.stack c rest }

def exec (h : Handlers) (s : Ipi) : IpiLabel → Option Ipi
  | .step c =>
    match s.stack c with
    | [] => none
    | .call x p :: rest =>
      some (s.replaceTop c (other c) rest
        (p.step x (s.port c).ipiPending (s.port (other c))))
    | .irq p :: rest => some (s.replaceTop c c rest (p.step h (s.port c)))
    | .timer :: rest => some (s.leaveTimer c rest)
  | .call c x => if s.stack c = [] then some (s.push c [.call x .enter]) else none
  | .poll c => if s.stack c = [] then some (s.push c [.irq .status]) else none
  | .timer c =>
    -- The handler of an interrupt runs with interrupts disabled.
    if s.statusIe c = true ∧ Frame.timer ∉ s.stack c then
      some (s.push c [.irq .status, .timer])
    else none
  | .noteReady =>
    if s.stack 0 = [] then some { s with timerScheduleReady := true } else none

end Ipi

/-- A port after `smp_init`, of a CPU that is ready. -/
def Port.start (mailbox : Call) : Port where
  ipiReady := true
  ipiDone := true
  ipiPending := 0
  ipiMailbox := mailbox
  ipiMailboxLock := false
  called := []
  issued := []
  executed := []
  finished := 0
  returned := 0
  cleared := 0

/-- Both CPUs are ready, with interrupts enabled or not, and no call has been
made. -/
def ipi (h : Handlers) : Machine Ipi IpiLabel where
  init s := (∀ c, ∃ mailbox, s.port c = Port.start mailbox) ∧ (∀ c, s.stack c = []) ∧
    s.timerScheduleReady = false
  step := Ipi.exec h

end MosSmp
