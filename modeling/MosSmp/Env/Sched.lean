import MosSmp.Env.Alloc

/-!
The critical section of `schedule`. `pick` is the inner loop over the run
queue, `release` what happens to the previous environment of the CPU before
the loop, `assign` what happens to the chosen one. The outer loop gives the
lock back whenever the queue holds nothing for this CPU, so one execution of
the section ends in a chosen environment or in the spin state, from which the
inner loop is entered again.
-/

namespace MosSmp

open Lib

namespace Kern

/-- The test of the inner loop of `schedule` on CPU `c`. -/
def eligible (k : Kern) (c : CpuId) (e : EnvIdx) : Bool :=
  ((k.envs e).envPinnedCpu = none ∨ (k.envs e).envPinnedCpu = some c) &&
    !(k.envs e).envKillPending &&
    ((k.envs e).envRunning = false ∨ (k.envs e).envCpuId = some c)

/-- The first environment of the run queue that passes the test. A queue
without a cycle is exhausted after `NENV` nodes. -/
def pick (k : Kern) (c : CpuId) : Links.Scan EnvIdx :=
  k.envSchedList.toLinks.scan (k.eligible c) NENV k.envSchedList.first

/-- The condition under which `schedule` switches to another environment. -/
def switches (k : Kern) (c : CpuId) (yield : Bool) : Bool :=
  yield || (k.cpuData c).schedCount = 0 ||
    match k.curenv c with
    | none => true
    | some e => (k.envs e).envStatus ≠ .runnable

/-- Clear the running mark of the previous environment, and move it to the
tail of the queue if it is still runnable. -/
def release (k : Kern) (c : CpuId) : Kern :=
  match k.curenv c with
  | none => k
  | some e =>
    let k := k.updEnv e (fun x => { x with envRunning := false, envCpuId := none })
    if (k.envs e).envStatus = .runnable then
      { k with envSchedList := (k.envSchedList.remove e).insertTail e }
    else k

/-- Mark the chosen environment as running here, and start its time slices
with this one already counted. -/
def assign (k : Kern) (c : CpuId) (e : EnvIdx) : Kern :=
  (k.updEnv e (fun x => { x with envRunning := true, envCpuId := some c })).updCpu c
    (fun d => { d with schedCount := (k.envs e).envPri - 1 })

/-- The outcome of one execution of the section. A traversal of a cyclic
queue never gives the lock back. -/
inductive SchedOutcome
  | run (e : EnvIdx) (k : Kern)
  | spin (k : Kern)
  | hang

/-- One pass of the inner loop. -/
def pickNext (k : Kern) (c : CpuId) : SchedOutcome :=
  match k.pick c with
  | .found e => .run e (k.assign c e)
  | .exhausted => .spin k
  | .cyclic => .hang

/-- Use up one time slice. -/
def countDown (k : Kern) (c : CpuId) : Kern :=
  k.updCpu c (fun d => { d with schedCount := d.schedCount - 1 })

/-- The section as it is entered from the top of `schedule`. -/
def schedSection (k : Kern) (c : CpuId) (yield : Bool) : SchedOutcome :=
  if k.switches c yield then (k.release c).pickNext c
  else
    match k.curenv c with
    | some e => .run e (k.countDown c)
    | none => .hang

end Kern

end MosSmp
