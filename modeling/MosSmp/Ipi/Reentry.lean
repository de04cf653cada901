import Mathlib.Data.List.Perm.Basic
import MosSmp.Ipi.Phases

/-!
Exactly-once execution of the calls between CPUs, for every interleaving of
the two CPUs and for timer interrupts between the steps of an activation.

The handler of a timer interrupt calls `handle_ipi_irq` again. Where the
interrupted activation has read a pending bit and not yet cleared it, both
activations serve the same call. Where the interrupt leads to the scheduler,
the interrupted activation never goes on. `Reentrant` is the condition that
interrupts come elsewhere; under it each call is executed exactly once, with
its own values, before it returns.
-/

namespace MosSmp

open Lib Function CallPc

/-- The activation can be given up: it has neither called nor seen a pending
bit. -/
def Frame.idle : Frame → Bool
  | .call _ _ => false
  | .irq .status => true
  | .irq _ => false
  | .timer => true

/-- The calls from one CPU to another, whose port is `b`: the stacks of the
two CPUs fit one phase, and every call that was made has taken the lock or
waits for it. -/
structure Link (b : Port) (caller callee : List Frame) : Prop where
  phase : Phase b (holders caller) (servers callee)
  calls : b.called.Perm (b.issued ++ waiters caller)
  named : ∀ x ∈ b.called, x.fn ≠ 0

section Link

variable {b : Port} {caller callee rest : List Frame} {x : Call} {p : CallPc} {v : IrqPc}
variable {own : Word} {h : Handlers}

theorem Link.congr {caller' callee' : List Frame} (hl : Link b caller callee)
    (hhold : holders caller' = holders caller) (hwait : waiters caller' = waiters caller)
    (hserve : servers callee' = servers callee) : Link b caller' callee' := by
  refine ⟨?_, ?_, hl.named⟩
  · rw [hhold, hserve]
    exact hl.phase
  · rw [hwait]
    exact hl.calls

/-- A step of `smp_group_function_call` serves no call. -/
theorem servers_call_step : servers ((p.step x own b).2 ++ rest) = servers (.call x p :: rest) := by
  cases p <;> simp only [step] <;> first | rfl | (split <;> rfl)

/-- A step of `handle_ipi_irq` makes no call, except through the function. -/
theorem holders_irq_step : holders ((v.step h b).2 ++ rest) = holders (.irq v :: rest) := by
  cases v with
  | invoke y =>
    simp only [IrqPc.step]
    split
    · rfl
    · cases h.callBack y <;> rfl
  | status | dispatch =>
    simp only [IrqPc.step]
    split <;> rfl
  | _ => rfl

theorem waiters_irq_step : waiters ((v.step h b).2 ++ rest) = waiters (.irq v :: rest) := by
  cases v with
  | invoke y =>
    simp only [IrqPc.step]
    split
    · rfl
    · cases h.callBack y <;> rfl
  | status | dispatch =>
    simp only [IrqPc.step]
    split <;> rfl
  | _ => rfl

theorem called_irq_step : (v.step h b).1.called = b.called := by
  cases v <;> simp only [IrqPc.step, Port.clear] <;> first | rfl | (split <;> rfl)

theorem issued_irq_step : (v.step h b).1.issued = b.issued := by
  cases v <;> simp only [IrqPc.step, Port.clear] <;> first | rfl | (split <;> rfl)

theorem Link.issued_named (hl : Link b caller callee) : ∀ x ∈ b.issued, x.fn ≠ 0 := by
  intro x hx
  apply hl.named x
  apply hl.calls.mem_iff.mpr
  exact List.mem_append_left _ hx

theorem Link.irq_step (hl : Link b caller (.irq v :: rest))
    (hrest : ∀ f ∈ rest, f.accepting = false) :
    Link (v.step h b).1 caller ((v.step h b).2 ++ rest) := by
  refine ⟨hl.phase.irq_step hrest hl.issued_named, ?_, ?_⟩
  · rw [called_irq_step, issued_irq_step]
    exact hl.calls
  · rw [called_irq_step]
    exact hl.named

/-- A call is counted when it begins, and takes the lock later. -/
theorem calls_call_step (hcalls : b.called.Perm (b.issued ++ waiters (.call x p :: rest))) :
    (p.step x own b).1.called.Perm
      ((p.step x own b).1.issued ++ waiters ((p.step x own b).2 ++ rest)) := by
  cases p with
  | enter =>
    simp only [step]
    split
    · exact hcalls
    · have hperm : (b.called ++ [x]).Perm (b.issued ++ waiters rest ++ [x]) :=
        hcalls.append_right [x]
      rw [List.append_assoc] at hperm
      exact hperm.trans (List.Perm.append_left _ (List.perm_append_singleton x _))
  | lock =>
    simp only [step]
    split
    · exact hcalls
    · show b.called.Perm (b.issued ++ [x] ++ waiters rest)
      rw [List.append_assoc]
      exact hcalls
  | waitDone | waitPoll =>
    simp only [step]
    split <;> exact hcalls
  | _ => exact hcalls

theorem named_call_step (hnamed : ∀ y ∈ b.called, y.fn ≠ 0) :
    ∀ y ∈ (p.step x own b).1.called, y.fn ≠ 0 := by
  cases p with
  | enter =>
    simp only [step]
    split
    · exact hnamed
    · next hok =>
      intro y hy
      rcases List.mem_append.mp hy with hy | hy
      · exact hnamed y hy
      · rw [List.mem_singleton.mp hy]
        exact fun h => hok (.inl h)
  | lock | waitPoll =>
    simp only [step]
    split <;> exact hnamed
  | _ => exact hnamed

theorem Link.call_step (hl : Link b (.call x p :: rest) callee) :
    Link (p.step x own b).1 ((p.step x own b).2 ++ rest) callee :=
  ⟨hl.phase.call_step, calls_call_step hl.calls, named_call_step hl.named⟩

theorem below_append {new : List Frame} (hnew : ∀ f ∈ new.tail, f.accepting = false)
    (hrest : ∀ f ∈ rest, f.accepting = false) :
    ∀ f ∈ (new ++ rest).tail, f.accepting = false := by
  intro f hf
  cases new with
  | nil => exact hrest f (List.mem_of_mem_tail hf)
  | cons =>
    rcases List.mem_append.mp hf with hf | hf
    · exact hnew f hf
    · exact hrest f hf

/-- What an activation of `smp_group_function_call` becomes. -/
theorem call_step_cases (x : Call) (p : CallPc) (own : Word) (b : Port) :
    (p.step x own b).2 = [] ∨ (∃ q, (p.step x own b).2 = [.call x q]) ∨
    p = .waitPoll ∧ own ≠ 0 ∧ (p.step x own b).2 = [.irq .status, .call x .waitDone] := by
  cases p with
  | enter =>
    simp only [step]
    split
    · exact .inl rfl
    · exact .inr (.inl ⟨_, rfl⟩)
  | lock =>
    simp only [step]
    split <;> exact .inr (.inl ⟨_, rfl⟩)
  | waitPoll =>
    simp only [step]
    split
    · exact .inr (.inl ⟨_, rfl⟩)
    · next hown => exact .inr (.inr ⟨trivial, hown, rfl⟩)
  | unlock => exact .inl rfl
  | _ => exact .inr (.inl ⟨_, rfl⟩)

/-- What an activation of `handle_ipi_irq` becomes. -/
theorem irq_step_cases (h : Handlers) (b : Port) (v : IrqPc) :
    (v.step h b).2 = [] ∨ (∃ w, (v.step h b).2 = [.irq w]) ∨
    ∃ y k, v = .invoke y ∧ h.callBack y = some k ∧
      (v.step h b).2 = [.call k .enter, .irq (.finish y)] := by
  cases v with
  | status =>
    simp only [IrqPc.step]
    split
    · exact .inl rfl
    · exact .inr (.inl ⟨_, rfl⟩)
  | dispatch =>
    simp only [IrqPc.step]
    split
    · exact .inr (.inl ⟨_, rfl⟩)
    · exact .inl rfl
  | invoke y =>
    simp only [IrqPc.step]
    split
    · exact .inr (.inl ⟨_, rfl⟩)
    · cases hback : h.callBack y with
      | none => exact .inr (.inl ⟨_, rfl⟩)
      | some k => exact .inr (.inr ⟨y, k, rfl, hback, rfl⟩)
  | setDone => exact .inl rfl
  | _ => exact .inr (.inl ⟨_, rfl⟩)

theorem below_call_step : ∀ f ∈ (p.step x own b).2.tail, f.accepting = false := by
  rcases call_step_cases x p own b with hnew | ⟨q, hnew⟩ | ⟨_, _, hnew⟩ <;> rw [hnew]
  · simp
  · simp
  · simp [Frame.accepting]

theorem below_irq_step : ∀ f ∈ (v.step h b).2.tail, f.accepting = false := by
  rcases irq_step_cases h b v with hnew | ⟨w, hnew⟩ | ⟨y, k, _, _, hnew⟩ <;> rw [hnew]
  · simp
  · simp
  · simp [Frame.accepting]

theorem quiet_of_idle {fs : List Frame} (hidle : ∀ f ∈ fs, f.idle = true) :
    holders fs = [] ∧ waiters fs = [] ∧ servers fs = [] := by
  refine ⟨?_, ?_, ?_⟩ <;>
    · apply List.filterMap_eq_nil_iff.mpr
      intro f hf
      have h := hidle f hf
      cases f with
      | call => cases h
      | timer => rfl
      | irq v => cases v <;> first | rfl | cases h

end Link

namespace Ipi

/-- An interrupt comes neither between the read of a pending bit and the store
that clears it, nor, where it leads to the scheduler, into the middle of a
call. -/
def Reentrant (s : Ipi) : IpiLabel → Prop
  | .timer c => ∀ f ∈ s.stack c, f.accepting = false
  | .step c => (s.stack c).head? = some .timer → s.timerScheduleReady = true →
      ∀ f ∈ s.stack c, f.idle = true
  | _ => True

instance (s : Ipi) : (l : IpiLabel) → Decidable (s.Reentrant l)
  | .timer _ => inferInstanceAs (Decidable (∀ _ ∈ _, _))
  | .step _ => inferInstanceAs (Decidable (_ → _ → ∀ _ ∈ _, _))
  | .call _ _ | .poll _ | .noteReady => inferInstanceAs (Decidable True)

structure Exact (s : Ipi) : Prop where
  /-- The functions that a CPU executed are, in order, those it was called for. -/
  values : ∀ d, (s.port d).executed <+: (s.port d).issued
  /-- A call returns after its function has ended, and before the next call. -/
  returns : ∀ d, (s.port d).returned ≤ (s.port d).finished ∧
    (s.port d).finished ≤ (s.port d).executed.length ∧
    (s.port d).issued.length ≤ (s.port d).returned + 1
  /-- No call is lost on the way to the mailbox. -/
  calls : ∀ d, (s.port d).called.Perm ((s.port d).issued ++ waiters (s.stack (other d)))
  /-- A pending bit that was cleared belongs to a function that was executed,
  or to one that the CPU is about to execute. -/
  cleared : ∀ d, (s.port d).cleared = (s.port d).executed.length ∨
    (s.port d).cleared = (s.port d).executed.length + 1 ∧
      ∃ v x, Frame.irq v ∈ s.stack d ∧ v.Fetching x ∧
        (s.port d).issued = (s.port d).executed ++ [x]

structure Inv (s : Ipi) : Prop where
  link : ∀ d, Link (s.port d) (s.stack (other d)) (s.stack d)
  below : ∀ c, ∀ f ∈ (s.stack c).tail, f.accepting = false

variable {s s' : Ipi} {c : CpuId} {h : Handlers} {rest : List Frame}

theorem mem_of_server {fs : List Frame} {v : IrqPc} (hv : v ∈ servers fs) : Frame.irq v ∈ fs := by
  obtain ⟨f, hf, hserve⟩ := List.mem_filterMap.mp hv
  cases f with
  | call | timer => cases hserve
  | irq q =>
    have heq : q = v := by cases q <;> cases hserve <;> rfl
    rw [← heq]
    exact hf

section

variable (hinv : s.Inv)
include hinv

theorem Inv.exact : s.Exact := by
  refine ⟨fun d => (hinv.link d).phase.history.1, fun d => (hinv.link d).phase.history.2,
    fun d => (hinv.link d).calls, fun d => ?_⟩
  rcases (hinv.link d).phase.cleared_cases with hsame | ⟨hone, v, x, hv, hfetch, hiss⟩
  · exact .inl hsame
  · exact .inr ⟨hone, v, x, mem_of_server hv, hfetch, hiss⟩

/-- Steps that change one stack only, and neither call nor serve there. -/
theorem Inv.ofStack {fs : List Frame} (hport : s'.port = s.port)
    (hstack : s'.stack = update s.stack c fs) (hhold : holders fs = holders (s.stack c))
    (hwait : waiters fs = waiters (s.stack c)) (hserve : servers fs = servers (s.stack c))
    (hbelow : ∀ f ∈ fs.tail, f.accepting = false) : s'.Inv := by
  refine ⟨fun d => ?_, fun e => ?_⟩
  · rw [hport, hstack]
    rcases eq_or_eq_other c d with rfl | rfl
    · rw [update_self, update_of_ne (other_ne d)]
      exact (hinv.link d).congr rfl rfl hserve
    · rw [other_other, update_self, update_of_ne (other_ne c)]
      have hlink := hinv.link (other c)
      rw [other_other] at hlink
      exact hlink.congr hhold hwait rfl
  · rw [hstack, update_apply]
    split
    · exact hbelow
    · exact hinv.below e

theorem Inv.call_step {x : Call} {p : CallPc} (hstack : s.stack c = .call x p :: rest) :
    Inv (s.replaceTop c (other c) rest (p.step x (s.port c).ipiPending (s.port (other c)))) := by
  have hrest : ∀ f ∈ rest, f.accepting = false := by
    have h := hinv.below c
    rw [hstack] at h
    exact h
  refine ⟨fun d => ?_, fun e => ?_⟩
  · unfold replaceTop
    dsimp only
    rcases eq_or_eq_other c d with rfl | rfl
    · rw [update_of_ne (other_ne d).symm, update_of_ne (other_ne d),
        update_self]
      refine (hinv.link d).congr rfl rfl ?_
      rw [servers_call_step, hstack]
    · rw [other_other, update_self, update_self,
        update_of_ne (other_ne c)]
      have hlink := hinv.link (other c)
      rw [other_other, hstack] at hlink
      exact hlink.call_step
  · unfold replaceTop
    dsimp only
    rw [update_apply]
    split
    · exact below_append below_call_step hrest
    · exact hinv.below e

theorem Inv.irq_step {v : IrqPc} (hstack : s.stack c = .irq v :: rest) :
    Inv (s.replaceTop c c rest (v.step h (s.port c))) := by
  have hrest : ∀ f ∈ rest, f.accepting = false := by
    have h := hinv.below c
    rw [hstack] at h
    exact h
  refine ⟨fun d => ?_, fun e => ?_⟩
  · unfold replaceTop
    dsimp only
    rcases eq_or_eq_other c d with rfl | rfl
    · rw [update_self, update_of_ne (other_ne d), update_self]
      have hlink := hinv.link d
      rw [hstack] at hlink
      exact hlink.irq_step hrest
    · rw [other_other, update_self, update_of_ne (other_ne c),
        update_of_ne (other_ne c)]
      have hlink := hinv.link (other c)
      rw [other_other] at hlink
      refine hlink.congr ?_ ?_ rfl
      · rw [holders_irq_step, hstack]
      · rw [waiters_irq_step, hstack]
  · unfold replaceTop
    dsimp only
    rw [update_apply]
    split
    · exact below_append below_irq_step hrest
    · exact hinv.below e

theorem Inv.timer_step (hstack : s.stack c = .timer :: rest)
    (hok : s.timerScheduleReady = true → ∀ f ∈ s.stack c, f.idle = true) :
    Inv (s.leaveTimer c rest) := by
  unfold leaveTimer
  split
  · next hready =>
    obtain ⟨hhold, hwait, hserve⟩ := quiet_of_idle (hok hready)
    exact hinv.ofStack rfl rfl hhold.symm hwait.symm hserve.symm nofun
  · refine hinv.ofStack rfl rfl ?_ ?_ ?_ ?_
    · rw [hstack]; rfl
    · rw [hstack]; rfl
    · rw [hstack]; rfl
    · intro f hf
      have h := hinv.below c
      rw [hstack] at h
      exact h f (List.mem_of_mem_tail hf)

theorem Inv.step {l : IpiLabel} (hok : s.Reentrant l) (hstep : s.exec h l = some s') : s'.Inv := by
  cases l with
  | step =>
    simp only [exec] at hstep
    split at hstep <;> cases hstep
    · next x p rest hstack =>
      exact hinv.call_step hstack
    · next v rest hstack =>
      exact hinv.irq_step hstack
    · next rest hstack =>
      exact hinv.timer_step hstack (hok (by rw [hstack]; rfl))
  | call | poll =>
    simp only [exec] at hstep
    split at hstep <;> cases hstep
    next hnil =>
    exact hinv.ofStack rfl rfl rfl rfl rfl (by rw [hnil]; exact nofun)
  | timer =>
    simp only [exec] at hstep
    split at hstep <;> cases hstep
    refine hinv.ofStack rfl rfl rfl rfl rfl ?_
    intro f hf
    rcases List.mem_cons.mp hf with rfl | hf
    · rfl
    · exact hok f hf
  | noteReady =>
    simp only [exec] at hstep
    split at hstep <;> cases hstep
    exact ⟨hinv.link, hinv.below⟩

end

theorem Inv.start (hinit : (ipi h).init s) : s.Inv := by
  obtain ⟨hport, hstack, _⟩ := hinit
  refine ⟨fun d => ?_, fun c => ?_⟩
  · obtain ⟨_, hb⟩ := hport d
    rw [hb, hstack, hstack]
    exact ⟨.idle rfl rfl ⟨rfl, rfl, rfl, rfl⟩, List.Perm.refl _, nofun⟩
  · rw [hstack]
    exact nofun

theorem inv_of_reentrant {ok : Ipi → IpiLabel → Prop} (himp : ∀ s l, ok s l → s.Reentrant l)
    (hrun : (ipi h).ReachableUnder ok s) : s.Inv := by
  apply hrun.invariant
  · intro s hs
    exact Inv.start hs
  · intro s l s' _ hinv hok hstep
    exact hinv.step (himp s l hok) hstep

end Ipi

/-- In every state that runs lead to whose interrupts come neither while a
pending bit is being accepted nor, on the way to the scheduler, into the
middle of a call, each call was executed exactly once, with its own values,
before it returned, and no pending bit was cleared in vain. -/
theorem calledOnce_of_reentrant {h : Handlers} {s : Ipi}
    (hrun : (ipi h).ReachableUnder Ipi.Reentrant s) : s.Exact :=
  (Ipi.inv_of_reentrant (fun _ _ hok => hok) hrun).exact

def plainHandlers : Handlers where
  callBack := fun _ => none
  plain := nofun

def bootIpi : Ipi where
  port := fun _ => Port.start ⟨0, 0, 0⟩
  stack := fun _ => []
  timerScheduleReady := false
  statusIe := fun _ => true

theorem bootIpi_init (h : Handlers) : (ipi h).init bootIpi := ⟨fun _ => ⟨_, rfl⟩, fun _ => rfl, rfl⟩

/-- CPU 0 calls CPU 1 and waits. -/
def sendCall (x : Call) : List IpiLabel :=
  .call 0 x :: List.replicate 8 (.step 0)

/-- CPU 1 is interrupted while it reads the mailbox. -/
def interruptedFetch : List IpiLabel :=
  sendCall ⟨1, 20, 22⟩ ++ (.poll 1 :: List.replicate 5 (.step 1)) ++
    (.timer 1 :: List.replicate 7 (.step 1)) ++ List.replicate 3 (.step 0)

theorem calledOnce_interruptedFetch :
    ∃ s : Ipi, (ipi plainHandlers).ReachableUnder Ipi.Reentrant s ∧
      ((s.port 1).executed = [⟨1, 20, 22⟩] ∧ (s.port 1).returned = 1) ∧ s.Exact := by
  have hstart : (ipi plainHandlers).ReachableUnder Ipi.Reentrant bootIpi := .init (bootIpi_init _)
  obtain ⟨s, hs, hexec⟩ := Machine.exists_reachableUnder_of_exec
    (P := fun s : Ipi => (s.port 1).executed = [⟨1, 20, 22⟩] ∧ (s.port 1).returned = 1)
    interruptedFetch hstart (by decide +kernel)
  exact ⟨s, hs, hexec, calledOnce_of_reentrant hs⟩

/-- CPU 1 is interrupted after it has seen the pending bit; then it serves the
call a second time. -/
def interruptedAccept : List IpiLabel :=
  sendCall ⟨1, 20, 22⟩ ++ [.poll 1, .step 1, .timer 1] ++ List.replicate 18 (.step 1)

/-- CPU 1 is interrupted after it has cleared the pending bit, and enters the
scheduler. -/
def abandonedCall : List IpiLabel :=
  .noteReady :: sendCall ⟨1, 20, 22⟩ ++ (.poll 1 :: List.replicate 3 (.step 1)) ++
    [.timer 1, .step 1, .step 1]

/-- A call is executed twice, and a pending bit is cleared on a CPU that no
longer handles the call. -/
theorem executedTwice_and_lost_reachable : (∃ s : Ipi, (ipi plainHandlers).Reachable s ∧
      ((s.port 1).issued = [⟨1, 20, 22⟩] ∧
        (s.port 1).executed = [⟨1, 20, 22⟩, ⟨1, 20, 22⟩]) ∧ ¬ s.Exact) ∧
    ∃ s : Ipi, (ipi plainHandlers).Reachable s ∧
      ((s.port 1).cleared = 1 ∧ (s.port 1).executed = [] ∧ s.stack 1 = []) ∧ ¬ s.Exact := by
  have hstart : (ipi plainHandlers).Reachable bootIpi := .init (bootIpi_init _)
  constructor
  · obtain ⟨s, hs, hiss, hex⟩ := Machine.exists_reachableUnder_of_exec
      (P := fun s : Ipi => (s.port 1).issued = [⟨1, 20, 22⟩] ∧
        (s.port 1).executed = [⟨1, 20, 22⟩, ⟨1, 20, 22⟩])
      interruptedAccept hstart (by decide +kernel)
    refine ⟨s, hs, ⟨hiss, hex⟩, fun hexact => ?_⟩
    have hlen := (hexact.values 1).length_le
    rw [hiss, hex] at hlen
    simp at hlen
  · obtain ⟨s, hs, hcl, hex, hnil⟩ := Machine.exists_reachableUnder_of_exec
      (P := fun s : Ipi => (s.port 1).cleared = 1 ∧ (s.port 1).executed = [] ∧ s.stack 1 = [])
      abandonedCall hstart (by decide +kernel)
    refine ⟨s, hs, ⟨hcl, hex, hnil⟩, fun hexact => ?_⟩
    rcases hexact.cleared 1 with hsame | ⟨_, _, _, hmem, _⟩
    · rw [hcl, hex] at hsame
      cases hsame
    · rw [hnil] at hmem
      cases hmem

end MosSmp
