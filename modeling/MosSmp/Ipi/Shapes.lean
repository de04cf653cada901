import MosSmp.Ipi.Reentry

/-!
The stacks of two CPUs that call each other and are not interrupted.

A CPU that waits in `ipi_wait_done` serves the calls of the other one, so two
CPUs may call each other at the same time, and a function may call back the
CPU that waits for it. The two do not combine. A CPU that waits for its own
call holds the lock of the other CPU's mailbox; a function that it then
executes for the other CPU and that calls back waits for the same lock for
ever. `Unmixed` is the condition that a call to a function that calls back and
a call in the other direction are not under way together. The stacks then have
one of five shapes.
-/

namespace MosSmp

open Lib Function List

def Frame.callOf : Frame → Option Call
  | .call x _ => some x
  | _ => none

/-- The call that the CPU itself has made, outside any function it executes
for the other CPU. -/
def baseCall (fs : List Frame) : Option Call := fs.getLast?.bind Frame.callOf

/-- The stacks of a CPU without timer interrupts. -/
inductive Shape (h : Handlers) : List Frame → Prop
  | nil : Shape h []
  | call (x : Call) (p : CallPc) : Shape h [.call x p]
  | irq (v : IrqPc) : Shape h [.irq v]
  | served (x : Call) (v : IrqPc) : Shape h [.irq v, .call x .waitDone]
  | back (y k : Call) (p : CallPc) : h.callBack y = some k →
      Shape h [.call k p, .irq (.finish y)]

namespace Ipi

/-- No timer interrupt comes, and a call begins only where neither it nor a
call of the other CPU is for a function that calls back, unless the other CPU
is not inside a call. -/
def Unmixed (h : Handlers) (s : Ipi) : IpiLabel → Prop
  | .timer _ => False
  | .call c x => ∀ y ∈ (s.stack (other c)).filterMap Frame.callOf,
      h.callBack x = none ∧ h.callBack y = none
  | _ => True

instance (h : Handlers) (s : Ipi) : (l : IpiLabel) → Decidable (s.Unmixed h l)
  | .timer _ => inferInstanceAs (Decidable False)
  | .call _ _ => inferInstanceAs (Decidable (∀ _ ∈ _, _ ∧ _))
  | .step _ | .poll _ | .noteReady => inferInstanceAs (Decidable True)

/-- What holds in runs without interrupts and without mixed calls. -/
structure Steady (h : Handlers) (s : Ipi) : Prop where
  inv : s.Inv
  ready : ∀ d, (s.port d).ipiReady = true
  shape : ∀ c, Shape h (s.stack c)
  unmixed : ∀ c x y, baseCall (s.stack c) = some x → baseCall (s.stack (other c)) = some y →
    h.callBack x = none ∧ h.callBack y = none

end Ipi

section Stacks

variable {h : Handlers} {b : Port} {own : Word} {x : Call} {p : CallPc} {v : IrqPc}
variable {rest fs : List Frame}

theorem ready_call_step : (p.step x own b).1.ipiReady = b.ipiReady := by
  cases p with
  | enter | lock | waitPoll =>
    simp only [CallPc.step]
    split <;> rfl
  | _ => rfl

theorem ready_irq_step (hready : b.ipiReady = true) : (v.step h b).1.ipiReady = true := by
  cases v with
  | status | dispatch =>
    simp only [IrqPc.step]
    split <;> first | exact hready | rfl
  | invoke =>
    simp only [IrqPc.step]
    split <;> exact hready
  | _ => exact hready

theorem Shape.call_step (hshape : Shape h (.call x p :: rest))
    (hquiet : ∀ y, rest = [.irq (.finish y)] → own = 0) :
    Shape h ((p.step x own b).2 ++ rest) := by
  rcases call_step_cases x p own b with
    hnew | ⟨q, hnew⟩ | ⟨_, hown, hnew⟩ <;> rw [hnew] <;> cases hshape with
  | call => constructor
  | back y _ _ hback =>
    first
    | exact .irq _
    | exact .back y x _ hback
    | exact absurd (hquiet y rfl) hown

theorem Shape.irq_step (hshape : Shape h (.irq v :: rest))
    (hplain : ∀ x y, rest = [.call x .waitDone] → v = .invoke y → h.callBack y = none) :
    Shape h ((v.step h b).2 ++ rest) := by
  rcases irq_step_cases h b v with
    hnew | ⟨w, hnew⟩ | ⟨y, k, hv, hback, hnew⟩ <;> rw [hnew] <;> cases hshape with
  | irq => first | exact .nil | exact .irq _ | exact .back y k _ hback
  | served x =>
    first
    | exact .call _ _
    | exact .served _ _
    | exact absurd (hplain x y rfl hv) (by rw [hback]; exact nofun)

theorem baseCall_append_cons (f : Frame) : baseCall (fs ++ f :: rest) = baseCall (f :: rest) := by
  unfold baseCall
  rw [getLast?_append_of_ne_nil _ (cons_ne_nil _ _)]

theorem baseCall_call_step {y : Call} (hbase : baseCall ((p.step x own b).2 ++ rest) = some y) :
    baseCall (.call x p :: rest) = some y := by
  cases rest with
  | nil =>
    rcases call_step_cases x p own b with
      hnew | ⟨q, hnew⟩ | ⟨_, _, hnew⟩ <;> rw [hnew] at hbase
    · cases hbase
    · exact hbase
    · exact hbase
  | cons =>
    rw [baseCall_append_cons] at hbase
    exact hbase

theorem baseCall_irq_step {y : Call} (hbase : baseCall ((v.step h b).2 ++ rest) = some y) :
    baseCall (.irq v :: rest) = some y := by
  cases rest with
  | nil =>
    rcases irq_step_cases h b v with
      hnew | ⟨w, hnew⟩ | ⟨_, _, _, _, hnew⟩ <;> rw [hnew] at hbase <;> cases hbase
  | cons =>
    rw [baseCall_append_cons] at hbase
    exact hbase

theorem mem_of_baseCall (hbase : baseCall fs = some x) : x ∈ fs.filterMap Frame.callOf := by
  obtain ⟨f, hlast, hof⟩ := Option.bind_eq_some_iff.mp hbase
  exact mem_filterMap.mpr ⟨f, mem_of_getLast? hlast, hof⟩

/-- The holder of a lock has made the call itself, or calls back. -/
theorem Shape.holder_cases {q : CallPc} (hshape : Shape h fs) (hhold : holders fs = [(x, q)]) :
    baseCall fs = some x ∨ ∃ y, h.callBack y = some x := by
  have hmem : (x, q) ∈ holders fs := by
    rw [hhold]
    exact mem_singleton_self _
  obtain ⟨f, hf, hof⟩ := mem_filterMap.mp hmem
  have hfx : f = .call x q := by
    cases f with
    | call z r => cases r <;> cases hof <;> rfl
    | irq | timer => cases hof
  subst hfx
  cases hshape with
  | nil => cases hf
  | call =>
    obtain rfl := (Frame.call.inj (mem_singleton.mp hf)).1
    exact .inl rfl
  | irq => cases mem_singleton.mp hf
  | served =>
    rcases mem_cons.mp hf with hf | hf
    · cases hf
    · obtain rfl := (Frame.call.inj (mem_singleton.mp hf)).1
      exact .inl rfl
  | back y k r hback =>
    rcases mem_cons.mp hf with hf | hf
    · obtain rfl := (Frame.call.inj hf).1
      exact .inr ⟨y, hback⟩
    · cases mem_singleton.mp hf

end Stacks

variable {hs : List (Call × CallPc)}

/-- A function that is about to be executed is that of the holder's call. -/
theorem Phase.holder_of_invoke {b : Port} {vs : List IrqPc} {y : Call}
    (hph : Phase b hs (.invoke y :: vs)) : ∃ q, hs = [(y, q)] := by
  cases hph with
  | accepting _ _ _ _ h => cases h
  | fetching x q _ _ h =>
    obtain rfl : y = x := h
    exact ⟨q, rfl⟩

/-- While a function is executed, no bit is pending. -/
theorem Phase.pending_of_finish {b : Port} {vs : List IrqPc} {y : Call}
    (hph : Phase b hs (.finish y :: vs)) : b.ipiPending = 0 := by
  cases hph with
  | accepting _ _ _ _ h | fetching _ _ _ _ h => cases h
  | running _ _ _ _ h => exact h

namespace Ipi

variable {h : Handlers} {s s' : Ipi} {c : CpuId} {rest : List Frame}

section

variable (hst : s.Steady h)
include hst

theorem Steady.plain {x y : Call} (hstack : s.stack c = [.irq (.invoke y), .call x .waitDone]) :
    h.callBack y = none := by
  have hph := (hst.inv.link c).phase
  rw [hstack] at hph
  obtain ⟨_, hhold⟩ := Phase.holder_of_invoke hph
  rcases (hst.shape (other c)).holder_cases hhold with hbase | ⟨z, hback⟩
  · exact (hst.unmixed c x y (by rw [hstack]; rfl) hbase).2
  · exact h.plain z y hback

theorem Steady.quiet {x y : Call} {p : CallPc}
    (hstack : s.stack c = [.call x p, .irq (.finish y)]) : (s.port c).ipiPending = 0 := by
  have hph := (hst.inv.link c).phase
  rw [hstack] at hph
  exact Phase.pending_of_finish hph

/-- The part of `Steady` that only looks at stacks. -/
theorem Steady.ofStack {fs : List Frame} (hinv : s'.Inv) (hready : ∀ d, (s'.port d).ipiReady = true)
    (hstack : s'.stack = update s.stack c fs) (hshape : Shape h fs)
    (hbase : ∀ y, baseCall fs = some y → baseCall (s.stack c) = some y) : s'.Steady h := by
  refine ⟨hinv, hready, fun e => ?_, fun e x y hx hy => ?_⟩
  · rw [hstack, update_apply]
    split
    · exact hshape
    · exact hst.shape e
  · have hbase' : ∀ e y, baseCall (s'.stack e) = some y → baseCall (s.stack e) = some y := by
      intro e y hy
      rw [hstack, update_apply] at hy
      split at hy
      · next he =>
        rw [he]
        exact hbase y hy
      · exact hy
    exact hst.unmixed e x y (hbase' e x hx) (hbase' (other e) y hy)

theorem Steady.call_step {x : Call} {p : CallPc} (hstack : s.stack c = .call x p :: rest) :
    Steady h (s.replaceTop c (other c) rest
      (p.step x (s.port c).ipiPending (s.port (other c)))) := by
  refine hst.ofStack (hst.inv.call_step hstack) (fun d => ?_) rfl ?_ ?_
  · unfold replaceTop
    dsimp only
    rw [update_apply]
    split
    · rw [ready_call_step]
      exact hst.ready _
    · exact hst.ready d
  · have hshape := hst.shape c
    rw [hstack] at hshape
    apply hshape.call_step
    intro y hrest
    exact hst.quiet (hstack.trans (by rw [hrest]))
  · intro y hy
    rw [hstack]
    exact baseCall_call_step hy

theorem Steady.irq_step {v : IrqPc} (hstack : s.stack c = .irq v :: rest) :
    Steady h (s.replaceTop c c rest (v.step h (s.port c))) := by
  refine hst.ofStack (hst.inv.irq_step hstack) (fun d => ?_) rfl ?_ ?_
  · unfold replaceTop
    dsimp only
    rw [update_apply]
    split
    · exact ready_irq_step (hst.ready c)
    · exact hst.ready d
  · have hshape := hst.shape c
    rw [hstack] at hshape
    apply hshape.irq_step
    rintro _ y rfl rfl
    exact hst.plain hstack
  · intro y hy
    rw [hstack]
    exact baseCall_irq_step hy

theorem Steady.poll_step (hnil : s.stack c = []) : Steady h (s.push c [.irq .status]) := by
  have hinv : Inv (s.push c [.irq .status]) :=
    hst.inv.step (l := .poll c) (h := h) trivial (if_pos hnil)
  refine hst.ofStack hinv hst.ready rfl ?_ ?_
  · rw [hnil]
    exact .irq _
  · intro y hy
    rw [hnil] at hy
    cases hy

theorem Steady.begin_call {x : Call} (hinv : Inv (s.push c [.call x .enter]))
    (hok : s.Unmixed h (.call c x)) (hnil : s.stack c = []) :
    Steady h (s.push c [.call x .enter]) := by
  have hself : (s.push c [.call x .enter]).stack c = [.call x .enter] := by
    unfold push
    dsimp only
    rw [update_self, hnil]
    rfl
  have hother : (s.push c [.call x .enter]).stack (other c) = s.stack (other c) :=
    update_of_ne (other_ne c) _ _
  -- The new call is the only one that was not under way before.
  have hnew : ∀ x' y, baseCall [.call x .enter] = some x' →
      baseCall (s.stack (other c)) = some y → h.callBack x' = none ∧ h.callBack y = none := by
    intro x' y hx' hy
    obtain rfl : x = x' := Option.some.inj hx'
    exact hok y (mem_of_baseCall hy)
  refine ⟨hinv, hst.ready, fun e => ?_, fun e x' y hx' hy => ?_⟩
  · rcases eq_or_eq_other c e with rfl | rfl
    · rw [hself]
      exact .call _ _
    · rw [hother]
      exact hst.shape _
  · rcases eq_or_eq_other c e with rfl | rfl
    · rw [hself] at hx'
      rw [hother] at hy
      exact hnew x' y hx' hy
    · rw [hother] at hx'
      rw [other_other, hself] at hy
      exact (hnew y x' hy hx').symm

theorem Steady.step {l : IpiLabel} (hok : s.Unmixed h l) (hstep : s.exec h l = some s') :
    s'.Steady h := by
  cases l with
  | step c =>
    simp only [exec] at hstep
    split at hstep
    · cases hstep
    · next x p rest hstack =>
      cases hstep
      exact hst.call_step hstack
    · next v rest hstack =>
      cases hstep
      exact hst.irq_step hstack
    · next rest hstack =>
      have hshape := hst.shape c
      rw [hstack] at hshape
      cases hshape
  | call c x =>
    have hinv := hst.inv.step (l := .call c x) trivial hstep
    simp only [exec] at hstep
    split at hstep <;> cases hstep
    next hnil =>
    exact hst.begin_call hinv hok hnil
  | poll =>
    simp only [exec] at hstep
    split at hstep <;> cases hstep
    next hnil =>
    exact hst.poll_step hnil
  | timer => exact absurd hok id
  | noteReady =>
    simp only [exec] at hstep
    split at hstep <;> cases hstep
    exact ⟨⟨hst.inv.link, hst.inv.below⟩, hst.ready, hst.shape, hst.unmixed⟩

end

theorem Steady.start (hinit : (ipi h).init s) : s.Steady h := by
  have hinv := Inv.start hinit
  obtain ⟨hport, hstack, _⟩ := hinit
  refine ⟨hinv, fun d => ?_, fun c => ?_, fun c x y hx => ?_⟩
  · obtain ⟨_, hb⟩ := hport d
    rw [hb]
    rfl
  · rw [hstack]
    exact .nil
  · rw [hstack] at hx
    cases hx

theorem steady_of_unmixed (hrun : (ipi h).ReachableUnder (Unmixed h) s) : s.Steady h := by
  apply hrun.invariant
  · intro s hs
    exact Steady.start hs
  · intro s l s' _ hst hok hstep
    exact hst.step hok hstep

end Ipi

end MosSmp
