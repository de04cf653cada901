import MosSmp.Ipi.Shapes

/-!
Calls between CPUs that are not interrupted: each call is executed exactly
once, and it can always be completed.

As long as calls are not mixed, the steps of the CPUs lead to a state without
activations. The measure counts the steps that each activation still has to
take, those that a call which was not executed will cost, and those of the
activation that a pending bit will start. Where calls are mixed, a CPU may wait
for a lock that it holds itself, and nothing changes any more.
-/

namespace MosSmp

open Lib Function CallPc List

namespace Ipi

/-- Steps that begin no call. -/
def Serves (_ : Ipi) : IpiLabel → Prop
  | .step _ | .poll _ => True
  | _ => False

/-- The state can be left, without new calls, for one in which every call was
executed exactly once and has returned. -/
def Completes (h : Handlers) (s : Ipi) : Prop :=
  ∃ t, (ipi h).Leads Serves s t ∧ (∀ c, t.stack c = []) ∧ t.Exact ∧
    ∀ d, (s.port d).called <+: (t.port d).called ∧
      (t.port d).called.Perm (t.port d).executed ∧
      (t.port d).finished = (t.port d).executed.length ∧
      (t.port d).returned = (t.port d).executed.length

end Ipi

/-- The steps that remain of `smp_group_function_call`, with those of the
activation that its pending bit starts. -/
def CallPc.rank : CallPc → Nat
  | .enter => 22
  | .lock => 21
  | .clearDone => 20
  | .writeFn => 19
  | .writeArg0 => 18
  | .writeArg1 => 17
  | .sendLoad => 16
  | .sendStore _ => 15
  | .waitDone | .waitPoll => 3
  | .resetFn => 2
  | .unlock => 1

def IrqPc.rank : IrqPc → Nat
  | .status => 10
  | .clearLoad _ => 9
  | .clearStore _ _ => 8
  | .dispatch _ => 7
  | .readFn => 6
  | .readArg0 _ => 5
  | .readArg1 _ _ => 4
  | .invoke _ => 3
  | .finish _ => 2
  | .setDone => 1

/-- What a call costs in addition because its function calls back. -/
def Handlers.extra (h : Handlers) (x : Call) : Nat := if (h.callBack x).isSome then 23 else 0

def Frame.rank (h : Handlers) : Frame → Nat
  | .call x .enter => CallPc.rank .enter + h.extra x
  | .call x .lock => CallPc.rank .lock + h.extra x
  | .call _ p => p.rank
  | .irq v => v.rank
  | .timer => 1

/-- The activation has still to clear the pending bit. -/
def Frame.taking : Frame → Bool
  | .irq .status | .irq (.clearLoad _) | .irq (.clearStore _ _) => true
  | _ => false

def work (h : Handlers) (fs : List Frame) : Nat := (fs.map (Frame.rank h)).sum

namespace Port

/-- The cost of call backs by functions that were not executed yet. -/
def owed (h : Handlers) (b : Port) : Nat :=
  ((b.issued.drop b.executed.length).map h.extra).sum

/-- The cost of the activation that the pending bit will start. -/
def unseen (b : Port) (fs : List Frame) : Nat :=
  if b.ipiPending ≠ 0 ∧ ∀ f ∈ fs, f.taking = false then 11 else 0

end Port

namespace Ipi

def load (h : Handlers) (s : Ipi) (c : CpuId) : Nat :=
  work h (s.stack c) + (s.port c).owed h + (s.port c).unseen (s.stack c)

def size (h : Handlers) (s : Ipi) : Nat := s.load h 0 + s.load h 1

end Ipi

section Measure

variable {h : Handlers} {b : Port} {own : Word} {x : Call} {p : CallPc} {v : IrqPc}
variable {rest fs : List Frame}

theorem work_cons (f : Frame) : work h (f :: fs) = f.rank h + work h fs := by
  simp [work]

theorem work_append (gs : List Frame) : work h (fs ++ gs) = work h fs + work h gs := by
  simp [work]

theorem unseen_le (b : Port) (fs : List Frame) : b.unseen fs ≤ 11 := by
  unfold Port.unseen
  split <;> omega

theorem unseen_of_taking {f : Frame} (hf : f ∈ fs) (htake : f.taking = true) : b.unseen fs = 0 := by
  unfold Port.unseen
  rw [if_neg]
  rintro ⟨_, hall⟩
  rw [hall f hf] at htake
  cases htake

theorem unseen_of_not_pending (hpend : b.ipiPending = 0) : b.unseen fs = 0 := by
  unfold Port.unseen
  rw [if_neg (fun h => h.1 hpend)]

theorem unseen_cons {f : Frame} (hf : f.taking = false) : b.unseen (f :: fs) = b.unseen fs := by
  have hiff : (∀ g ∈ f :: fs, g.taking = false) ↔ ∀ g ∈ fs, g.taking = false := by
    rw [forall_mem_cons]
    exact ⟨fun h => h.2, fun h => ⟨hf, h⟩⟩
  unfold Port.unseen
  simp only [hiff]

theorem unseen_of_pending (hpend : b.ipiPending ≠ 0) (hfs : ∀ f ∈ fs, f.taking = false) :
    b.unseen fs = 11 := by
  unfold Port.unseen
  rw [if_pos ⟨hpend, hfs⟩]

variable {hs : List (Call × CallPc)}

/-- An activation that has cleared the bit finds no new one. -/
theorem Phase.pending_of_server {vs : List IrqPc}
    (hph : Phase b hs (v :: vs)) (hv : ¬ v.Accepting) : b.ipiPending = 0 := by
  cases hph with
  | accepting _ _ _ _ h => exact absurd h hv
  | fetching _ _ _ _ _ _ h | running _ _ _ _ h | ran _ _ _ _ h => exact h

variable {y : Call}

theorem Phase.requested_of_invoke {vs : List IrqPc} (hph : Phase b hs (.invoke y :: vs)) :
    b.issued = b.executed ++ [y] := by
  cases hph with
  | accepting _ _ _ _ h => cases h
  | fetching x _ _ _ h2 _ _ h5 =>
    obtain rfl : y = x := h2
    exact h5.issued

theorem owed_executed (hiss : b.issued = b.executed ++ [y]) :
    b.owed h = h.extra y ∧ Port.owed h { b with executed := b.executed ++ [y] } = 0 := by
  unfold Port.owed
  refine ⟨?_, ?_⟩
  · rw [hiss, drop_left]
    simp
  · dsimp only
    rw [hiss, drop_length]
    rfl

theorem owed_issued (hle : b.executed.length ≤ b.issued.length) (locked : Bool) :
    Port.owed h { b with ipiMailboxLock := locked, issued := b.issued ++ [x] } =
      b.owed h + h.extra x := by
  unfold Port.owed
  rw [drop_append_of_le_length hle]
  simp

theorem extra_back {y k : Call} (hback : h.callBack y = some k) :
    h.extra y = 23 ∧ h.extra k = 0 := by
  unfold Handlers.extra
  rw [hback, h.plain y k hback]
  exact ⟨rfl, rfl⟩

theorem invoke_work (hiss : b.issued = b.executed ++ [y]) (hfn : y.fn ≠ 0) :
    work h ((IrqPc.invoke y).step h b).2 + ((IrqPc.invoke y).step h b).1.owed h <
      IrqPc.rank (.invoke y) + b.owed h := by
  obtain ⟨howed, hnone⟩ := owed_executed (h := h) hiss
  simp only [IrqPc.step]
  rw [if_neg hfn, howed]
  rw [hnone]
  cases hback : h.callBack y with
  | none =>
    simp only [work, Frame.rank, IrqPc.rank, map_cons, map_nil, sum_cons, sum_nil]
    omega
  | some =>
    obtain ⟨_, _⟩ := extra_back hback
    simp only [work, Frame.rank, rank, IrqPc.rank, map_cons, map_nil, sum_cons, sum_nil]
    omega

section

variable (hph : Phase b hs (servers (.irq v :: rest))) (hfn : ∀ x ∈ b.issued, x.fn ≠ 0)
include hph hfn

/-- Once the bit is cleared, the work alone becomes less with each step. -/
theorem served_work (hv : Frame.taking (.irq v) = false) :
    (v.step h b).1.ipiPending = 0 ∧
      work h (v.step h b).2 + (v.step h b).1.owed h < v.rank + b.owed h := by
  cases v with
  | status | clearLoad | clearStore => cases hv
  | invoke y =>
    have hiss := Phase.requested_of_invoke hph
    refine ⟨?_, invoke_work hiss (hfn y (by rw [hiss]; simp))⟩
    have hzero := Phase.pending_of_server hph id
    simp only [IrqPc.step]
    split <;> exact hzero
  | dispatch =>
    have hzero := Phase.pending_of_server hph id
    simp only [IrqPc.step]
    constructor
    · split <;> exact hzero
    · split <;> split <;> simp [work, Frame.rank, IrqPc.rank, Port.owed]
  | _ =>
    have hzero := Phase.pending_of_server hph id
    refine ⟨hzero, ?_⟩
    simp [IrqPc.step, work, Frame.rank, IrqPc.rank, Port.owed]

/-- Every step of `handle_ipi_irq` makes the load of its CPU smaller. -/
theorem irq_step_less :
    work h ((v.step h b).2 ++ rest) + (v.step h b).1.owed h +
        (v.step h b).1.unseen ((v.step h b).2 ++ rest) <
      work h (.irq v :: rest) + b.owed h + b.unseen (.irq v :: rest) := by
  rw [work_append, work_cons]
  cases htake : Frame.taking (.irq v) with
  | false =>
    obtain ⟨hzero, _⟩ := served_work (h := h) hph hfn htake
    rw [unseen_of_not_pending hzero]
    have hrank : Frame.rank h (.irq v) = v.rank := rfl
    omega
  | true =>
    cases v with
    | status =>
      simp only [IrqPc.step]
      split
      · next hpend =>
        rw [unseen_of_not_pending hpend]
        simp [work, Frame.rank, IrqPc.rank]
        omega
      · rw [unseen_of_taking (f := .irq (.clearLoad b.ipiPending)) (by simp) rfl]
        simp [work, Frame.rank, IrqPc.rank]
        omega
    | clearLoad w =>
      simp only [IrqPc.step]
      rw [unseen_of_taking (f := .irq (.clearStore w b.ipiPending)) (by simp) rfl]
      simp [work, Frame.rank, IrqPc.rank]
      omega
    | clearStore w pending =>
      have hph' : Phase (b.clear w pending) hs (.dispatch w :: servers rest) := Phase.clear_step hph
      simp only [IrqPc.step]
      rw [unseen_of_not_pending (Phase.pending_of_server hph' id)]
      simp [work, Frame.rank, IrqPc.rank, Port.owed, Port.clear]
      omega
    | _ => cases htake

end

theorem less_of_same {b' : Port} {n m : Nat} (hpend : b'.ipiPending = b.ipiPending)
    (hiss : b'.issued = b.issued) (hex : b'.executed = b.executed) (hlt : n < m) :
    n + b'.owed h + b'.unseen fs < m + b.owed h + b.unseen fs := by
  have howed : b'.owed h = b.owed h := by
    unfold Port.owed
    rw [hiss, hex]
  have hunseen : b'.unseen fs = b.unseen fs := by
    unfold Port.unseen
    rw [hpend]
  omega

/-- Every step of `smp_group_function_call` outside its waiting loops makes
the loads smaller. -/
theorem call_step_less (x : Call) (own : Word) (fs : List Frame)
    (hle : b.executed.length ≤ b.issued.length)
    (hwait : p = .waitDone → b.ipiDone = true) (hpoll : p ≠ .waitPoll)
    (hlock : p = .lock → b.ipiMailboxLock = false) :
    work h (p.step x own b).2 + (p.step x own b).1.owed h + (p.step x own b).1.unseen fs <
      Frame.rank h (.call x p) + b.owed h + b.unseen fs := by
  cases p with
  | enter =>
    simp only [CallPc.step]
    split
    · have hnone : work h [] = 0 := rfl
      have hrank : Frame.rank h (.call x .enter) = 22 + h.extra x := rfl
      dsimp only
      omega
    · simp [work, Frame.rank, CallPc.rank, Port.owed, Port.unseen]
  | lock =>
    simp only [CallPc.step]
    rw [hlock rfl, if_neg (by simp)]
    rw [owed_issued hle]
    simp [work, Frame.rank, CallPc.rank, Port.unseen]
    omega
  | sendStore pending =>
    have hmax := unseen_le (CallPc.step x own b (.sendStore pending)).1 fs
    simp only [CallPc.step] at hmax ⊢
    simp only [work, Frame.rank, CallPc.rank, Port.owed, map_cons, map_nil, sum_cons, sum_nil]
    omega
  | waitDone =>
    simp only [CallPc.step]
    rw [hwait rfl, if_pos rfl]
    simp [work, Frame.rank, CallPc.rank]
  | waitPoll => exact absurd rfl hpoll
  | _ =>
    refine less_of_same rfl rfl rfl ?_
    simp [CallPc.step, work, Frame.rank, CallPc.rank]

end Measure

namespace Ipi

variable {h : Handlers} {s s' : Ipi} {c : CpuId} {rest : List Frame} {x : Call} {p : CallPc}

theorem size_eq (h : Handlers) (s : Ipi) (c : CpuId) :
    s.size h = s.load h c + s.load h (other c) := by
  rcases eq_or_eq_other 0 c with rfl | rfl
  · rfl
  · exact Nat.add_comm _ _

theorem unseen_call_step {b b' : Port} {own : Word} (hpoll : p = .waitPoll → own = 0) :
    b.unseen ((p.step x own b').2 ++ rest) = b.unseen (.call x p :: rest) := by
  rw [unseen_cons (f := .call x p) (by cases p <;> rfl)]
  rcases call_step_cases x p own b' with hnew | ⟨q, hnew⟩ | ⟨hp, hown, _⟩
  · rw [hnew]
    rfl
  · rw [hnew]
    exact unseen_cons (by cases q <;> rfl)
  · exact absurd (hpoll hp) hown

/-- The loads after a step of `smp_group_function_call`. -/
theorem size_call_step (hstack : s.stack c = .call x p :: rest)
    (hpoll : p = .waitPoll → (s.port c).ipiPending = 0) {n m : Nat}
    (hstep : work h (p.step x (s.port c).ipiPending (s.port (other c))).2 +
        (p.step x (s.port c).ipiPending (s.port (other c))).1.owed h +
        (p.step x (s.port c).ipiPending (s.port (other c))).1.unseen (s.stack (other c)) + n ≤
      Frame.rank h (.call x p) + (s.port (other c)).owed h +
        (s.port (other c)).unseen (s.stack (other c)) + m) :
    (s.replaceTop c (other c) rest
      (p.step x (s.port c).ipiPending (s.port (other c)))).size h + n ≤ s.size h + m := by
  rw [size_eq h _ c, size_eq h s c]
  unfold load replaceTop
  dsimp only
  rw [update_self, update_self, update_of_ne (other_ne c).symm,
    update_of_ne (other_ne c), unseen_call_step hpoll, hstack, work_append, work_cons]
  omega

theorem call_less (hst : s.Steady h) (hstack : s.stack c = .call x p :: rest)
    (hwait : p = .waitDone → (s.port (other c)).ipiDone = true) (hpoll : p ≠ .waitPoll)
    (hlock : p = .lock → (s.port (other c)).ipiMailboxLock = false) :
    (s.replaceTop c (other c) rest
      (p.step x (s.port c).ipiPending (s.port (other c)))).size h < s.size h := by
  have hle := (hst.inv.exact.values (other c)).length_le
  have hless := call_step_less (h := h) x (s.port c).ipiPending (s.stack (other c)) hle hwait
    hpoll hlock
  have h := size_call_step (h := h) (n := 1) (m := 0) hstack (fun hp => absurd hp hpoll) hless
  omega

variable {v : IrqPc}

/-- The state can be left for one with less to do. -/
def Less (h : Handlers) (s : Ipi) : Prop :=
  ∃ t, (ipi h).Leads Serves s t ∧ t.Steady h ∧ t.size h < s.size h

theorem exec_call (hstack : s.stack c = .call x p :: rest) :
    s.exec h (.step c) = some (s.replaceTop c (other c) rest
      (p.step x (s.port c).ipiPending (s.port (other c)))) := by
  simp only [exec, hstack]

theorem exec_irq (hstack : s.stack c = .irq v :: rest) :
    s.exec h (.step c) = some (s.replaceTop c c rest (v.step h (s.port c))) := by
  simp only [exec, hstack]

/-- A turn of a loop that leads to less. -/
theorem Less.after {l : IpiLabel} (hl : s.Serves l) (hstep : s.exec h l = some s')
    (hle : s'.size h ≤ s.size h) (hless : s'.Less h) : s.Less h := by
  obtain ⟨t, hrun, hst, _⟩ := hless
  exact ⟨t, .step l hl hstep hrun, hst, by omega⟩

theorem Shape.not_taking (hshape : Shape h (.call x p :: rest)) : ∀ f ∈ rest, f.taking = false := by
  cases hshape with
  | call => exact nofun
  | back =>
    intro f hf
    rw [mem_singleton.mp hf]
    rfl

section

variable (hst : s.Steady h)
include hst

theorem irq_less (hstack : s.stack c = .irq v :: rest) :
    (s.replaceTop c c rest (v.step h (s.port c))).size h < s.size h := by
  have hlink := hst.inv.link c
  have hph := hlink.phase
  rw [hstack] at hph
  have hless := irq_step_less (h := h) hph hlink.issued_named
  rw [size_eq h _ c, size_eq h s c]
  unfold load replaceTop
  dsimp only
  rw [update_self, update_self, update_of_ne (other_ne c), update_of_ne (other_ne c), hstack]
  omega

theorem Less.of_irq (hstack : s.stack c = .irq v :: rest) : s.Less h :=
  ⟨_, .step (.step c) trivial (exec_irq hstack) (.refl _), hst.irq_step hstack, irq_less hst hstack⟩

theorem Less.of_call (hstack : s.stack c = .call x p :: rest)
    (hwait : p = .waitDone → (s.port (other c)).ipiDone = true) (hpoll : p ≠ .waitPoll)
    (hlock : p = .lock → (s.port (other c)).ipiMailboxLock = false) : s.Less h :=
  ⟨_, .step (.step c) trivial (exec_call hstack) (.refl _), hst.call_step hstack,
    call_less hst hstack hwait hpoll hlock⟩

/-- A pending bit costs more than the activation that it starts. -/
theorem Less.of_poll (hnil : s.stack c = []) (hpend : (s.port c).ipiPending ≠ 0) : s.Less h := by
  refine ⟨s.push c [.irq .status], .step (.poll c) trivial (if_pos hnil) (.refl _),
    hst.poll_step hnil, ?_⟩
  rw [size_eq h _ c, size_eq h s c]
  unfold load push
  dsimp only
  rw [update_self, update_of_ne (other_ne c), hnil, append_nil,
    unseen_of_taking (mem_singleton_self (Frame.irq .status)) rfl,
    unseen_of_pending hpend (fun f hf => absurd hf not_mem_nil)]
  simp [work, Frame.rank, IrqPc.rank]
  omega

theorem Less.of_push (hstack : s.stack c = .call x .waitPoll :: rest)
    (hpend : (s.port c).ipiPending ≠ 0) : s.Less h := by
  refine ⟨_, .step (.step c) trivial (exec_call hstack) (.refl _), hst.call_step hstack, ?_⟩
  have hshape := hst.shape c
  rw [hstack] at hshape
  have hunseen : (s.port c).unseen (.call x .waitPoll :: rest) = 11 :=
    unseen_of_pending hpend (forall_mem_cons.mpr ⟨rfl, Shape.not_taking hshape⟩)
  rw [size_eq h _ c, size_eq h s c]
  unfold load replaceTop
  simp only [step]
  rw [if_neg hpend]
  have htaken : (s.port c).unseen ([.irq .status, .call x .waitDone] ++ rest) = 0 :=
    unseen_of_taking (f := .irq .status) (by simp) rfl
  rw [update_self, update_self, update_of_ne (other_ne c).symm,
    update_of_ne (other_ne c), hstack, hunseen, htaken]
  simp [work, Frame.rank, IrqPc.rank, rank]
  omega

/-- A CPU that waits goes on when its call is done, or when it is called. -/
theorem Less.of_wait (hstack : s.stack c = .call x p :: rest) (hp : p.Waits)
    (hev : (s.port (other c)).ipiDone = true ∨ (s.port c).ipiPending ≠ 0) : s.Less h := by
  rcases hp with rfl | rfl
  · cases hdone : (s.port (other c)).ipiDone with
    | true => exact .of_call hst hstack (fun _ => hdone) nofun nofun
    | false =>
      have hpend : (s.port c).ipiPending ≠ 0 := by simpa [hdone] using hev
      have hturn : (s.replaceTop c (other c) rest (step x (s.port c).ipiPending
          (s.port (other c)) .waitDone)).stack c = .call x .waitPoll :: rest := by
        simp [replaceTop, step, hdone]
      refine .after (l := .step c) trivial (exec_call hstack)
        (size_call_step (n := 0) (m := 0) hstack nofun ?_)
        (.of_push (hst.call_step hstack) hturn ?_)
      · simp [step, hdone, work, Frame.rank, rank]
      · simpa [replaceTop, update_of_ne (other_ne c).symm] using hpend
  · by_cases hpend : (s.port c).ipiPending = 0
    · have hdone : (s.port (other c)).ipiDone = true := by simpa [hpend] using hev
      have hturn : (s.replaceTop c (other c) rest (step x (s.port c).ipiPending
          (s.port (other c)) .waitPoll)).stack c = .call x .waitDone :: rest := by
        simp [replaceTop, step, hpend]
      refine .after (l := .step c) trivial (exec_call hstack)
        (size_call_step (n := 0) (m := 0) hstack (fun _ => hpend) ?_)
        (.of_call (hst.call_step hstack) hturn (fun _ => ?_) nofun nofun)
      · simp [step, hpend, work, Frame.rank, rank]
      · simpa [replaceTop, step, hpend] using hdone
    · exact .of_push hst hstack hpend

end

/-- A mailbox whose lock nobody holds is free. -/
theorem unlocked_of_no_holder {b : Port} {hs : List (Call × CallPc)} {vs : List IrqPc}
    (hph : Phase b hs vs) (hnone : hs = []) : b.ipiMailboxLock = false := by
  subst hnone
  cases hph with
  | idle hfree => exact hfree

theorem Shape.holders_lock (hshape : Shape h (.call x .lock :: rest)) :
    holders (.call x .lock :: rest) = [] := by
  cases hshape <;> rfl

section

variable (hst : s.Steady h)
include hst

section

variable (hno : ¬ s.Less h)
include hno

/-- Where no CPU can go on, a CPU that is inside a call is in the loop, its
call is not done, and it is not called. -/
theorem Steady.loop_of_stuck (hstack : s.stack c = .call x p :: rest) :
    p.Waits ∧ (s.port (other c)).ipiDone = false ∧ (s.port c).ipiPending = 0 := by
  have hp : p.Waits := by
    by_contra hp
    refine hno (.of_call hst hstack (fun h => absurd (.inl h) hp) (fun h => hp (.inr h)) ?_)
    rintro rfl
    have hph := (hst.inv.link (other c)).phase
    have hshape := hst.shape c
    rw [hstack] at hshape
    rw [other_other, hstack] at hph
    exact unlocked_of_no_holder hph (Shape.holders_lock hshape)
  obtain ⟨hdone, hpend⟩ := not_or.mp (fun hev => hno (.of_wait hst hstack hp hev))
  exact ⟨hp, by simpa using hdone, by simpa using hpend⟩

theorem Steady.no_irq_of_stuck : s.stack c ≠ .irq v :: rest :=
  fun hstack => hno (.of_irq hst hstack)

theorem Steady.not_pending_of_stuck (c : CpuId) : (s.port c).ipiPending = 0 := by
  have hshape := hst.shape c
  generalize hfs : s.stack c = fs at hshape
  cases hshape with
  | nil =>
    by_contra hpend
    exact hno (.of_poll hst hfs hpend)
  | call | back => exact (hst.loop_of_stuck hno hfs).2.2
  | irq | served => exact absurd hfs (hst.no_irq_of_stuck hno)

/-- Such a CPU waits for the other one, which executes the function and waits
for the call back. -/
theorem Steady.back_of_stuck (hstack : s.stack c = .call x p :: rest) :
    ∃ k q, s.stack (other c) = [.call k q, .irq (.finish x)] ∧ h.callBack x = some k := by
  obtain ⟨hp, hdone, _⟩ := hst.loop_of_stuck hno hstack
  have hpend := hst.not_pending_of_stuck hno (other c)
  have hshape := hst.shape (other c)
  have hph := (hst.inv.link (other c)).phase
  have hhold : holders (.call x p :: rest) = (x, p) :: holders rest := by
    rcases hp with rfl | rfl <;> rfl
  rw [other_other, hstack, hhold] at hph
  -- The other CPU is idle, or it waits too, perhaps in a function it executes.
  have hserve : servers (s.stack (other c)) = [] ∨
      ∃ y k q, s.stack (other c) = [.call k q, .irq (.finish y)] ∧ h.callBack y = some k := by
    generalize hfs : s.stack (other c) = fs at hshape
    cases hshape with
    | nil => exact .inl rfl
    | call z q => exact .inl (by cases q <;> rfl)
    | irq | served => exact absurd hfs (hst.no_irq_of_stuck hno)
    | back y k q hback => exact .inr ⟨y, k, q, rfl, hback⟩
  rcases hserve with hserve | ⟨y, k, q, hother, hback⟩
  · rw [hserve] at hph
    generalize holders rest = hs at hph
    cases hph with
    | preparing _ _ h1 => rcases hp with rfl | rfl <;> cases h1
    | sent _ _ _ _ h => rw [hpend] at h; cases h
    | done _ _ _ _ h => rw [hdone] at h; cases h
  · have hfin : servers (s.stack (other c)) = [.finish y] := by
      rw [hother]
      cases q <;> rfl
    rw [hfin] at hph
    generalize holders rest = hs at hph
    cases hph with
    | accepting _ _ _ _ h | fetching _ _ _ _ h => cases h
    | running => exact ⟨k, q, hother, hback⟩

end

/-- As long as an activation is left, there is less to do after some steps. -/
theorem Steady.less (hne : ¬ ∀ c, s.stack c = []) : s.Less h := by
  by_contra hno
  obtain ⟨c, hc⟩ := not_forall.mp hne
  obtain ⟨x, p, rest, hstack⟩ : ∃ x p rest, s.stack c = .call x p :: rest := by
    have hshape := hst.shape c
    generalize hfs : s.stack c = fs at hshape hc
    cases hshape with
    | nil => exact absurd rfl hc
    | call x p => exact ⟨x, p, [], rfl⟩
    | irq | served => exact absurd hfs (hst.no_irq_of_stuck hno)
    | back y k q _ => exact ⟨k, q, _, rfl⟩
  -- Both CPUs would execute functions that call back, but one is a call back.
  obtain ⟨k, q, hother, hback⟩ := hst.back_of_stuck hno hstack
  obtain ⟨_, _, _, hback'⟩ := hst.back_of_stuck hno hother
  rw [h.plain x k hback] at hback'
  cases hback'

end

theorem called_call_step {b : Port} {own : Word} : b.called <+: (p.step x own b).1.called := by
  cases p with
  | enter =>
    simp only [step]
    split
    · exact prefix_rfl
    · exact prefix_append _ _
  | lock | waitPoll =>
    simp only [step]
    split <;> exact prefix_rfl
  | _ => exact prefix_rfl

/-- No step takes a call back. -/
theorem called_step {l : IpiLabel} (hstep : s.exec h l = some s') (d : CpuId) :
    (s.port d).called <+: (s'.port d).called := by
  cases l with
  | step =>
    simp only [exec] at hstep
    split at hstep <;> cases hstep
    · unfold replaceTop
      dsimp only
      rw [update_apply]
      split
      · next hd =>
        rw [hd]
        exact called_call_step
      · exact prefix_rfl
    · unfold replaceTop
      dsimp only
      rw [update_apply]
      split
      · next hd => rw [hd, called_irq_step]
      · exact prefix_rfl
    · unfold leaveTimer
      split <;> exact prefix_rfl
  | _ =>
    simp only [exec] at hstep
    split at hstep <;> cases hstep
    exact prefix_rfl

theorem Steady.completes (hst : s.Steady h) : s.Completes h := by
  obtain ⟨t, hrun, ht, hnil⟩ := Machine.exists_leads_of_measure
    (M := ipi h) (size h) (fun s hs hne => Steady.less hs hne) s hst
  refine ⟨t, hrun, hnil, ht.inv.exact, fun d => ?_⟩
  have hcalled := hrun.relation (R := fun s t : Ipi => ∀ d, (s.port d).called <+: (t.port d).called)
    (fun _ _ => prefix_rfl) (fun _ _ _ h1 h2 d => (h1 d).trans (h2 d))
    (fun _ _ _ hstep => called_step hstep)
  have hlink := ht.inv.link d
  rw [hnil, hnil] at hlink
  obtain ⟨hph, hcalls, _⟩ := hlink
  have hset : (t.port d).Settled := by
    have hfree := unlocked_of_no_holder hph rfl
    exact (hph.of_unlocked hfree).2.2.2
  refine ⟨hcalled d, ?_, ?_, ?_⟩
  · rw [hset.executed]
    simpa [waiters] using hcalls
  · rw [hset.executed]
    exact hset.finished
  · rw [hset.executed]
    exact hset.returned

/-- Runs in which no timer interrupt comes. -/
def Untimed (_ : Ipi) : IpiLabel → Prop
  | .timer _ => False
  | _ => True

instance (s : Ipi) : (l : IpiLabel) → Decidable (s.Untimed l)
  | .timer _ => inferInstanceAs (Decidable False)
  | .step _ | .call _ _ | .poll _ | .noteReady => inferInstanceAs (Decidable True)

end Ipi

/-- In every state that runs without interrupts and without mixed calls lead
to, both CPUs are ready, each call was executed at most once, with its own
values, before it returned, and the CPUs can go on to a state in which every
call was executed exactly once and has returned. -/
theorem calledOnce_of_unmixed {h : Handlers} {s : Ipi}
    (hrun : (ipi h).ReachableUnder (Ipi.Unmixed h) s) :
    (∀ d, (s.port d).ipiReady = true) ∧ s.Exact ∧ s.Completes h := by
  have hst := Ipi.steady_of_unmixed hrun
  exact ⟨hst.ready, hst.inv.exact, hst.completes⟩

/-- Function 1 calls function 2 back, as `cpu1_nested_handler` does. -/
def nestedHandlers : Handlers where
  callBack x := if x.fn = 1 then some ⟨2, x.arg0, x.arg0 ^^^ 0x5a5a5a5a⟩ else none
  plain := by
    intro x y hy
    split at hy <;> cases hy
    rfl

/-- CPU 0 calls function 1 on CPU 1, is called back while it waits, and both
calls return. -/
def roundTrip : List IpiLabel :=
  sendCall ⟨1, 0, 0x1000⟩ ++ (.poll 1 :: replicate 16 (.step 1)) ++
    replicate 12 (.step 0) ++ replicate 5 (.step 1) ++ replicate 3 (.step 0)

theorem calledOnce_roundTrip :
    ∃ s : Ipi, (ipi nestedHandlers).ReachableUnder (Ipi.Unmixed nestedHandlers) s ∧
      ((s.port 1).executed = [⟨1, 0, 0x1000⟩] ∧ (s.port 1).returned = 1 ∧
        (s.port 0).executed = [⟨2, 0, 0x5a5a5a5a⟩] ∧ (s.port 0).returned = 1) ∧
      (∀ d, (s.port d).ipiReady = true) ∧ s.Exact ∧ s.Completes nestedHandlers := by
  have hstart : (ipi nestedHandlers).ReachableUnder (Ipi.Unmixed nestedHandlers) bootIpi :=
    .init (bootIpi_init _)
  obtain ⟨s, hs, hexec⟩ := Machine.exists_reachableUnder_of_exec
    (P := fun s : Ipi => (s.port 1).executed = [⟨1, 0, 0x1000⟩] ∧ (s.port 1).returned = 1 ∧
      (s.port 0).executed = [⟨2, 0, 0x5a5a5a5a⟩] ∧ (s.port 0).returned = 1)
    roundTrip hstart (by decide +kernel)
  exact ⟨s, hs, hexec, calledOnce_of_unmixed hs⟩

/-- CPU 1 waits for a lock that it holds, and CPU 0 waits for CPU 1. -/
structure Ipi.SelfLocked (s : Ipi) (x y k : Call) : Prop where
  caller : s.stack 0 = [.call x .waitDone] ∨ s.stack 0 = [.call x .waitPoll]
  callee : s.stack 1 = [.call k .lock, .irq (.finish x), .call y .waitDone]
  lock : (s.port 0).ipiMailboxLock = true
  pending : (s.port 0).ipiPending = 0
  done : (s.port 1).ipiDone = false

theorem Ipi.replaceTop_port (s : Ipi) (c d : CpuId) (rest new : List Frame) :
    s.replaceTop c d rest (s.port d, new) = { s with stack := update s.stack c (new ++ rest) } := by
  unfold replaceTop
  rw [update_eq_self]

/-- Nothing ever changes but the turn of the loop on CPU 0. -/
theorem Ipi.SelfLocked.step {h : Handlers} {s s' : Ipi} {l : IpiLabel} {x y k : Call}
    (hs : s.SelfLocked x y k) (hok : s.Untimed l) (hstep : s.exec h l = some s') :
    s'.SelfLocked x y k ∧ s'.port = s.port := by
  obtain ⟨hcaller, hcallee, hlock, hpend, hdone⟩ := hs
  have hne : ∀ c, s.stack c ≠ [] := by
    intro c
    rcases eq_or_eq_other 0 c with rfl | rfl
    · rcases hcaller with h | h <;> rw [h] <;> exact nofun
    · show s.stack 1 ≠ []
      rw [hcallee]
      exact nofun
  cases l with
  | timer => exact absurd hok id
  | step c =>
    rcases eq_or_eq_other 0 c with rfl | rfl
    · rcases hcaller with hstack | hstack
      · have hturn : CallPc.step x (s.port 0).ipiPending (s.port (other 0)) .waitDone =
            (s.port (other 0), [.call x .waitPoll]) := by
          simp only [CallPc.step]
          rw [show (s.port (other 0)).ipiDone = false from hdone]
          rfl
        rw [exec_call hstack, hturn, replaceTop_port] at hstep
        cases hstep
        exact ⟨⟨.inr rfl, hcallee, hlock, hpend, hdone⟩, rfl⟩
      · have hturn : CallPc.step x (s.port 0).ipiPending (s.port (other 0)) .waitPoll =
            (s.port (other 0), [.call x .waitDone]) := if_pos hpend
        rw [exec_call hstack, hturn, replaceTop_port] at hstep
        cases hstep
        exact ⟨⟨.inl rfl, hcallee, hlock, hpend, hdone⟩, rfl⟩
    · have hstack : s.stack (other 0) =
          [.call k .lock, .irq (.finish x), .call y .waitDone] := hcallee
      have hturn : CallPc.step k (s.port (other 0)).ipiPending (s.port (other (other 0)))
          .lock = (s.port (other (other 0)), [.call k .lock]) := if_pos hlock
      rw [exec_call hstack, hturn, replaceTop_port] at hstep
      cases hstep
      exact ⟨⟨hcaller, rfl, hlock, hpend, hdone⟩, rfl⟩
  | _ => simp [exec, hne] at hstep

theorem Ipi.SelfLocked.forever {h : Handlers} {s t : Ipi} {x y k : Call}
    (hs : s.SelfLocked x y k) (hrun : (ipi h).Leads Ipi.Untimed s t) :
    t.SelfLocked x y k ∧ t.port = s.port := by
  induction hrun with
  | refl => exact ⟨hs, rfl⟩
  | step l hok hstep _ ih =>
    obtain ⟨hs', hport⟩ := hs.step hok hstep
    obtain ⟨ht, hport'⟩ := ih hs'
    exact ⟨ht, hport'.trans hport⟩

/-- Both CPUs call, CPU 0 a function that calls back; each serves the other. -/
def crossedCalls : List IpiLabel :=
  .call 1 ⟨3, 0, 0⟩ :: sendCall ⟨1, 0, 0x1000⟩ ++ replicate 19 (.step 1) ++
    replicate 12 (.step 0)

/-- CPU 1 has called function 2 on CPU 0, and whatever the CPUs do, it is never
executed and the call of CPU 0 never returns. -/
theorem crossedCalls_selfLocked : ∃ s : Ipi, (ipi nestedHandlers).ReachableUnder Ipi.Untimed s ∧
      (s.port 0).called = [⟨3, 0, 0⟩, ⟨2, 0, 0x5a5a5a5a⟩] ∧
      (∀ t, (ipi nestedHandlers).Leads Ipi.Untimed s t →
        (t.port 0).executed = [⟨3, 0, 0⟩] ∧ (t.port 1).returned = 0) ∧
      ¬ s.Completes nestedHandlers := by
  have hstart : (ipi nestedHandlers).ReachableUnder Ipi.Untimed bootIpi := .init (bootIpi_init _)
  obtain ⟨s, hs, hcalled, hex, hret, h1, h2, h3, h4, h5⟩ := Machine.exists_reachableUnder_of_exec
      (P := fun s : Ipi => (s.port 0).called = [⟨3, 0, 0⟩, ⟨2, 0, 0x5a5a5a5a⟩] ∧
        (s.port 0).executed = [⟨3, 0, 0⟩] ∧ (s.port 1).returned = 0 ∧
        s.stack 0 = [.call ⟨1, 0, 0x1000⟩ .waitDone] ∧
        s.stack 1 = [.call ⟨2, 0, 0x5a5a5a5a⟩ .lock, .irq (.finish ⟨1, 0, 0x1000⟩),
          .call ⟨3, 0, 0⟩ .waitDone] ∧
        (s.port 0).ipiMailboxLock = true ∧ (s.port 0).ipiPending = 0 ∧
        (s.port 1).ipiDone = false)
      crossedCalls hstart (by decide +kernel)
  have hlocked : s.SelfLocked ⟨1, 0, 0x1000⟩ ⟨3, 0, 0⟩ ⟨2, 0, 0x5a5a5a5a⟩ :=
    ⟨.inl h1, h2, h3, h4, h5⟩
  refine ⟨s, hs, hcalled, fun t ht => ?_, ?_⟩
  · obtain ⟨_, hport⟩ := hlocked.forever ht
    rw [hport]
    exact ⟨hex, hret⟩
  · rintro ⟨t, ht, hnil, _⟩
    have hrun : (ipi nestedHandlers).Leads Ipi.Untimed s t :=
      ht.mono (fun s l hl => by cases l <;> first | exact hl | trivial)
    have hstack := (hlocked.forever hrun).1.callee
    rw [hnil] at hstack
    cases hstack

end MosSmp
