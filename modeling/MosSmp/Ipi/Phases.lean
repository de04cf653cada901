import MosSmp.Ipi.Machine

/-!
The phases of a call. All that concerns the calls for one CPU is its port, the
activation of `smp_group_function_call` that holds the lock of its mailbox,
and the activations of `handle_ipi_irq` on that CPU that have seen a pending
bit. `Phase` says which combinations occur while a call goes from one idle
state to the next, and what the port and the history are in each of them.

A step of the calling CPU and a step of the called CPU both lead from one
phase to the same or the next one. The step that would not is the read of a
pending bit by an activation above another one that has read that bit and has
not cleared it, which `Frame.accepting` singles out.
-/

namespace MosSmp

open CallPc List

namespace Frame

/-- The activation holds the lock of the mailbox. -/
def holding : Frame → Option (Call × CallPc)
  | .call _ .enter | .call _ .lock => none
  | .call x p => some (x, p)
  | _ => none

/-- The activation has seen a pending bit. -/
def serving : Frame → Option IrqPc
  | .irq .status => none
  | .irq p => some p
  | _ => none

/-- The activation waits for the lock of the mailbox. -/
def waiting : Frame → Option Call
  | .call x .lock => some x
  | _ => none

/-- The activation has seen a pending bit and has not cleared it. -/
def accepting : Frame → Bool
  | .irq (.clearLoad _) | .irq (.clearStore _ _) => true
  | _ => false

end Frame

def holders (fs : List Frame) : List (Call × CallPc) := fs.filterMap Frame.holding

def servers (fs : List Frame) : List IrqPc := fs.filterMap Frame.serving

def waiters (fs : List Frame) : List Call := fs.filterMap Frame.waiting

/-- In the loop of `ipi_wait_done`. -/
def CallPc.Waits (p : CallPc) : Prop := p = .waitDone ∨ p = .waitPoll

/-- What has been written of the call `x`. -/
def CallPc.Preparing (b : Port) (x : Call) : CallPc → Prop
  | .clearDone => True
  | .writeFn => b.ipiDone = false
  | .writeArg0 => b.ipiDone = false ∧ b.ipiMailbox.fn = x.fn
  | .writeArg1 => b.ipiDone = false ∧ b.ipiMailbox.fn = x.fn ∧ b.ipiMailbox.arg0 = x.arg0
  | .sendLoad => b.ipiDone = false ∧ b.ipiMailbox = x
  | .sendStore pending => pending = 0 ∧ b.ipiDone = false ∧ b.ipiMailbox = x
  | _ => False

def CallPc.Leaving (p : CallPc) : Prop := p.Waits ∨ p = .resetFn ∨ p = .unlock

/-- The pending bit of the call has been seen and not cleared. -/
def IrqPc.Accepting : IrqPc → Prop
  | .clearLoad w => w = IPI_CALL
  | .clearStore w pending => w = IPI_CALL ∧ pending = IPI_CALL
  | _ => False

/-- What has been read of the call `x`. -/
def IrqPc.Fetching (x : Call) : IrqPc → Prop
  | .dispatch w => w = IPI_CALL
  | .readFn => True
  | .readArg0 fn => fn = x.fn
  | .readArg1 fn arg0 => fn = x.fn ∧ arg0 = x.arg0
  | .invoke y => y = x
  | _ => False

namespace Port

/-- Every call that took the lock was executed and has returned. -/
structure Settled (b : Port) : Prop where
  executed : b.executed = b.issued
  finished : b.finished = b.issued.length
  returned : b.returned = b.issued.length
  cleared : b.cleared = b.issued.length

/-- The last call is `x`, and it alone has not been executed. -/
structure Requested (b : Port) (x : Call) : Prop where
  issued : b.issued = b.executed ++ [x]
  finished : b.finished = b.executed.length
  returned : b.returned = b.executed.length

/-- Every call was executed, and the last one has not returned. -/
structure Executed (b : Port) : Prop where
  executed : b.executed = b.issued
  returned : b.returned + 1 = b.issued.length
  cleared : b.cleared = b.issued.length

/-- The mailbox holds the call `x`, whose lock is held and which is not done. -/
structure Open (b : Port) (x : Call) : Prop where
  lock : b.ipiMailboxLock = true
  done : b.ipiDone = false
  mailbox : b.ipiMailbox = x

end Port

/-- The phases of a call for the CPU with port `b`. -/
inductive Phase (b : Port) : List (Call × CallPc) → List IrqPc → Prop
  | idle : b.ipiMailboxLock = false → b.ipiPending = 0 → b.Settled → Phase b [] []
  | preparing (x : Call) (p : CallPc) : p.Preparing b x → b.ipiMailboxLock = true →
      b.ipiPending = 0 → b.Requested x → b.cleared = b.executed.length → Phase b [(x, p)] []
  | sent (x : Call) (p : CallPc) : p.Waits → b.Open x → b.ipiPending = IPI_CALL →
      b.Requested x → b.cleared = b.executed.length → Phase b [(x, p)] []
  | accepting (x : Call) (p : CallPc) (v : IrqPc) : p.Waits → v.Accepting → b.Open x →
      b.ipiPending = IPI_CALL → b.Requested x → b.cleared = b.executed.length →
      Phase b [(x, p)] [v]
  | fetching (x : Call) (p : CallPc) (v : IrqPc) : p.Waits → v.Fetching x → b.Open x →
      b.ipiPending = 0 → b.Requested x → b.cleared = b.executed.length + 1 →
      Phase b [(x, p)] [v]
  | running (x : Call) (p : CallPc) : p.Waits → b.Open x → b.ipiPending = 0 → b.Executed →
      b.finished + 1 = b.issued.length → Phase b [(x, p)] [.finish x]
  | ran (x : Call) (p : CallPc) : p.Waits → b.Open x → b.ipiPending = 0 → b.Executed →
      b.finished = b.issued.length → Phase b [(x, p)] [.setDone]
  | done (x : Call) (p : CallPc) : p.Leaving → b.ipiMailboxLock = true → b.ipiDone = true →
      b.ipiPending = 0 → b.Executed → b.finished = b.issued.length → Phase b [(x, p)] []

namespace Phase

variable {b : Port} {x : Call} {p : CallPc} {own : Word} {hs : List (Call × CallPc)}
variable {vs : List IrqPc} {rest : List Frame} {h : Handlers}

theorem of_called (cs : List Call) (hph : Phase b hs vs) : Phase { b with called := cs } hs vs := by
  cases hph with
  | idle h1 h2 h3 => exact .idle h1 h2 ⟨h3.1, h3.2, h3.3, h3.4⟩
  | preparing x p h1 h2 h3 h4 h5 =>
    refine .preparing x p ?_ h2 h3 ⟨h4.1, h4.2, h4.3⟩ h5
    cases p <;> exact h1
  | sent x p h1 h2 h3 h4 h5 => exact .sent x p h1 ⟨h2.1, h2.2, h2.3⟩ h3 ⟨h4.1, h4.2, h4.3⟩ h5
  | accepting x p v h1 h2 h3 h4 h5 h6 =>
    exact .accepting x p v h1 h2 ⟨h3.1, h3.2, h3.3⟩ h4 ⟨h5.1, h5.2, h5.3⟩ h6
  | fetching x p v h1 h2 h3 h4 h5 h6 =>
    exact .fetching x p v h1 h2 ⟨h3.1, h3.2, h3.3⟩ h4 ⟨h5.1, h5.2, h5.3⟩ h6
  | running x p h1 h2 h3 h4 h5 =>
    exact .running x p h1 ⟨h2.1, h2.2, h2.3⟩ h3 ⟨h4.1, h4.2, h4.3⟩ h5
  | ran x p h1 h2 h3 h4 h5 => exact .ran x p h1 ⟨h2.1, h2.2, h2.3⟩ h3 ⟨h4.1, h4.2, h4.3⟩ h5
  | done x p h1 h2 h3 h4 h5 h6 => exact .done x p h1 h2 h3 h4 ⟨h5.1, h5.2, h5.3⟩ h6

/-- The lock is free only between calls. -/
theorem of_unlocked (hph : Phase b hs vs) (hlock : b.ipiMailboxLock = false) :
    hs = [] ∧ vs = [] ∧ b.ipiPending = 0 ∧ b.Settled := by
  cases hph with
  | idle _ h2 h3 => exact ⟨rfl, rfl, h2, h3⟩
  | preparing _ _ _ h | done _ _ _ h => rw [h] at hlock; cases hlock
  | sent _ _ _ h | accepting _ _ _ _ _ h | fetching _ _ _ _ _ h | running _ _ _ h | ran _ _ _ h =>
    rw [h.lock] at hlock; cases hlock

section

variable (hph : Phase b ((x, p) :: hs) vs)
include hph

/-- A holder that writes the call is alone, and the CPU has not seen it. -/
theorem of_preparing (hw : ¬ p.Leaving) :
    hs = [] ∧ vs = [] ∧ p.Preparing b x ∧ b.ipiMailboxLock = true ∧ b.ipiPending = 0 ∧
      b.Requested x ∧ b.cleared = b.executed.length := by
  cases hph with
  | preparing _ _ h1 h2 h3 h4 h5 => exact ⟨rfl, rfl, h1, h2, h3, h4, h5⟩
  | done _ _ h1 => exact absurd h1 hw
  | sent _ _ h1 | accepting _ _ _ h1 | fetching _ _ _ h1 | running _ _ h1 | ran _ _ h1 =>
    exact absurd (.inl h1) hw

/-- A holder that has left the loop has seen that the call is done. -/
theorem of_left (hp : p = .resetFn ∨ p = .unlock) :
    hs = [] ∧ vs = [] ∧ b.ipiMailboxLock = true ∧ b.ipiDone = true ∧ b.ipiPending = 0 ∧
      b.Executed ∧ b.finished = b.issued.length := by
  have hnot : ¬ p.Waits := by
    rcases hp with rfl | rfl <;> rintro (h | h) <;> cases h
  cases hph with
  | preparing _ _ h1 => rcases hp with rfl | rfl <;> cases h1
  | done _ _ h1 h2 h3 h4 h5 h6 => exact ⟨rfl, rfl, h2, h3, h4, h5, h6⟩
  | sent _ _ h1 | accepting _ _ _ h1 | fetching _ _ _ h1 | running _ _ h1 | ran _ _ h1 =>
    exact absurd h1 hnot

/-- Turns of the loop of `ipi_wait_done` change nothing. -/
theorem of_waits {q : CallPc} (hp : p.Waits) (hq : q.Waits) : Phase b ((x, q) :: hs) vs := by
  cases hph with
  | preparing _ _ h1 => rcases hp with rfl | rfl <;> cases h1
  | done _ _ h1 h2 h3 h4 h5 h6 => exact .done x q (.inl hq) h2 h3 h4 h5 h6
  | sent _ _ h1 h2 h3 h4 h5 => exact .sent x q hq h2 h3 h4 h5
  | accepting _ _ v h1 h2 h3 h4 h5 h6 => exact .accepting x q v hq h2 h3 h4 h5 h6
  | fetching _ _ v h1 h2 h3 h4 h5 h6 => exact .fetching x q v hq h2 h3 h4 h5 h6
  | running _ _ h1 h2 h3 h4 h5 => exact .running x q hq h2 h3 h4 h5
  | ran _ _ h1 h2 h3 h4 h5 => exact .ran x q hq h2 h3 h4 h5

/-- A holder that finds `ipi_done` set is in the last phase. -/
theorem of_done (hp : p.Waits) (hdone : b.ipiDone = true) : Phase b ((x, .resetFn) :: hs) vs := by
  have hclosed : ¬ b.Open x := by
    intro h
    rw [h.done] at hdone
    cases hdone
  cases hph with
  | preparing _ _ h1 => rcases hp with rfl | rfl <;> cases h1
  | done _ _ h1 h2 h3 h4 h5 h6 => exact .done x .resetFn (.inr (.inl rfl)) h2 h3 h4 h5 h6
  | sent _ _ _ h | accepting _ _ _ _ _ h | fetching _ _ _ _ _ h | running _ _ _ h | ran _ _ _ h =>
    exact absurd h hclosed

end

theorem not_leaving_of_ne (h1 : p ≠ .waitDone) (h2 : p ≠ .waitPoll) (h3 : p ≠ .resetFn)
    (h4 : p ≠ .unlock) : ¬ p.Leaving := by
  rintro ((h | h) | h | h)
  · exact h1 h
  · exact h2 h
  · exact h3 h
  · exact h4 h

/-- Steps of a holder that only write the call. -/
theorem prepare {b' : Port} {q : CallPc} (hph : Phase b ((x, p) :: hs) vs) (hp : ¬ p.Leaving)
    (hwrite : b.ipiPending = 0 → p.Preparing b x → q.Preparing b' x)
    (hlock : b'.ipiMailboxLock = b.ipiMailboxLock) (hpend : b'.ipiPending = b.ipiPending)
    (hiss : b'.issued = b.issued) (hex : b'.executed = b.executed)
    (hfin : b'.finished = b.finished) (hret : b'.returned = b.returned)
    (hcl : b'.cleared = b.cleared) : Phase b' ((x, q) :: hs) vs := by
  obtain ⟨rfl, rfl, h1, h2, h3, h4, h5⟩ := hph.of_preparing hp
  refine .preparing x q (hwrite h3 h1) (hlock.trans h2) (hpend.trans h3) ⟨?_, ?_, ?_⟩ ?_
  · rw [hiss, hex, h4.issued]
  · rw [hfin, hex, h4.finished]
  · rw [hret, hex, h4.returned]
  · rw [hcl, hex, h5]

/-- A step of the calling CPU. -/
theorem call_step (hph : Phase b (holders (.call x p :: rest)) vs) :
    Phase (p.step x own b).1 (holders ((p.step x own b).2 ++ rest)) vs := by
  cases p with
  | enter =>
    simp only [step]
    split
    · exact hph
    · exact hph.of_called _
  | lock =>
    simp only [step]
    split
    · exact hph
    · next hfree =>
      obtain ⟨hhs, rfl, hpend, hset⟩ := hph.of_unlocked (by simpa using hfree)
      have hrest : holders rest = [] := hhs
      show Phase _ ((x, clearDone) :: holders rest) []
      rw [hrest]
      refine .preparing x .clearDone trivial rfl hpend ⟨?_, ?_, ?_⟩ ?_
      · show b.issued ++ [x] = b.executed ++ [x]
        rw [hset.executed]
      · exact hset.finished.trans (congrArg length hset.executed.symm)
      · exact hset.returned.trans (congrArg length hset.executed.symm)
      · exact hset.cleared.trans (congrArg length hset.executed.symm)
  | clearDone =>
    exact prepare hph (not_leaving_of_ne nofun nofun nofun nofun) (fun _ _ => rfl)
      rfl rfl rfl rfl rfl rfl rfl
  | writeFn =>
    exact prepare hph (not_leaving_of_ne nofun nofun nofun nofun) (fun _ h => ⟨h, rfl⟩)
      rfl rfl rfl rfl rfl rfl rfl
  | writeArg0 =>
    exact prepare hph (not_leaving_of_ne nofun nofun nofun nofun)
      (fun _ h => ⟨h.1, h.2, rfl⟩) rfl rfl rfl rfl rfl rfl rfl
  | writeArg1 =>
    refine prepare hph (not_leaving_of_ne nofun nofun nofun nofun) (fun _ h => ⟨h.1, ?_⟩)
      rfl rfl rfl rfl rfl rfl rfl
    obtain ⟨_, hfn, harg⟩ := h
    show (⟨b.ipiMailbox.fn, b.ipiMailbox.arg0, x.arg1⟩ : Call) = x
    rw [hfn, harg]
  | sendLoad =>
    exact prepare hph (not_leaving_of_ne nofun nofun nofun nofun)
      (fun hpend h => ⟨hpend, h.1, h.2⟩) rfl rfl rfl rfl rfl rfl rfl
  | sendStore =>
    obtain ⟨hrest, rfl, ⟨rfl, hdone, hmail⟩, hlock, _, hreq, hcl⟩ :=
      of_preparing hph (not_leaving_of_ne nofun nofun nofun nofun)
    have hrest' : holders rest = [] := hrest
    show Phase _ ((x, waitDone) :: holders rest) []
    rw [hrest']
    exact .sent x .waitDone (.inl rfl) ⟨hlock, hdone, hmail⟩ (BitVec.zero_or)
      ⟨hreq.1, hreq.2, hreq.3⟩ hcl
  | waitDone =>
    have hph' : Phase b ((x, waitDone) :: holders rest) vs := hph
    simp only [step]
    split
    · next hdone => exact hph'.of_done (.inl rfl) hdone
    · exact hph'.of_waits (.inl rfl) (.inr rfl)
  | waitPoll =>
    have hph' : Phase b ((x, waitPoll) :: holders rest) vs := hph
    simp only [step]
    split
    · exact hph'.of_waits (.inr rfl) (.inl rfl)
    · exact hph'.of_waits (.inr rfl) (.inl rfl)
  | resetFn =>
    obtain ⟨hrest, rfl, hlock, hdone, hpend, hex, hfin⟩ := of_left hph (.inl rfl)
    have hrest' : holders rest = [] := hrest
    show Phase _ ((x, unlock) :: holders rest) []
    rw [hrest']
    exact .done x .unlock (.inr (.inr rfl)) hlock hdone hpend ⟨hex.1, hex.2, hex.3⟩ hfin
  | unlock =>
    obtain ⟨hrest, rfl, _, _, hpend, hex, hfin⟩ := of_left hph (.inr rfl)
    have hrest' : holders rest = [] := hrest
    show Phase _ (holders rest) []
    rw [hrest']
    exact .idle rfl hpend ⟨hex.executed, hfin, hex.returned, hex.cleared⟩

/-- A pending bit belongs to a call that was sent, and that an activation may
have seen already. -/
theorem of_pending (hph : Phase b hs vs) (hpend : b.ipiPending ≠ 0) :
    (vs = [] → ∃ v, v = IrqPc.clearLoad b.ipiPending ∧ Phase b hs [v]) ∧ ∀ v ∈ vs, v.Accepting := by
  cases hph with
  | idle _ h | preparing _ _ _ _ h | fetching _ _ _ _ _ _ h | running _ _ _ _ h | ran _ _ _ _ h
  | done _ _ _ _ _ h => exact absurd h hpend
  | sent x p h1 h2 h3 h4 h5 =>
    refine ⟨fun _ => ⟨_, rfl, .accepting x p _ h1 h3 h2 h3 h4 h5⟩, ?_⟩
    intro v hv
    cases hv
  | accepting x p v h1 h2 =>
    refine ⟨nofun, fun v' hv' => ?_⟩
    rw [mem_singleton.mp hv']
    exact h2

theorem accepting_of_server {v : IrqPc} (hv : v ∈ servers rest) (hacc : v.Accepting) :
    ∃ f ∈ rest, f.accepting = true := by
  obtain ⟨f, hf, hserve⟩ := mem_filterMap.mp hv
  refine ⟨f, hf, ?_⟩
  cases f with
  | call | timer => cases hserve
  | irq q => cases q <;> cases hserve <;> first | rfl | cases hacc

/-- An activation that has seen the pending bit of a call clears that bit. -/
theorem accept_step {w : Word} (hph : Phase b hs (.clearLoad w :: vs)) :
    Phase b hs (.clearStore w b.ipiPending :: vs) := by
  cases hph with
  | accepting x p _ h1 h2 h3 h4 h5 h6 => exact .accepting x p _ h1 ⟨h2, h4⟩ h3 h4 h5 h6
  | fetching _ _ _ _ h => cases h

theorem clear_step {w pending : Word} (hph : Phase b hs (.clearStore w pending :: vs)) :
    Phase (b.clear w pending) hs (.dispatch w :: vs) := by
  cases hph with
  | accepting x p _ h1 h2 h3 h4 h5 h6 =>
    obtain ⟨rfl, rfl⟩ := h2
    refine .fetching x p _ h1 rfl ⟨h3.1, h3.2, h3.3⟩ rfl ⟨h5.1, h5.2, h5.3⟩ ?_
    show (if b.ipiPending &&& IPI_CALL ≠ 0 ∧ _ then b.cleared + 1 else b.cleared) = _
    rw [h4, if_pos (by decide), h6]
    rfl
  | fetching _ _ _ _ h => cases h

/-- Steps that only read the call. -/
theorem fetch {v v' : IrqPc} (hph : Phase b hs (v :: vs)) (hv : ¬ v.Accepting)
    (hfin : ∀ x, v ≠ .finish x) (hdone : v ≠ .setDone)
    (hread : ∀ x, b.Open x → v.Fetching x → v'.Fetching x) : Phase b hs (v' :: vs) := by
  cases hph with
  | accepting _ _ _ _ h => exact absurd h hv
  | fetching x p _ h1 h2 h3 h4 h5 h6 => exact .fetching x p _ h1 (hread x h3 h2) h3 h4 h5 h6
  | running x => exact absurd rfl (hfin x)
  | ran => exact absurd rfl hdone

theorem invoke_step {y : Call} (hph : Phase b hs (.invoke y :: vs)) :
    y ∈ b.issued ∧ Phase { b with executed := b.executed ++ [y] } hs (.finish y :: vs) := by
  cases hph with
  | accepting _ _ _ _ h => cases h
  | fetching x p _ h1 h2 h3 h4 h5 h6 =>
    obtain rfl : y = x := h2
    have hlen : b.issued.length = b.executed.length + 1 := by
      rw [h5.issued, length_append, length_singleton]
    refine ⟨by rw [h5.issued]; simp, .running y p h1 ⟨h3.1, h3.2, h3.3⟩ h4 ⟨?_, ?_, ?_⟩ ?_⟩
    · exact h5.issued.symm
    · show b.returned + 1 = b.issued.length
      rw [h5.returned, hlen]
    · show b.cleared = b.issued.length
      rw [h6, hlen]
    · show b.finished + 1 = b.issued.length
      rw [h5.finished, hlen]

theorem finish_step {y : Call} (hph : Phase b hs (.finish y :: vs)) :
    Phase { b with finished := b.finished + 1 } hs (.setDone :: vs) := by
  cases hph with
  | accepting _ _ _ _ h | fetching _ _ _ _ h => cases h
  | running x p h1 h2 h3 h4 h5 =>
    exact .ran y p h1 ⟨h2.1, h2.2, h2.3⟩ h3 ⟨h4.1, h4.2, h4.3⟩ h5

theorem done_step (hph : Phase b hs (.setDone :: vs)) : Phase { b with ipiDone := true } hs vs := by
  cases hph with
  | accepting _ _ _ _ h | fetching _ _ _ _ h => cases h
  | ran x p h1 h2 h3 h4 h5 => exact .done x p (.inl h1) h2.lock rfl h3 ⟨h4.1, h4.2, h4.3⟩ h5

/-- A step of the called CPU, where no activation below the running one is
between its read of the pending bit and the store that clears it. -/
theorem irq_step {v : IrqPc} (hph : Phase b hs (servers (.irq v :: rest)))
    (hrest : ∀ f ∈ rest, f.accepting = false) (hfn : ∀ x ∈ b.issued, x.fn ≠ 0) :
    Phase (v.step h b).1 hs (servers ((v.step h b).2 ++ rest)) := by
  cases v with
  | status =>
    have hph' : Phase b hs (servers rest) := hph
    simp only [IrqPc.step]
    split
    · exact hph'
    · next hpend =>
      obtain ⟨hnew, hacc⟩ := hph'.of_pending hpend
      have hnone : servers rest = [] := by
        apply eq_nil_iff_forall_not_mem.mpr
        intro v hv
        obtain ⟨f, hf, htrue⟩ := accepting_of_server hv (hacc v hv)
        rw [hrest f hf] at htrue
        cases htrue
      obtain ⟨v, rfl, hph''⟩ := hnew hnone
      show Phase b hs (IrqPc.clearLoad b.ipiPending :: servers rest)
      rw [hnone]
      exact hph''
  | clearLoad => exact accept_step hph
  | clearStore => exact clear_step hph
  | dispatch w =>
    have hw : w = IPI_CALL := by
      have hph' : Phase b hs (IrqPc.dispatch w :: servers rest) := hph
      generalize servers rest = vs' at hph'
      cases hph' with
      | accepting _ _ _ _ h => cases h
      | fetching _ _ _ _ h => exact h
    subst hw
    exact fetch hph nofun nofun nofun (fun _ _ _ => trivial)
  | readFn =>
    exact fetch hph nofun nofun nofun (fun x hopen _ => congrArg Call.fn hopen.mailbox)
  | readArg0 =>
    exact fetch hph nofun nofun nofun (fun x hopen hf => ⟨hf, congrArg Call.arg0 hopen.mailbox⟩)
  | readArg1 fn arg0 =>
    refine fetch hph nofun nofun nofun (fun x hopen hf => ?_)
    obtain ⟨rfl, rfl⟩ := hf
    have hmail : b.ipiMailbox = x := hopen.mailbox
    show (⟨x.fn, x.arg0, b.ipiMailbox.arg1⟩ : Call) = x
    rw [hmail]
  | invoke y =>
    obtain ⟨hmem, hrun⟩ := invoke_step hph
    simp only [IrqPc.step]
    rw [if_neg (hfn y hmem)]
    cases h.callBack y with
    | none | some => exact hrun
  | finish => exact finish_step hph
  | setDone => exact done_step hph

theorem history_of_requested (hreq : b.Requested x) :
    b.executed <+: b.issued ∧ b.returned ≤ b.finished ∧ b.finished ≤ b.executed.length ∧
      b.issued.length ≤ b.returned + 1 := by
  have hlen : b.issued.length = b.executed.length + 1 := by
    rw [hreq.issued, length_append, length_singleton]
  have hfin := hreq.finished
  have hret := hreq.returned
  refine ⟨?_, by omega, by omega, by omega⟩
  rw [hreq.issued]
  exact prefix_append _ _

theorem history_of_executed (hex : b.executed = b.issued) (hret : b.returned ≤ b.finished)
    (hfin : b.finished ≤ b.issued.length) (hone : b.issued.length ≤ b.returned + 1) :
    b.executed <+: b.issued ∧ b.returned ≤ b.finished ∧ b.finished ≤ b.executed.length ∧
      b.issued.length ≤ b.returned + 1 := by
  rw [hex]
  exact ⟨prefix_rfl, hret, hfin, hone⟩

/-- In every phase, each function that was executed was called for, in order,
and a call has returned only after its function has ended. -/
theorem history (hph : Phase b hs vs) :
    b.executed <+: b.issued ∧ b.returned ≤ b.finished ∧ b.finished ≤ b.executed.length ∧
      b.issued.length ≤ b.returned + 1 := by
  cases hph with
  | idle _ _ h =>
    obtain ⟨h1, h2, _, _⟩ := h
    exact history_of_executed h1 (by omega) (by omega) (by omega)
  | preparing _ _ _ _ _ h | sent _ _ _ _ _ h | accepting _ _ _ _ _ _ _ h
  | fetching _ _ _ _ _ _ _ h => exact history_of_requested h
  | running _ _ _ _ _ h | ran _ _ _ _ _ h | done _ _ _ _ _ _ h =>
    obtain ⟨h1, h2, _⟩ := h
    exact history_of_executed h1 (by omega) (by omega) (by omega)

/-- A cleared bit is that of a function that was executed, except between the
store that clears it and the call of the function. -/
theorem cleared_cases (hph : Phase b hs vs) :
    b.cleared = b.executed.length ∨ b.cleared = b.executed.length + 1 ∧
      ∃ v x, v ∈ vs ∧ v.Fetching x ∧ b.issued = b.executed ++ [x] := by
  cases hph with
  | idle _ _ h | running _ _ _ _ _ h | ran _ _ _ _ _ h | done _ _ _ _ _ _ h =>
    exact .inl (by rw [h.executed, h.cleared])
  | preparing _ _ _ _ _ _ h | sent _ _ _ _ _ _ h | accepting _ _ _ _ _ _ _ _ h => exact .inl h
  | fetching x _ v _ h2 _ _ h5 h6 =>
    exact .inr ⟨h6, v, x, mem_singleton_self v, h2, h5.issued⟩

end Phase

end MosSmp
