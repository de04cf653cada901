import MosSmp.User.Pipe

/-!
End of file on a pipe. `pipe_read` looks whether the pipe is empty before it
looks whether the pipe is closed. A writer that writes its last bytes and closes
its end between the two looks makes `pipe_read` return 0 with these bytes still
in the pipe. If the writer does not close its end with bytes in the pipe while
the reader is between the two looks, a return of 0 means the end.
-/

namespace MosSmp.User

open Lib

namespace Pipe

variable {s t : Pipe} {n i : Nat} {a : PipeAct}

def Empty (s : Pipe) : Prop :=
  s.ring.rpos = s.ring.wpos

instance decidableEmpty (s : Pipe) : Decidable s.Empty :=
  inferInstanceAs (Decidable (_ = _))

/-- The reader has found the pipe empty and is inside `_pipe_is_closed`. -/
def readerChecks (s : Pipe) : Bool :=
  match s.reader with
  | .check _ _ _ => true
  | _ => false

/-- The next step of the writer unmaps the page of the pipe. -/
def writerLeaves (s : Pipe) : Bool :=
  match s.writer with
  | .unmapData => true
  | _ => false

/-- While the reader is between its two looks, the writer gives up the pipe only
when it is empty. -/
def Calm (s : Pipe) : PipeAct → Prop
  | .writer => s.writerLeaves = true → s.readerChecks = true → s.Empty
  | _ => True

instance decidableCalm (s : Pipe) : (a : PipeAct) → Decidable (s.Calm a)
  | .writer => inferInstanceAs (Decidable (_ → _ → _))
  | .read _ | .write _ | .closeReader | .closeWriter | .reader | .readerRuns | .writerRuns =>
    inferInstanceAs (Decidable True)

/-- What the reader maps while it can be in a call. -/
def ReaderMaps (s : Pipe) : Prop :=
  match s.reader with
  | .unmapFd | .unmapData | .unmapFdAgain | .closed => True
  | _ => s.readEnd.fd = true ∧ s.readEnd.data = true

/-- The writer keeps the pipe until it closes its end, and it unmaps its `Fd`
first. -/
def WriterMaps (s : Pipe) : Prop :=
  match s.writer with
  | .unmapFdAgain | .closed => s.writeEnd.fd = false ∧ s.writeEnd.data = false
  | .unmapData => s.writeEnd.fd = false ∧ s.writeEnd.data = true
  | _ => s.writeEnd.data = true

/-- The counts that `_pipe_is_closed` has read: one mapping of the reader's `Fd`,
and one of the pipe only if the writer has given it up. -/
def CheckKnows (s : Pipe) : Check → Prop
  | .loadRuns | .loadFdRef _ => True
  | .loadPipeRef _ fdRef => fdRef = 1
  | .again _ fdRef pipeRef => fdRef = 1 ∧ (pipeRef = 1 → s.writeEnd.data = false)

/-- Inside `_pipe_is_closed`, and after a return of 0, the writer has not given
up the pipe with bytes in it. -/
def EndKnows (s : Pipe) : Prop :=
  match s.reader with
  | .check _ _ c => (s.writeEnd.data = false → s.Empty) ∧ s.CheckKnows c
  | .returned n i => i = 0 → 0 < n → s.writeEnd.data = false ∧ s.Empty
  | _ => True

structure Ended (s : Pipe) : Prop where
  fifo : s.Fifo
  readerMaps : s.ReaderMaps
  writerMaps : s.WriterMaps
  knows : s.EndKnows

theorem CheckKnows.again {runs : Word} {fdRef pipeRef : Nat}
    (h : s.CheckKnows (.again runs fdRef pipeRef)) (heq : fdRef = pipeRef) :
    s.writeEnd.data = false :=
  h.2 (heq.symm.trans h.1)

/-- A step of `_pipe_is_closed` in the reader: it goes on with what it has read,
or it ends, with 1 only if the writer has given up the pipe. -/
theorem checkKnows_step {c : Check} (hmaps : s.readEnd.fd = true ∧ s.readEnd.data = true)
    (hc : s.CheckKnows c) :
    match c.step s.readEnd.runs (pageref s.readEnd.fd s.readEnd.fd.toNat)
      (pageref s.readEnd.data s.dataRef) with
    | .inl c' => s.CheckKnows c'
    | .inr isClosed => isClosed = true → s.writeEnd.data = false := by
  cases c with
  | loadRuns => trivial
  | loadFdRef =>
    rw [hmaps.1]
    rfl
  | loadPipeRef =>
    refine ⟨hc, fun hone => ?_⟩
    unfold dataRef at hone
    rw [hmaps.2] at hone
    cases hd : s.writeEnd.data with
    | false => rfl
    | true =>
      rw [hd] at hone
      cases hone
  | again runs =>
    by_cases hruns : runs = s.readEnd.runs
    · simp only [Check.step, hruns, ne_eq, not_true_eq_false, if_false]
      intro heq
      exact CheckKnows.again hc (of_decide_eq_true heq)
    · simp only [Check.step, ne_eq, hruns, not_false_eq_true, if_true]
      trivial

theorem Ended.readerStep (h : s.Ended) (hstep : s.readerStep = some t) : t.Ended := by
  have hfifo := h.fifo.readerStep hstep
  have hmaps := h.readerMaps
  have hknows := h.knows
  have hreader := h.fifo.reader
  unfold ReaderMaps at hmaps
  unfold EndKnows at hknows
  unfold ReaderKnows at hreader
  unfold Pipe.readerStep at hstep
  cases hr : s.reader <;> simp only [hr] at hstep hmaps hknows hreader
  case start | returned | closed => cases hstep
  case test | index | copy | bump =>
    cases hstep
    exact ⟨hfifo, hmaps, h.writerMaps, trivial⟩
  case testWpos n i rpos =>
    split at hstep <;> cases hstep
    · next heq =>
      exact ⟨hfifo, hmaps, h.writerMaps, fun _ => hreader.symm.trans heq, trivial⟩
    · exact ⟨hfifo, hmaps, h.writerMaps, trivial⟩
  case check n i c =>
    obtain ⟨hempty, hc⟩ := hknows
    have hcheck := checkKnows_step hmaps hc
    split at hstep
    · next c' hc' =>
      rw [hc'] at hcheck
      cases hstep
      exact ⟨hfifo, hmaps, h.writerMaps, hempty, hcheck⟩
    · next isClosed hc' =>
      rw [hc'] at hcheck
      split at hstep <;> cases hstep
      · next hret =>
        refine ⟨hfifo, hmaps, h.writerMaps, fun hzero _ => ?_⟩
        have hdata : s.writeEnd.data = false :=
          hcheck (hret.resolve_right (by rw [hzero]; exact Nat.lt_irrefl 0))
        exact ⟨hdata, hempty hdata⟩
      · exact ⟨hfifo, hmaps, h.writerMaps, trivial⟩
  case store n i b rpos =>
    cases hstep
    refine ⟨hfifo, ?_, h.writerMaps, ?_⟩
    · unfold ReaderMaps
      by_cases hi : i + 1 < n <;> simpa [hi] using hmaps
    · unfold EndKnows
      by_cases hi : i + 1 < n <;> simp [hi]
  case unmapFd | unmapData | unmapFdAgain =>
    cases hstep
    exact ⟨hfifo, trivial, h.writerMaps, trivial⟩

/-- What a step of the writer has to respect: it does not map the pipe again, and
when it does not map the pipe any more, an empty pipe is still empty and a pipe
that it has just given up is empty if the reader is between its two looks. -/
theorem EndKnows.of_writer (h : s.EndKnows) (hreader : t.reader = s.reader)
    (hdata : s.writeEnd.data = false → t.writeEnd.data = false ∧ (s.Empty → t.Empty))
    (hleave : s.writeEnd.data = true → t.writeEnd.data = false → s.readerChecks = true → t.Empty) :
    t.EndKnows := by
  unfold EndKnows at h ⊢
  unfold readerChecks at hleave
  rw [hreader]
  cases hr : s.reader with
  | check n i c =>
    simp only [hr] at h hleave ⊢
    refine ⟨fun hd => ?_, ?_⟩
    · cases hs : s.writeEnd.data with
      | false => exact (hdata hs).2 (h.1 hs)
      | true => exact hleave hs hd trivial
    · cases c with
      | again => exact ⟨h.2.1, fun hp => (hdata (h.2.2 hp)).1⟩
      | loadRuns | loadFdRef => trivial
      | loadPipeRef => exact h.2
  | returned =>
    simp only [hr] at h ⊢
    intro hi hn
    obtain ⟨hs, hempty⟩ := h hi hn
    exact ⟨(hdata hs).1, (hdata hs).2 hempty⟩
  | _ => trivial

/-- As long as the writer maps the pipe, it may do anything to it. -/
theorem EndKnows.of_mapped (h : s.EndKnows) (hreader : t.reader = s.reader)
    (hs : s.writeEnd.data = true) (ht : t.writeEnd.data = true) : t.EndKnows := by
  refine h.of_writer hreader (fun hd => ?_) (fun _ hd => ?_)
  · rw [hs] at hd
    cases hd
  · rw [ht] at hd
    cases hd

theorem Ended.writerStep (h : s.Ended) (hcalm : s.Calm .writer) (hstep : s.writerStep = some t) :
    t.Ended := by
  have hfifo := h.fifo.writerStep hstep
  have hmaps := h.writerMaps
  unfold WriterMaps at hmaps
  unfold Calm writerLeaves at hcalm
  unfold Pipe.writerStep at hstep
  -- while the pipe stays mapped nothing else matters
  have hkeep : t.reader = s.reader → t.readEnd = s.readEnd → s.writeEnd.data = true →
      t.writeEnd.data = true → t.WriterMaps → t.Ended := by
    intro hr he hs ht hw
    refine ⟨hfifo, ?_, hw, h.knows.of_mapped hr hs ht⟩
    have hold := h.readerMaps
    unfold ReaderMaps at hold ⊢
    rw [hr, he]
    exact hold
  cases hw : s.writer <;> simp only [hw] at hstep hmaps hcalm
  case start | returned | closed => cases hstep
  case test | index | put | bump =>
    cases hstep
    exact hkeep rfl rfl hmaps hmaps hmaps
  case testRpos => split at hstep <;> cases hstep <;> exact hkeep rfl rfl hmaps hmaps hmaps
  case check =>
    split at hstep
    · cases hstep
      exact hkeep rfl rfl hmaps hmaps hmaps
    · split at hstep <;> cases hstep <;> exact hkeep rfl rfl hmaps hmaps hmaps
  case store i b rest wpos =>
    cases hstep
    cases rest with
    | nil | cons => exact hkeep rfl rfl hmaps hmaps hmaps
  case unmapFd =>
    cases hstep
    exact hkeep rfl rfl hmaps hmaps ⟨rfl, hmaps⟩
  case unmapData =>
    cases hstep
    refine ⟨hfifo, h.readerMaps, ⟨hmaps.1, rfl⟩, h.knows.of_writer rfl (fun hd => ?_) ?_⟩
    · rw [hmaps.2] at hd
      cases hd
    · exact fun _ _ hchecks => hcalm trivial hchecks
  case unmapFdAgain =>
    cases hstep
    refine ⟨hfifo, h.readerMaps, ⟨rfl, hmaps.2⟩, h.knows.of_writer rfl ?_ (fun hd => ?_)⟩
    · exact fun hd => ⟨hd, fun he => he⟩
    · rw [hmaps.2] at hd
      cases hd

/-- Outside a call the writer maps the pipe. -/
theorem data_of_writerFree (h : s.WriterMaps) (hfree : s.writerFree = true) :
    s.writeEnd.data = true := by
  unfold WriterMaps at h
  unfold writerFree at hfree
  split at hfree <;> simp_all

theorem maps_of_readerFree (h : s.ReaderMaps) (hfree : s.readerFree = true) :
    s.readEnd.fd = true ∧ s.readEnd.data = true := by
  unfold ReaderMaps at h
  unfold readerFree at hfree
  split at hfree
  · next hr =>
    simp only [hr] at h
    exact h
  · next hr =>
    simp only [hr] at h
    exact h
  · cases hfree

theorem Ended.step (h : s.Ended) (hcalm : s.Calm a) (hstep : s.step a = some t) : t.Ended := by
  have hfifo := h.fifo.step hstep
  cases a with
  | read n =>
    obtain ⟨hfree, hstep⟩ := Option.ite_none_right_eq_some.mp hstep
    have hmaps := maps_of_readerFree h.readerMaps hfree
    cases hstep
    by_cases hn : 0 < n
    · simp only [readCall, if_pos hn] at hfifo ⊢
      exact ⟨hfifo, hmaps, h.writerMaps, trivial⟩
    · simp only [readCall, if_neg hn] at hfifo ⊢
      exact ⟨hfifo, hmaps, h.writerMaps, fun _ hpos => absurd hpos hn⟩
  | write bytes =>
    obtain ⟨hfree, hstep⟩ := Option.ite_none_right_eq_some.mp hstep
    have hdata := data_of_writerFree h.writerMaps hfree
    cases hstep
    cases bytes with
    | nil | cons => exact ⟨hfifo, h.readerMaps, hdata, h.knows.of_mapped rfl hdata hdata⟩
  | closeReader =>
    obtain ⟨_, hstep⟩ := Option.ite_none_right_eq_some.mp hstep
    cases hstep
    exact ⟨hfifo, trivial, h.writerMaps, trivial⟩
  | closeWriter =>
    obtain ⟨hfree, hstep⟩ := Option.ite_none_right_eq_some.mp hstep
    have hdata := data_of_writerFree h.writerMaps hfree
    cases hstep
    exact ⟨hfifo, h.readerMaps, hdata, h.knows.of_mapped rfl hdata hdata⟩
  | reader => exact h.readerStep hstep
  | writer => exact h.writerStep hcalm hstep
  | readerRuns | writerRuns =>
    cases hstep
    exact ⟨hfifo, h.readerMaps, h.writerMaps, h.knows⟩

theorem ended_of_calm (hreach : pipe.ReachableUnder Calm s) : s.Ended := by
  induction hreach with
  | init hinit =>
    have hfifo := fifo_of_reachable (.init hinit)
    obtain ⟨_, _, rfl⟩ := hinit
    exact ⟨hfifo, ⟨rfl, rfl⟩, rfl, trivial⟩
  | step _ _ hcalm hstep ih => exact ih.step hcalm hstep

theorem fd_of_data (h : s.WriterMaps) (hdata : s.writeEnd.data = false) :
    s.writeEnd.fd = false := by
  unfold WriterMaps at h
  split at h
  · exact h.1
  · exact h.1
  · exact h.1
  · rw [hdata] at h
    cases h

/-- If the writer does not close its end with bytes in the pipe while the reader
is between its two looks, `pipe_read` returns 0 only at the end. -/
theorem eof_of_calm (hreach : pipe.ReachableUnder Calm s) (hn : 0 < n)
    (hret : s.reader = .returned n 0) :
    (s.writeEnd.fd = false ∧ s.writeEnd.data = false) ∧ s.delivered = s.written := by
  have h := ended_of_calm hreach
  have hknows := h.knows
  unfold EndKnows at hknows
  simp only [hret] at hknows
  obtain ⟨hdata, hempty⟩ := hknows trivial hn
  refine ⟨⟨fd_of_data h.writerMaps hdata, hdata⟩, ?_⟩
  exact h.fifo.fromFront.eq_of_length ((h.fifo.holds.empty_iff size_lt).mp hempty)

/-- A byte is written and the end closed, the byte is read, and the next read
finds the end. -/
theorem eof_of_calm_one :
    ∃ s, pipe.ReachableUnder Calm s ∧ s.reader = .returned 1 0 ∧ s.written = [7] ∧
      s.delivered = s.written := by
  have hstart : pipe.ReachableUnder Calm (emptyPipe 0 0) := .init ⟨0, 0, rfl⟩
  obtain ⟨s, hs, hret, hw⟩ := Machine.exists_reachableUnder_of_exec
    (P := fun s : Pipe => s.reader = .returned 1 0 ∧ s.written = [7])
    (.write [7] :: List.replicate 6 .writer ++ .closeWriter :: List.replicate 3 .writer ++
      .read 1 :: List.replicate 6 .reader ++ .read 1 :: List.replicate 6 .reader)
    hstart (by decide +kernel)
  exact ⟨s, hs, hret, hw, (eof_of_calm hs Nat.one_pos hret).2⟩

/-- The reader finds the pipe empty; then the byte is written and the end closed;
then the reader finds the pipe closed and returns 0. -/
theorem prematureEof_reachable :
    ∃ s, pipe.Reachable s ∧ s.reader = .returned 1 0 ∧ s.written = [7] ∧ s.delivered = [] := by
  have hstart : pipe.Reachable (emptyPipe 0 0) := .init ⟨0, 0, rfl⟩
  obtain ⟨s, hs, hret, hw, hd⟩ := Machine.exists_reachableUnder_of_exec
    (P := fun s : Pipe => s.reader = .returned 1 0 ∧ s.written = [7] ∧ s.delivered = [])
    (.read 1 :: .reader :: .reader :: .write [7] :: List.replicate 6 .writer ++
      .closeWriter :: List.replicate 3 .writer ++ List.replicate 4 .reader)
    hstart (by decide +kernel)
  exact ⟨s, hs, hret, hw, hd⟩

end Pipe

end MosSmp.User
