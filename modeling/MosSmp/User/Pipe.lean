import MosSmp.Word
import MosSmp.Lib.Ring
import MosSmp.Lib.Transition

/-!
A pipe with one reader and one writer (`user/lib/pipe.c`). The two processes
share the page with `struct Pipe` and run at the same time or preempt each
other; every load and store of the counters and of the buffer, every look at a
page reference count or at `env_runs`, and every unmapping is a step. A process
calls `pipe_read` or `pipe_write` any number of times and then closes its end.

`written` and `delivered` are not part of the pipe: they record the bytes that
became visible in the pipe and the bytes that were taken out of it.
-/

namespace MosSmp.User

open Lib List

abbrev PIPE_SIZE : Nat := 32

abbrev Byte := BitVec 8

/-- Where `_pipe_is_closed` stands, with its local variables. -/
inductive Check
  | loadRuns
  | loadFdRef (runs : Word)
  | loadPipeRef (runs : Word) (fdRef : Nat)
  | again (runs : Word) (fdRef pipeRef : Nat)
  deriving DecidableEq

/-- The next state of `_pipe_is_closed`, or its result, when it reads these
values of `env_runs` and of the counts of the two pages. -/
def Check.step (envRuns : Word) (fd pipe : Nat) : Check → Check ⊕ Bool
  | .loadRuns => .inl (.loadFdRef envRuns)
  | .loadFdRef runs => .inl (.loadPipeRef runs fd)
  | .loadPipeRef runs fdRef => .inl (.again runs fdRef pipe)
  | .again runs fdRef pipeRef =>
    if runs ≠ envRuns then .inl .loadRuns else .inr (decide (fdRef = pipeRef))

/-- Where the reader stands. `test` is the condition of the inner loop of
`pipe_read(n)` after `i` bytes, `index` and `copy` the transfer of a byte, `bump`
and `store` the increment of `p_rpos`. -/
inductive Reader
  | start
  | returned (n i : Nat)
  | test (n i : Nat)
  | testWpos (n i : Nat) (rpos : Word)
  | check (n i : Nat) (c : Check)
  | index (n i : Nat)
  | copy (n i : Nat) (rpos : Word)
  | bump (n i : Nat) (b : Byte)
  | store (n i : Nat) (b : Byte) (rpos : Word)
  | unmapFd
  | unmapData
  | unmapFdAgain
  | closed
  deriving DecidableEq

/-- Where the writer stands, with the number `i` of bytes written, the next byte
`b` and those after it. -/
inductive Writer
  | start
  | returned (i : Nat)
  | test (i : Nat) (b : Byte) (rest : List Byte)
  | testRpos (i : Nat) (b : Byte) (rest : List Byte) (wpos : Word)
  | check (i : Nat) (b : Byte) (rest : List Byte) (c : Check)
  | index (i : Nat) (b : Byte) (rest : List Byte)
  | put (i : Nat) (b : Byte) (rest : List Byte) (wpos : Word)
  | bump (i : Nat) (b : Byte) (rest : List Byte)
  | store (i : Nat) (b : Byte) (rest : List Byte) (wpos : Word)
  | unmapFd
  | unmapData
  | unmapFdAgain
  | closed

/-- The mappings of one process, of its `Fd` and of the pipe, and its
`env_runs`. -/
structure PipeEnd where
  fd : Bool
  data : Bool
  runs : Word

structure Pipe where
  ring : Ring Byte 32 PIPE_SIZE
  reader : Reader
  writer : Writer
  readEnd : PipeEnd
  writeEnd : PipeEnd
  written : List Byte
  delivered : List Byte

/-- What the two processes do. `readerRuns` and `writerRuns` are returns from
preemption or from `syscall_yield`. -/
inductive PipeAct
  | read (n : Nat)
  | write (bytes : List Byte)
  | closeReader
  | closeWriter
  | reader
  | writer
  | readerRuns
  | writerRuns

namespace Pipe

/-- `pp_ref` of the page of the pipe. -/
def dataRef (s : Pipe) : Nat :=
  s.readEnd.data.toNat + s.writeEnd.data.toNat

/-- `pageref` of a page that the process maps or not. -/
def pageref (mapped : Bool) (ppRef : Nat) : Nat :=
  if mapped then ppRef else 0

def readCall (s : Pipe) (n : Nat) : Pipe :=
  if 0 < n then { s with reader := .test n 0 } else { s with reader := .returned n 0 }

def writeCall (s : Pipe) : List Byte → Pipe
  | [] => { s with writer := .returned 0 }
  | b :: rest => { s with writer := .test 0 b rest }

/-- A step of the reader. Each load of `p_rpos` is a step of its own, as is the
load of the byte; `p->p_rpos++` is a load and a store. -/
def readerStep (s : Pipe) : Option Pipe :=
  match s.reader with
  | .start | .returned _ _ | .closed => none
  | .test n i => some { s with reader := .testWpos n i s.ring.rpos }
  | .testWpos n i rpos =>
    if rpos = s.ring.wpos then some { s with reader := .check n i .loadRuns }
    else some { s with reader := .index n i }
  | .check n i c =>
    match c.step s.readEnd.runs (pageref s.readEnd.fd s.readEnd.fd.toNat)
        (pageref s.readEnd.data s.dataRef) with
    | .inl c => some { s with reader := .check n i c }
    | .inr isClosed =>
      if isClosed = true ∨ 0 < i then some { s with reader := .returned n i }
      else some { s with reader := .test n i }
  | .index n i => some { s with reader := .copy n i s.ring.rpos }
  | .copy n i rpos => some { s with reader := .bump n i (s.ring.buf (Ring.cell rpos)) }
  | .bump n i b => some { s with reader := .store n i b s.ring.rpos }
  | .store n i b rpos => some { s with
      ring := { s.ring with rpos := rpos + 1 }
      delivered := s.delivered ++ [b]
      reader := if i + 1 < n then .test n (i + 1) else .returned n (i + 1) }
  | .unmapFd => some { s with readEnd := { s.readEnd with fd := false }, reader := .unmapData }
  | .unmapData =>
    some { s with readEnd := { s.readEnd with data := false }, reader := .unmapFdAgain }
  | .unmapFdAgain => some { s with readEnd := { s.readEnd with fd := false }, reader := .closed }

def writerStep (s : Pipe) : Option Pipe :=
  match s.writer with
  | .start | .returned _ | .closed => none
  | .test i b rest => some { s with writer := .testRpos i b rest s.ring.wpos }
  | .testRpos i b rest wpos =>
    if wpos - s.ring.rpos = BitVec.ofNat 32 PIPE_SIZE then
      some { s with writer := .check i b rest .loadRuns }
    else some { s with writer := .index i b rest }
  | .check i b rest c =>
    match c.step s.writeEnd.runs (pageref s.writeEnd.fd s.writeEnd.fd.toNat)
        (pageref s.writeEnd.data s.dataRef) with
    | .inl c => some { s with writer := .check i b rest c }
    | .inr isClosed =>
      if isClosed = true then some { s with writer := .returned i }
      else some { s with writer := .test i b rest }
  | .index i b rest => some { s with writer := .put i b rest s.ring.wpos }
  | .put i b rest wpos => some { s with
      ring := { s.ring with buf := Function.update s.ring.buf (Ring.cell wpos) b }
      writer := .bump i b rest }
  | .bump i b rest => some { s with writer := .store i b rest s.ring.wpos }
  | .store i b rest wpos => some { s with
      ring := { s.ring with wpos := wpos + 1 }
      written := s.written ++ [b]
      writer := match rest with
        | [] => .returned (i + 1)
        | b' :: rest => .test (i + 1) b' rest }
  | .unmapFd => some { s with writeEnd := { s.writeEnd with fd := false }, writer := .unmapData }
  | .unmapData =>
    some { s with writeEnd := { s.writeEnd with data := false }, writer := .unmapFdAgain }
  | .unmapFdAgain => some { s with writeEnd := { s.writeEnd with fd := false }, writer := .closed }

/-- The reader is not in a call and has not closed its end. -/
def readerFree (s : Pipe) : Bool :=
  match s.reader with
  | .start | .returned _ _ => true
  | _ => false

def writerFree (s : Pipe) : Bool :=
  match s.writer with
  | .start | .returned _ => true
  | _ => false

def step (s : Pipe) : PipeAct → Option Pipe
  | .read n => if s.readerFree then some (s.readCall n) else none
  | .write bytes => if s.writerFree then some (s.writeCall bytes) else none
  | .closeReader => if s.readerFree then some { s with reader := .unmapFd } else none
  | .closeWriter => if s.writerFree then some { s with writer := .unmapFd } else none
  | .reader => s.readerStep
  | .writer => s.writerStep
  | .readerRuns => some { s with readEnd := { s.readEnd with runs := s.readEnd.runs + 1 } }
  | .writerRuns => some { s with writeEnd := { s.writeEnd with runs := s.writeEnd.runs + 1 } }

end Pipe

/-- The pipe after `pipe` and `fork`, when each process has closed the end of
the other. The page of the pipe is a new one, filled with zeros. -/
def emptyPipe (readerRuns writerRuns : Word) : Pipe where
  ring := ⟨0, 0, fun _ => 0⟩
  reader := .start
  writer := .start
  readEnd := ⟨true, true, readerRuns⟩
  writeEnd := ⟨true, true, writerRuns⟩
  written := []
  delivered := []

def pipe : Machine Pipe PipeAct where
  init s := ∃ readerRuns writerRuns, s = emptyPipe readerRuns writerRuns
  step := Pipe.step

namespace Pipe

variable {s t : Pipe} {a : PipeAct}

/-! ### The ring between the two -/

/-- There is a byte for the reader, and it is `b`. -/
def Next (s : Pipe) (b : Byte) : Prop :=
  s.written[s.delivered.length]? = some b

def Room (s : Pipe) : Prop :=
  s.written.length - s.delivered.length < PIPE_SIZE

/-- What the reader knows in its places. -/
def ReaderKnows (s : Pipe) : Prop :=
  match s.reader with
  | .testWpos _ _ rpos => rpos = s.ring.rpos
  | .index _ _ => ∃ b, s.Next b
  | .copy _ _ rpos => rpos = s.ring.rpos ∧ ∃ b, s.Next b
  | .bump _ _ b => s.Next b
  | .store _ _ b rpos => rpos = s.ring.rpos ∧ s.Next b
  | _ => True

/-- What the writer knows in its places: there is room, and from the store to
the buffer on the byte is in the next cell. -/
def WriterKnows (s : Pipe) : Prop :=
  match s.writer with
  | .testRpos _ _ _ wpos => wpos = s.ring.wpos
  | .index _ _ _ => s.Room
  | .put _ _ _ wpos => wpos = s.ring.wpos ∧ s.Room
  | .bump _ b _ => s.Room ∧ s.ring.buf (Ring.cell s.ring.wpos) = b
  | .store _ b _ wpos => wpos = s.ring.wpos ∧ s.Room ∧ s.ring.buf (Ring.cell s.ring.wpos) = b
  | _ => True

structure Fifo (s : Pipe) : Prop where
  holds : s.ring.Holds s.written s.delivered.length
  fromFront : s.delivered <+: s.written
  reader : s.ReaderKnows
  writer : s.WriterKnows

theorem size_dvd : PIPE_SIZE ∣ 2 ^ 32 := by decide

theorem size_lt : PIPE_SIZE < 2 ^ 32 := by decide

/-- A byte that the reader has not taken. -/
theorem next_of_ne (h : s.ring.Holds s.written s.delivered.length)
    (hne : s.ring.rpos ≠ s.ring.wpos) : ∃ b, s.Next b := by
  have hlt : s.delivered.length < s.written.length :=
    Nat.lt_of_le_of_ne h.le (fun heq => hne ((h.empty_iff size_lt).mpr heq))
  exact ⟨_, getElem?_eq_getElem hlt⟩

theorem room_of_ne (h : s.ring.Holds s.written s.delivered.length)
    (hne : s.ring.wpos - s.ring.rpos ≠ BitVec.ofNat 32 PIPE_SIZE) : s.Room := by
  have hcount := h.count_eq size_lt
  refine Nat.lt_of_le_of_ne h.fits (fun heq => hne ?_)
  apply BitVec.eq_of_toNat_eq
  exact hcount.trans heq

/-- The reader moves on without a store. -/
theorem Fifo.moveReader (h : s.Fifo) (r : Reader) (e : PipeEnd)
    (hknows : ReaderKnows { s with reader := r, readEnd := e }) :
    Fifo { s with reader := r, readEnd := e } :=
  ⟨h.holds, h.fromFront, hknows, h.writer⟩

theorem Fifo.moveWriter (h : s.Fifo) (w : Writer) (e : PipeEnd)
    (hknows : WriterKnows { s with writer := w, writeEnd := e }) :
    Fifo { s with writer := w, writeEnd := e } :=
  ⟨h.holds, h.fromFront, h.reader, hknows⟩

variable {b : Byte}

theorem concat_prefix {l l' : List Byte} (h : l <+: l') (hb : l'[l.length]? = some b) :
    l ++ [b] <+: l' := by
  obtain ⟨rest, rfl⟩ := h
  rw [getElem?_append_right (Nat.le_refl _), Nat.sub_self] at hb
  cases rest with
  | nil => cases hb
  | cons c rest =>
    cases hb
    exact ⟨rest, by simp⟩

/-- A byte leaves the pipe: for the writer there is only more room. -/
theorem Fifo.take (h : s.Fifo) (hb : s.Next b) (r : Reader) (hknows : ReaderKnows { s with
      ring := s.ring.drop, delivered := s.delivered ++ [b], reader := r }) :
    Fifo { s with ring := s.ring.drop, delivered := s.delivered ++ [b], reader := r } := by
  have hlt : s.delivered.length < s.written.length := (List.getElem?_eq_some_iff.mp hb).1
  have hlen : (s.delivered ++ [b]).length = s.delivered.length + 1 := length_append ..
  have hroom : s.Room → s.written.length - (s.delivered ++ [b]).length < PIPE_SIZE := by
    intro hroom
    unfold Room at hroom
    omega
  refine ⟨?_, concat_prefix h.fromFront hb, hknows, ?_⟩
  · rw [hlen]
    exact h.holds.drop hlt
  · have hwriter := h.writer
    unfold WriterKnows at hwriter ⊢
    cases hw : s.writer <;> simp only [hw] at hwriter ⊢
    case testRpos => exact hwriter
    case index => exact hroom hwriter
    case put => exact ⟨hwriter.1, hroom hwriter.2⟩
    case bump => exact ⟨hroom hwriter.1, hwriter.2⟩
    case store => exact ⟨hwriter.1, hroom hwriter.2.1, hwriter.2.2⟩

theorem Fifo.readerStep (h : s.Fifo) (hstep : s.readerStep = some t) : t.Fifo := by
  have hknows := h.reader
  unfold ReaderKnows at hknows
  unfold Pipe.readerStep at hstep
  cases hr : s.reader <;> simp only [hr] at hstep hknows
  case start | returned | closed => cases hstep
  case test n i =>
    cases hstep
    exact h.moveReader _ _ rfl
  case testWpos n i rpos =>
    split at hstep <;> cases hstep
    · exact h.moveReader _ _ trivial
    · next hne =>
      rw [hknows] at hne
      exact h.moveReader _ _ (next_of_ne h.holds hne)
  case check n i c =>
    split at hstep
    · cases hstep
      exact h.moveReader _ _ trivial
    · split at hstep <;> cases hstep <;> exact h.moveReader _ _ trivial
  case index | bump =>
    cases hstep
    exact h.moveReader _ _ ⟨rfl, hknows⟩
  case copy n i rpos =>
    obtain ⟨rfl, b, hb⟩ := hknows
    cases hstep
    refine h.moveReader _ _ ?_
    rw [h.holds.head size_dvd hb]
    exact hb
  case store n i b rpos =>
    obtain ⟨rfl, hb⟩ := hknows
    cases hstep
    refine h.take hb _ ?_
    unfold ReaderKnows
    by_cases hi : i + 1 < n <;> simp [hi]
  case unmapFd | unmapData | unmapFdAgain =>
    cases hstep
    exact h.moveReader _ _ trivial

theorem Next.append (h : s.Next b) (b' : Byte) :
    (s.written ++ [b'])[s.delivered.length]? = some b := by
  rw [List.getElem?_append_left (List.getElem?_eq_some_iff.mp h).1]
  exact h

/-- A byte becomes visible: the next one for the reader stays the same. -/
theorem Fifo.give (h : s.Fifo) (hroom : s.Room)
    (hb : s.ring.buf (Ring.cell s.ring.wpos) = b) (w : Writer)
    (hknows : WriterKnows { s with
      ring := s.ring.advance, written := s.written ++ [b], writer := w }) :
    Fifo { s with ring := s.ring.advance, written := s.written ++ [b], writer := w } := by
  refine ⟨h.holds.advance size_dvd hroom hb, h.fromFront.trans (prefix_append ..), ?_, hknows⟩
  have hreader := h.reader
  unfold ReaderKnows at hreader ⊢
  cases hr : s.reader <;> simp only [hr] at hreader ⊢
  case testWpos => exact hreader
  case index => exact hreader.imp (fun _ hc => hc.append b)
  case copy => exact ⟨hreader.1, hreader.2.imp (fun _ hc => hc.append b)⟩
  case bump => exact Next.append hreader b
  case store => exact ⟨hreader.1, Next.append hreader.2 b⟩

/-- A store to the buffer: the reader reads other cells. -/
theorem Fifo.fill (h : s.Fifo) (hroom : s.Room) (w : Writer)
    (hknows : WriterKnows { s with ring := s.ring.put b, writer := w }) :
    Fifo { s with ring := s.ring.put b, writer := w } :=
  ⟨h.holds.put size_dvd hroom b, h.fromFront, h.reader, hknows⟩

theorem Fifo.writerStep (h : s.Fifo) (hstep : s.writerStep = some t) : t.Fifo := by
  have hknows := h.writer
  unfold WriterKnows at hknows
  unfold Pipe.writerStep at hstep
  cases hw : s.writer <;> simp only [hw] at hstep hknows
  case start | returned | closed => cases hstep
  case test i b rest =>
    cases hstep
    exact h.moveWriter _ _ rfl
  case testRpos i b rest wpos =>
    split at hstep <;> cases hstep
    · exact h.moveWriter _ _ trivial
    · next hne =>
      rw [hknows] at hne
      exact h.moveWriter _ _ (room_of_ne h.holds hne)
  case check i b rest c =>
    split at hstep
    · cases hstep
      exact h.moveWriter _ _ trivial
    · split at hstep <;> cases hstep <;> exact h.moveWriter _ _ trivial
  case index | bump =>
    cases hstep
    exact h.moveWriter _ _ ⟨rfl, hknows⟩
  case put i b rest wpos =>
    obtain ⟨rfl, hroom⟩ := hknows
    cases hstep
    exact h.fill hroom _ ⟨hroom, Function.update_self ..⟩
  case store i b rest wpos =>
    obtain ⟨rfl, hroom, hb⟩ := hknows
    cases hstep
    cases rest with
    | nil | cons => exact h.give hroom hb _ trivial
  case unmapFd | unmapData | unmapFdAgain =>
    cases hstep
    exact h.moveWriter _ _ trivial

theorem Fifo.step (h : s.Fifo) (hstep : s.step a = some t) : t.Fifo := by
  cases a with
  | read =>
    obtain ⟨_, hstep⟩ := Option.ite_none_right_eq_some.mp hstep
    cases hstep
    unfold readCall
    split <;> exact h.moveReader _ _ trivial
  | write bytes =>
    obtain ⟨_, hstep⟩ := Option.ite_none_right_eq_some.mp hstep
    cases hstep
    cases bytes with
    | nil | cons => exact h.moveWriter _ _ trivial
  | closeReader =>
    obtain ⟨_, hstep⟩ := Option.ite_none_right_eq_some.mp hstep
    cases hstep
    exact h.moveReader _ _ trivial
  | closeWriter =>
    obtain ⟨_, hstep⟩ := Option.ite_none_right_eq_some.mp hstep
    cases hstep
    exact h.moveWriter _ _ trivial
  | reader => exact h.readerStep hstep
  | writer => exact h.writerStep hstep
  | readerRuns =>
    cases hstep
    exact h.moveReader _ _ h.reader
  | writerRuns =>
    cases hstep
    exact h.moveWriter _ _ h.writer

theorem fifo_of_reachable (hreach : pipe.Reachable s) : s.Fifo := by
  induction hreach with
  | init hinit =>
    obtain ⟨_, _, rfl⟩ := hinit
    exact ⟨Ring.holds_nil _, prefix_rfl, trivial, trivial⟩
  | step _ _ _ hstep ih => exact ih.step hstep

/-- The pipe is a bounded queue: at every moment the bytes delivered are the
first of those written, and the others, at most `PIPE_SIZE`, are what the
counters say. -/
theorem bounded_fifo (hreach : pipe.Reachable s) : (s.ring.wpos - s.ring.rpos).toNat ≤ PIPE_SIZE ∧
      s.delivered = s.written.take (s.written.length - (s.ring.wpos - s.ring.rpos).toNat) ∧
      s.delivered.length = s.written.length - (s.ring.wpos - s.ring.rpos).toNat := by
  have h := fifo_of_reachable hreach
  have hcount : (s.ring.wpos - s.ring.rpos).toNat = s.written.length - s.delivered.length :=
    h.holds.count_eq size_lt
  have hlen : s.written.length - (s.ring.wpos - s.ring.rpos).toNat = s.delivered.length := by
    have hle := h.holds.le
    omega
  refine ⟨h.holds.count_le size_lt, ?_, hlen.symm⟩
  rw [hlen]
  exact prefix_iff_eq_take.mp h.fromFront

/-- Two bytes are written and one of them is read. -/
theorem bounded_fifo_two : ∃ s, pipe.Reachable s ∧ s.written = [1, 2] ∧ s.delivered = [1] ∧
      s.delivered = s.written.take (s.written.length - (s.ring.wpos - s.ring.rpos).toNat) := by
  have hstart : pipe.Reachable (emptyPipe 0 0) := .init ⟨0, 0, rfl⟩
  obtain ⟨s, hs, hw, hd⟩ := Machine.exists_reachableUnder_of_exec
    (P := fun s : Pipe => s.written = [1, 2] ∧ s.delivered = [1])
    (.write [1, 2] :: replicate 12 .writer ++ .read 1 :: replicate 6 .reader)
    hstart (by decide +kernel)
  exact ⟨s, hs, hw, hd, (bounded_fifo hs).2.1⟩

end Pipe

end MosSmp.User
