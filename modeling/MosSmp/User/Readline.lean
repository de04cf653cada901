import Mathlib.Data.Int.ModEq
import Mathlib.Data.List.GetD
import Mathlib.Logic.Function.Basic

/-!
`readline` of the shell, over the memory around `buf`. A backspace moves the
index back and the same pass of the loop then looks at the byte there: with less
than two bytes of text that byte lies before the buffer.
-/

namespace MosSmp.Shell

open Function List

abbrev Byte := BitVec 8

/-- The memory by the offset from `buf`, the offsets that have been accessed, and
what has been echoed. -/
structure Line where
  buf : Int → Byte
  accessed : List Int
  echo : List Byte

inductive Outcome
  | line
  | tooLong
  | exit
  deriving DecidableEq

def isErase (b : Byte) : Bool := b = 0x08 || b = 0x7f

def isEnd (b : Byte) : Bool := b = 0x0d || b = 0x0a

namespace Line

def store (s : Line) (i : Int) (b : Byte) : Line :=
  { s with buf := update s.buf i b, accessed := i :: s.accessed }

/-- The body of the loop up to the test for a line end: the byte that `read` has
stored, and the index that a backspace leaves. -/
def take (s : Line) (i : Int) (b : Byte) : Line × Int :=
  let s := s.store i b
  if isErase b then
    let j := if 0 < i then i - 2 else -1
    ({ s with
      accessed := j :: s.accessed
      echo := if s.buf j ≠ 0x08 then s.echo ++ [0x08] else s.echo }, j)
  else (s, i)

/-- The rest of a line that was too long is read into `buf[0]`. -/
def skip (s : Line) : List Byte → Line
  | [] => s.store 0 0
  | b :: rest => if isEnd b then (s.store 0 b).store 0 0 else (s.store 0 b).skip rest

/-- The loop of `readline` at index `i`, which counts as an `int` and is compared as a
`u_int`. Where the input ends, `read` fails. -/
def readFrom (n : Nat) (s : Line) (i : Int) : List Byte → Outcome × Line
  | [] => if i % 2 ^ 32 < n then (.exit, s) else (.tooLong, s.skip [])
  | b :: rest =>
    if i % 2 ^ 32 < n then
      let (s, j) := s.take i b
      let s := { s with accessed := j :: s.accessed }
      if isEnd (s.buf j) then (.line, s.store j 0) else
        readFrom n s ((j + 1).bmod (2 ^ 32)) rest
    else (.tooLong, s.skip (b :: rest))

end Line

def readline (buf : Int → Byte) (n : Nat) (input : List Byte) : Outcome × Line :=
  Line.readFrom n ⟨buf, [], []⟩ 0 input

/-- The text after one more key. -/
def press (text : List Byte) (b : Byte) : List Byte :=
  if isErase b then text.dropLast else text ++ [b]

/-- The text at the line end, if there is one before the text fills the buffer. -/
def edited (n : Nat) (text : List Byte) : List Byte → Option (List Byte)
  | [] => none
  | b :: rest =>
    if n ≤ text.length then none
    else if isEnd b then some text
    else edited n (press text b) rest

/-- Up to there every backspace finds two bytes of text, and no key finds more text
than an `int` counts. -/
def Careful (n : Nat) (text : List Byte) : List Byte → Prop
  | [] => True
  | b :: rest => text.length < n → text.length < 2 ^ 31 ∧ (isEnd b = false →
      (isErase b = true → 2 ≤ text.length) ∧ Careful n (press text b) rest)

/-- The buffer starts with the text. -/
def Line.Starts (s : Line) (text : List Byte) : Prop :=
  ∀ (k : Nat) (b : Byte), text[k]? = some b → s.buf k = b

/-- What the loop should do from there: it stays in the buffer and, if the line ends
in time, leaves the edited text there. -/
def Edits (n : Nat) (text input : List Byte) (r : Outcome × Line) : Prop :=
  (∀ a ∈ r.2.accessed, 0 ≤ a ∧ a < n) ∧
    ∀ t, edited n text input = some t → r.1 = .line ∧ r.2.Starts (t ++ [0])

/-- The loop is at index `i` with the text in the buffer. -/
structure Typed (n : Nat) (text : List Byte) (s : Line) (i : Int) : Prop where
  index : i = (text.length : Int).bmod (2 ^ 32)
  small : text.length ≤ 2 ^ 31
  fits : text.length ≤ n
  bytes : s.Starts text
  plain : ∀ b ∈ text, isEnd b = false
  inside : ∀ a ∈ s.accessed, 0 ≤ a ∧ a < n

variable {n : Nat} {i : Int} {s : Line} {text input : List Byte} {b : Byte}

theorem Typed.index_eq (h : Typed n text s i) (hint : text.length < 2 ^ 31) :
    i = text.length := by
  rw [h.index, Int.bmod_def]
  omega

/-- A store at the index leaves the text alone. -/
theorem Typed.store (h : Typed n text s i) (hi : i = text.length) {k : Nat} {c : Byte}
    (hk : text[k]? = some c) (b : Byte) : (s.store i b).buf k = c := by
  have hlt : k < text.length := (List.getElem?_eq_some_iff.mp hk).1
  have hne : (k : Int) ≠ i := by omega
  exact (update_of_ne hne _ _).trans (h.bytes k c hk)

/-- One pass over a key that is not a line end: the byte at the index is not one
either, and the next index is the length of the text. -/
theorem Typed.take (h : Typed n text s i) (hlt : text.length < n) (hint : text.length < 2 ^ 31)
    (hend : isEnd b = false) (htwo : isErase b = true → 2 ≤ text.length) :
    isEnd ((s.take i b).1.buf (s.take i b).2) = false ∧
      Typed n (press text b) { (s.take i b).1 with
        accessed := (s.take i b).2 :: (s.take i b).1.accessed }
        (((s.take i b).2 + 1).bmod (2 ^ 32)) := by
  have hi := h.index_eq hint
  unfold Line.take press
  cases hb : isErase b with
  | false =>
    have hbuf : (s.store i b).buf i = b := update_self ..
    refine ⟨by simpa [hbuf] using hend, by simp [hi], by simp; omega, by simp; omega,
      fun k c hk => ?_, ?_, ?_⟩
    · rw [if_neg (by simp), getElem?_append] at hk
      split at hk
      · exact h.store hi hk b
      · obtain ⟨hk0, rfl⟩ : k - text.length = 0 ∧ b = c := by
          simpa [getElem?_singleton] using hk
        obtain rfl : (k : Int) = i := by omega
        exact hbuf
    · simpa [or_imp, forall_and] using ⟨h.plain, hend⟩
    · have hin : 0 ≤ i ∧ i < n := by omega
      simpa [Line.store, hin] using h.inside
  | true =>
    have htwo := htwo hb
    have hj : (if 0 < i then i - 2 else -1) = ((text.length - 2 : Nat) : Int) := by
      rw [if_pos (by omega)]
      omega
    have hlen : ((text.length - 2 : Nat) : Int) + 1 = (text.dropLast.length : Int) := by
      rw [length_dropLast]
      omega
    simp only [if_true, hj]
    refine ⟨?_, congrArg (Int.bmod · _) hlen, ?_, ?_, fun k c hk => ?_,
      fun c hc => h.plain c (dropLast_subset text hc), ?_⟩
    · rw [h.store hi (getElem?_eq_getElem (by omega))]
      exact h.plain _ (getElem_mem _)
    · rw [length_dropLast]
      omega
    · rw [length_dropLast]
      omega
    · rw [getElem?_dropLast] at hk
      split at hk
      · exact h.store hi hk b
      · cases hk
    · have hin : 0 ≤ i ∧ i < n := by omega
      have hback : text.length - 2 < n := by omega
      simpa [Line.store, hin, hback] using h.inside

/-- What has been accessed stays recorded. -/
theorem accessed_skip (input : List Byte) {s : Line} {a : Int} (ha : a ∈ s.accessed) :
    a ∈ (s.skip input).accessed := by
  induction input generalizing s with
  | nil => exact mem_cons_of_mem _ ha
  | cons b rest ih =>
    unfold Line.skip
    split
    · exact mem_cons_of_mem _ (mem_cons_of_mem _ ha)
    · exact ih (mem_cons_of_mem _ ha)

theorem accessed_take {a : Int} (ha : a ∈ s.accessed) : a ∈ (s.take i b).1.accessed := by
  unfold Line.take
  split <;> simp [Line.store, ha]

theorem accessed_readFrom (input : List Byte) {s : Line} {i a : Int} (ha : a ∈ s.accessed) :
    a ∈ (Line.readFrom n s i input).2.accessed := by
  induction input generalizing s i with
  | nil =>
    unfold Line.readFrom
    split
    · exact ha
    · exact accessed_skip [] ha
  | cons b rest ih =>
    have htake := mem_cons_of_mem (s.take i b).2 (accessed_take (i := i) (b := b) ha)
    unfold Line.readFrom
    split
    · dsimp only
      split
      · exact mem_cons_of_mem _ htake
      · exact ih htake
    · exact accessed_skip _ ha

/-- A key is stored at the index, and the byte is looked at where a backspace
leaves it. -/
theorem accessed_pass (rest : List Byte) (hlt : i % 2 ^ 32 < n) :
    i ∈ (Line.readFrom n s i (b :: rest)).2.accessed ∧
      (s.take i b).2 ∈ (Line.readFrom n s i (b :: rest)).2.accessed := by
  have hall : ∀ a ∈ (s.take i b).2 :: (s.take i b).1.accessed,
      a ∈ (Line.readFrom n s i (b :: rest)).2.accessed := by
    intro a ha
    unfold Line.readFrom
    rw [if_pos hlt]
    dsimp only
    split
    · exact mem_cons_of_mem _ ha
    · exact accessed_readFrom rest ha
  refine ⟨hall i (mem_cons_of_mem _ ?_), hall _ mem_cons_self⟩
  unfold Line.take
  split <;> simp [Line.store]

theorem inside_skip (hn : 0 < n) (input : List Byte) {s : Line}
    (h : ∀ a ∈ s.accessed, 0 ≤ a ∧ a < n) : ∀ a ∈ (s.skip input).accessed, 0 ≤ a ∧ a < n := by
  induction input generalizing s with
  | nil => simpa [Line.skip, Line.store, hn] using h
  | cons b rest ih =>
    unfold Line.skip
    split
    · simpa [Line.store, hn] using h
    · exact ih (by simpa [Line.store, hn] using h)

/-- A line end is no backspace, so the byte at the index is the line end. -/
theorem Typed.ends (h : Typed n text s i) (hi : i = text.length) (hlt : text.length < n)
    (hend : isEnd b = true) (rest : List Byte) :
    Edits n text (b :: rest) (Line.readFrom n s i (b :: rest)) := by
  have hin : 0 ≤ i ∧ i < n := by omega
  have hb : isErase b = false := by
    rcases (Bool.or_eq_true ..).mp hend with hb | hb <;> rw [of_decide_eq_true hb] <;> rfl
  have hbuf : (s.store i b).buf i = b := update_self ..
  unfold Edits Line.readFrom edited
  rw [if_pos (by omega), if_neg (by omega)]
  simp only [Line.take, hb, Bool.false_eq_true, if_false, hbuf, hend, if_true]
  refine ⟨by simpa [Line.store, hin] using h.inside, ?_⟩
  rintro _ ⟨rfl⟩
  refine ⟨trivial, fun k c hk => ?_⟩
  rw [getElem?_append] at hk
  split at hk
  · next hk' =>
    have hne : (k : Int) ≠ i := by omega
    exact (update_of_ne hne _ _).trans (h.store hi hk b)
  · obtain ⟨hk0, rfl⟩ : k - text.length = 0 ∧ 0 = c := by
      simpa [getElem?_singleton] using hk
    obtain rfl : (k : Int) = i := by omega
    exact update_self ..

/-- The loop, by induction on the input. -/
theorem Typed.readFrom (hn : 0 < n) (hint : n < 2 ^ 32) (h : Typed n text s i) :
    Edits n text input (Line.readFrom n s i input) ↔ Careful n text input := by
  induction input generalizing text s i with
  | nil =>
    refine iff_of_true ⟨?_, nofun⟩ trivial
    unfold Line.readFrom
    split
    · exact h.inside
    · exact inside_skip hn [] h.inside
  | cons b rest ih =>
    have hidx := h.index
    have hsmall := h.small
    have hfits := h.fits
    rw [Int.bmod_def] at hidx
    unfold Careful
    by_cases hfull : n ≤ text.length
    · refine iff_of_true ?_ (fun hlt => absurd hlt (by omega))
      unfold Edits Line.readFrom edited
      rw [if_neg (by omega), if_pos hfull]
      exact ⟨inside_skip hn _ h.inside, nofun⟩
    obtain ⟨hstored, hlooked⟩ := accessed_pass (s := s) (b := b) rest (i := i) (n := n) (by omega)
    by_cases hlarge : 2 ^ 31 ≤ text.length
    · -- the index has wrapped around
      refine iff_of_false (fun hedits => ?_) (fun hcare => absurd (hcare (by omega)).1 (by omega))
      have hin := hedits.1 i hstored
      omega
    have hi := h.index_eq (by omega)
    cases hend : isEnd b with
    | true =>
      exact iff_of_true (h.ends hi (by omega) hend rest) (fun _ => ⟨by omega, nofun⟩)
    | false =>
      by_cases htwo : isErase b = true → 2 ≤ text.length
      · obtain ⟨hlook, hnext⟩ := h.take (by omega) (by omega) hend htwo
        have hedited : edited n text (b :: rest) = edited n (press text b) rest := by
          simp [edited, hfull, hend]
        unfold Edits
        rw [hedited, Line.readFrom, if_pos (by omega)]
        simp only [hlook, Bool.false_eq_true, if_false]
        exact (ih hnext).trans ⟨fun hcare _ => ⟨by omega, fun _ => ⟨htwo, hcare⟩⟩,
          fun hcare => ((hcare (by omega)).2 trivial).2⟩
      · -- the backspace looks at the byte before the buffer
        obtain ⟨hb, hshort⟩ := Classical.not_imp.mp htwo
        refine iff_of_false (fun hedits => ?_)
          (fun hcare => htwo ((hcare (by omega)).2 rfl).1)
        have hback := hedits.1 _ hlooked
        have hj : (s.take i b).2 = -1 := by
          simp only [Line.take, hb, if_true]
          split <;> omega
        omega

/-- `readline` stays in its buffer and leaves the edited text there exactly if
every backspace finds two bytes of text and the text stays in the range of the
index. -/
theorem readline_edits (hn : 2 ≤ n) (hint : n < 2 ^ 32) (buf : Int → Byte) (input : List Byte) :
    Edits n [] input (readline buf n input) ↔ Careful n [] input :=
  Typed.readFrom (by omega) hint ⟨rfl, Nat.zero_le _, Nat.zero_le n, nofun, nofun, nofun⟩

/-- The line `abc`, a backspace, `d`. -/
theorem readline_edits_abd : (readline (fun _ => 0) 1024 [97, 98, 99, 8, 100, 10]).1 = .line ∧
      (readline (fun _ => 0) 1024 [97, 98, 99, 8, 100, 10]).2.Starts [97, 98, 100, 0] :=
  ((readline_edits (by decide) (by decide) _ _).mpr (by simp [Careful, press, isErase])).2
    [97, 98, 100] (by decide)

/-- A backspace at the start of a line looks at the byte before the buffer, and if
that is a line end the call returns at once, with the backspace for a text. -/
theorem leadingBackspace_outside : ∃ buf, (-1) ∈ (readline buf 1024 [8, 97, 10]).2.accessed ∧
      edited 1024 [] [8, 97, 10] = some [97] ∧ (readline buf 1024 [8, 97, 10]).1 = .line ∧
      (readline buf 1024 [8, 97, 10]).2.buf 0 = 8 := by
  refine ⟨fun _ => 10, ?_⟩
  decide

end MosSmp.Shell
