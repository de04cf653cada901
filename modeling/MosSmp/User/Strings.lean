import Mathlib.Logic.Function.Basic
import Mathlib.Tactic.IntervalCases

/-!
`memcpy` and `memset` over a memory of bytes with 32-bit addresses. Both align the
destination, go on word by word and finish byte by byte. The bound of the word loop,
`dst + 4 <= max`, wraps around at the top of the address space.
-/

namespace MosSmp.Strings

open Function Nat Option

abbrev Byte := Fin 256

/-- The bytes by their address. -/
abbrev Mem := Nat → Byte

/-- The byte order of a word. -/
inductive Order
  | little
  | big

def Order.shift : Order → Nat → Nat
  | .little, k => 8 * k
  | .big, k => 8 * (3 - k)

/-- Byte `k` of a word in memory. -/
def byteOf (o : Order) (w k : Nat) : Byte := Fin.ofNat 256 (w / 2 ^ o.shift k)

def loadWord (o : Order) (m : Mem) (a : Nat) : Nat :=
  (m a).val * 2 ^ o.shift 0 + (m (a + 1)).val * 2 ^ o.shift 1 +
    (m (a + 2)).val * 2 ^ o.shift 2 + (m (a + 3)).val * 2 ^ o.shift 3

def storeWord (o : Order) (m : Mem) (a w : Nat) : Mem :=
  fun q => if a ≤ q ∧ q < a + 4 then byteOf o w (q - a) else m q

/-- What is stored: the memory at `src`, or the low byte of `c`. -/
inductive Source
  | copy (src : Nat)
  | fill (c : BitVec 32)

namespace Source

def byte (m : Mem) (i : Nat) : Source → Byte
  | .copy src => m ((src + i) % 2 ^ 32)
  | .fill c => Fin.ofNat 256 c.toNat

def word (o : Order) (m : Mem) (i : Nat) : Source → Nat
  | .copy src => loadWord o m ((src + i) % 2 ^ 32)
  | .fill c =>
    let b := c.toNat % 256
    b ||| b <<< 8 ||| b <<< 16 ||| b <<< 24

/-- The word accesses of one pass are aligned. -/
def aligned (dst i : Nat) : Source → Bool
  | .copy src => (src + i) % 2 ^ 32 % 4 = 0 && (dst + i) % 2 ^ 32 % 4 = 0
  | .fill _ => (dst + i) % 2 ^ 32 % 4 = 0

end Source

/-- The memory, and whether all word accesses so far were aligned. -/
structure Run where
  mem : Mem
  aligned : Bool

section Source

variable (o : Order) (x : Source) (dst : Nat)

/-- A loop that stores bytes while `guard` holds, from index `i` on. -/
def bytesWhile (guard : Nat → Bool) : Nat → Nat → Run → Option (Nat × Run)
  | 0, _, _ => none
  | fuel + 1, i, r =>
    if guard i then
      bytesWhile guard fuel (i + 1)
        { r with mem := update r.mem ((dst + i) % 2 ^ 32) (x.byte r.mem i) }
    else some (i, r)

def wordsWhile (max : Nat) : Nat → Nat → Run → Option (Nat × Run)
  | 0, _, _ => none
  | fuel + 1, i, r =>
    if (dst + i + 4) % 2 ^ 32 ≤ max then
      wordsWhile max fuel (i + 4)
        ⟨storeWord o r.mem ((dst + i) % 2 ^ 32) (x.word o r.mem i),
          r.aligned && x.aligned dst i⟩
    else some (i, r)

/-- `dst < max` after `i` bytes. -/
def below (n i : Nat) : Bool := (dst + i) % 2 ^ 32 < (dst + n) % 2 ^ 32

/-- The bytes up to the first word. -/
def head (n i : Nat) : Bool := (dst + i) % 2 ^ 32 % 4 ≠ 0 && below dst n i

def byWords (n fuel : Nat) (m : Mem) : Option Run := do
  let (i, r) ← bytesWhile x dst (head dst n) fuel 0 ⟨m, true⟩
  let (i, r) ← wordsWhile o x dst ((dst + n) % 2 ^ 32) fuel i r
  let (_, r) ← bytesWhile x dst (below dst n) fuel i r
  return r

def memset (c : BitVec 32) (n fuel : Nat) (m : Mem) : Option (Nat × Run) := do
  let r ← byWords o (.fill c) dst n fuel m
  return (dst, r)

def memcpy (src n fuel : Nat) (m : Mem) : Option (Nat × Run) := do
  if src % 4 ≠ dst % 4 then
    let (_, r) ← bytesWhile (.copy src) dst (below dst n) fuel 0 ⟨m, true⟩
    return (dst, r)
  else
    let r ← byWords o (.copy src) dst n fuel m
    return (dst, r)

end Source

/-- What the plain byte loop leaves after `n` bytes. -/
def plain (x : Source) (dst n : Nat) (m : Mem) : Mem :=
  fun a => if dst ≤ a ∧ a < dst + n then x.byte m (a - dst) else m a

/-- The source does not wrap around or meet the destination. -/
def Source.Apart (dst n : Nat) : Source → Prop
  | .copy src => src + n ≤ 2 ^ 32 ∧ (src + n ≤ dst ∨ dst + n ≤ src)
  | .fill _ => True

/-- Words of both are aligned together. -/
def Source.Aligned (dst : Nat) : Source → Prop
  | .copy src => src % 4 = dst % 4
  | .fill _ => True

theorem byteOf_loadWord (o : Order) (m : Mem) (a : Nat) {k : Nat} (hk : k < 4) :
    byteOf o (loadWord o m a) k = m (a + k) := by
  apply Fin.ext
  unfold byteOf loadWord
  interval_cases k <;> cases o <;> simp only [Fin.ofNat, Order.shift] <;> norm_num <;> omega

theorem byteOf_broadcast : ∀ (o : Order) (b : Fin 256) (k : Fin 4),
    byteOf o (b.val ||| b.val <<< 8 ||| b.val <<< 16 ||| b.val <<< 24) k.val = b := by
  intro o
  cases o <;> decide +kernel

variable {o : Order} {x : Source} {dst n : Nat} {m : Mem}

theorem plain_zero (x : Source) (dst : Nat) (m : Mem) : plain x dst 0 m = m := by
  funext a
  exact if_neg (by omega)

/-- The bytes still to be read are as they were. -/
theorem byte_plain (happart : x.Apart dst n) {i j : Nat} (hi : i ≤ n) (hj : j < n) :
    x.byte (plain x dst i m) j = x.byte m j := by
  cases x with
  | fill => rfl
  | copy src =>
    obtain ⟨hsrc, hor⟩ := happart
    refine if_neg ?_
    omega

theorem aligned_pass (halign : x.Aligned dst) {i : Nat} (hdst : (dst + i) % 4 = 0) :
    x.aligned dst i = true := by
  cases x with
  | fill => exact decide_eq_true (by omega)
  | copy src =>
    have hsrc : src % 4 = dst % 4 := halign
    exact Bool.and_eq_true_iff.mpr ⟨decide_eq_true (by omega), decide_eq_true (by omega)⟩

section

variable (hfit : dst + n ≤ 2 ^ 32) (happart : x.Apart dst n)
include hfit happart

theorem plain_succ {i : Nat} (hi : i < n) :
    update (plain x dst i m) ((dst + i) % 2 ^ 32) (x.byte (plain x dst i m) i) =
      plain x dst (i + 1) m := by
  rw [byte_plain happart hi.le hi, mod_eq_of_lt (by omega)]
  funext a
  unfold plain
  by_cases ha : a = dst + i
  · rw [ha, update_self, if_pos (by omega), Nat.add_sub_cancel_left]
  · rw [update_of_ne ha]
    exact if_congr (by omega) rfl rfl

theorem byteOf_word (o : Order) {i k : Nat} (hi : i + 4 ≤ n) (hk : k < 4) :
    byteOf o (x.word o (plain x dst i m) i) k = x.byte m (i + k) := by
  rw [← byte_plain happart (by omega : i ≤ n) (by omega : i + k < n)]
  cases x with
  | fill c => exact byteOf_broadcast o (Fin.ofNat 256 c.toNat) ⟨k, hk⟩
  | copy src =>
    obtain ⟨hsrc, _⟩ := happart
    refine (byteOf_loadWord o _ _ hk).trans (congrArg _ ?_)
    omega

theorem plain_word (o : Order) {i : Nat} (hi : i + 4 ≤ n) :
    storeWord o (plain x dst i m) ((dst + i) % 2 ^ 32) (x.word o (plain x dst i m) i) =
      plain x dst (i + 4) m := by
  rw [mod_eq_of_lt (by omega)]
  funext a
  unfold storeWord
  split
  · next ha =>
    rw [byteOf_word hfit happart o hi (by omega)]
    unfold plain
    rw [if_pos (by omega)]
    congr 1
    omega
  · unfold plain
    exact if_congr (by omega) rfl rfl

theorem bytesWhile_plain (guard : Nat → Bool) (hguard : ∀ i ≤ n, guard i = true → i < n)
    (fuel i : Nat) (hi : i ≤ n) (hfuel : n < i + fuel) :
    ∃ j ≤ n, guard j = false ∧ bytesWhile x dst guard fuel i ⟨plain x dst i m, true⟩ =
      some (j, ⟨plain x dst j m, true⟩) := by
  induction fuel generalizing i with
  | zero => omega
  | succ fuel ih =>
    unfold bytesWhile
    split
    · next hg =>
      rw [plain_succ hfit happart (hguard i hi hg)]
      exact ih (i + 1) (hguard i hi hg) (by omega)
    · next hg => exact ⟨i, hi, Bool.not_eq_true _ ▸ hg, rfl⟩

theorem wordsWhile_plain (hbelow : dst + n + 4 < 2 ^ 32) (halign : x.Aligned dst) (fuel i : Nat)
    (hi : i ≤ n) (hfuel : n < i + fuel) (hword : i < n → (dst + i) % 4 = 0) :
    ∃ j ≤ n, wordsWhile o x dst ((dst + n) % 2 ^ 32) fuel i ⟨plain x dst i m, true⟩ =
      some (j, ⟨plain x dst j m, true⟩) := by
  induction fuel generalizing i with
  | zero => omega
  | succ fuel ih =>
    unfold wordsWhile
    split
    · have hdst := hword (by omega)
      rw [plain_word hfit happart o (by omega), aligned_pass halign hdst]
      exact ih (i + 4) (by omega) (by omega) (fun _ => by omega)
    · exact ⟨i, hi, rfl⟩

end

section

variable (hmax : dst + n < 2 ^ 32)
include hmax

theorem below_iff {i : Nat} (hi : i ≤ n) : below dst n i = true ↔ i < n := by
  unfold below
  rw [decide_eq_true_iff]
  omega

/-- The loop over the remaining bytes. -/
theorem bytesWhile_rest (happart : x.Apart dst n) (fuel i : Nat) (hi : i ≤ n)
    (hfuel : n < i + fuel) :
    bytesWhile x dst (below dst n) fuel i ⟨plain x dst i m, true⟩ =
      some (n, ⟨plain x dst n m, true⟩) := by
  obtain ⟨j, hj, hend, hrun⟩ := bytesWhile_plain hmax.le happart (m := m) (below dst n)
    (fun i hi => (below_iff hmax hi).mp) fuel i hi hfuel
  obtain rfl : j = n := by
    have hnot := mt (below_iff hmax hj).mpr
    rw [hend] at hnot
    have := hnot nofun
    omega
  exact hrun

theorem head_lt {i : Nat} (hi : i ≤ n) (hg : head dst n i = true) : i < n :=
  (below_iff hmax hi).mp (Bool.and_eq_true_iff.mp hg).2

theorem head_end {i : Nat} (hi : i ≤ n) (hg : head dst n i = false) :
    (dst + i) % 4 = 0 ∨ i = n := by
  by_cases hlt : i < n
  · simp [head, (below_iff hmax hi).mpr hlt] at hg
    omega
  · omega

end

/-- The ranges on which the word loop ends in time: those that end below the last
word of the address space, and that word. -/
def Fits (dst n : Nat) : Prop :=
  dst + n + 4 < 2 ^ 32 ∨ dst + 4 = 2 ^ 32 ∧ n = 4

theorem byWords_plain (hfit : Fits dst n) (happart : x.Apart dst n) (halign : x.Aligned dst)
    (m : Mem) : ∃ fuel, byWords o x dst n fuel m = some ⟨plain x dst n m, true⟩ := by
  rcases hfit with hbelow | ⟨htop, rfl⟩
  · have hmax : dst + n < 2 ^ 32 := by omega
    refine ⟨n + 1, ?_⟩
    obtain ⟨i, hi, hend, hone⟩ := bytesWhile_plain hmax.le happart (m := m) (head dst n)
      (fun i => head_lt hmax) (n + 1) 0 (by omega) (by omega)
    obtain ⟨j, hj, htwo⟩ := wordsWhile_plain (o := o) hmax.le happart hbelow halign (m := m)
      (n + 1) i hi (by omega) (fun hlt => (head_end hmax hi hend).resolve_right hlt.ne)
    rw [plain_zero] at hone
    unfold byWords
    simp only [hone, htwo, bytesWhile_rest hmax happart (n + 1) j hj (by omega), bind_eq_bind,
      bind_some]
    rfl
  · have hword := plain_word htop.le happart (m := m) o (i := 0) le_rfl
    rw [plain_zero] at hword
    have hpass := aligned_pass halign (i := 0) (by omega)
    obtain rfl : dst = 4294967292 := by omega
    exact ⟨2, by simpa [byWords, bytesWhile, wordsWhile, head, below, hpass] using hword⟩

theorem bytesWhile_stops {guard : Nat → Bool} (hguard : ∀ i ≤ n, guard i = true → i < n)
    {fuel i : Nat} {r : Run} {p : Nat × Run} (hi : i ≤ n)
    (h : bytesWhile x dst guard fuel i r = some p) : p.1 ≤ n ∧ guard p.1 = false := by
  induction fuel generalizing i r with
  | zero => cases h
  | succ fuel ih =>
    unfold bytesWhile at h
    split at h
    · next hg => exact ih (hguard i hi hg) h
    · next hg =>
      cases h
      exact ⟨hi, Bool.not_eq_true _ ▸ hg⟩

/-- With a bound in the last word, the sum in the test of the word loop never
exceeds it. -/
theorem wordsWhile_top {max : Nat} (hlow : 2 ^ 32 ≤ max + 4) (hhigh : max < 2 ^ 32) (fuel : Nat)
    {i : Nat} {r : Run} (hi : (dst + i) % 4 ≤ max % 4) :
    wordsWhile o x dst max fuel i r = none := by
  induction fuel generalizing i r with
  | zero => rfl
  | succ fuel ih =>
    unfold wordsWhile
    rw [if_pos (by omega)]
    exact ih (by omega)

theorem byWords_top (hlow : 2 ^ 32 ≤ dst + n + 4) (hmax : dst + n < 2 ^ 32) (fuel : Nat) :
    byWords o x dst n fuel m = none := by
  unfold byWords
  cases hone : bytesWhile x dst (head dst n) fuel 0 ⟨m, true⟩ with
  | none => rfl
  | some p =>
    obtain ⟨hj, hend⟩ := bytesWhile_stops (fun i => head_lt hmax) (Nat.zero_le n) hone
    have hpos := head_end hmax hj hend
    have hloop : wordsWhile o x dst (dst + n) fuel p.1 p.2 = none :=
      wordsWhile_top hlow hmax fuel (by omega)
    rw [mod_eq_of_lt hmax]
    simp [hloop]

/-- A range up to the end of the address space has the bound 0: nothing is
stored. -/
theorem byWords_end {r : Run} {fuel : Nat} (hend : dst + n = 2 ^ 32) (hdst : dst < 2 ^ 32)
    (hne : dst + 4 ≠ 2 ^ 32) (h : byWords o x dst n fuel m = some r) : r.mem = m := by
  have hnone : ¬ (dst + 4) % 4294967296 = 0 := by omega
  cases fuel with
  | zero => cases h
  | succ fuel =>
    simp [byWords, bytesWhile, wordsWhile, head, below, hend, hnone] at h
    rw [← h]

/-- A memory that the plain loop changes. -/
theorem exists_changed (happart : x.Apart dst n) (hn : 0 < n) : ∃ m, plain x dst n m ≠ m := by
  cases x with
  | fill c =>
    refine ⟨fun _ => Fin.ofNat 256 c.toNat + 1, fun h => ?_⟩
    have hbyte := congrFun h dst
    rw [plain, if_pos (by omega), Source.byte] at hbyte
    have hval := congrArg Fin.val hbyte
    simp only [Fin.val_add, Fin.val_one] at hval
    omega
  | copy src =>
    refine ⟨fun a => if a = dst then 1 else 0, fun h => ?_⟩
    have hbyte := congrFun h dst
    obtain ⟨hsrc, hor⟩ := happart
    have hne : ¬ (src + (dst - dst)) % 2 ^ 32 = dst := by omega
    rw [plain, if_pos (by omega), Source.byte, if_neg hne, if_pos rfl] at hbyte
    cases hbyte

/-- The routine returns `dst` and leaves what the plain byte loop leaves, and every
word access is aligned. -/
def Bytewise (x : Source) (dst n : Nat) (run : Nat → Mem → Option (Nat × Run)) : Prop :=
  ∀ m, ∃ fuel, run fuel m = some (dst, ⟨plain x dst n m, true⟩)

/-- A routine that leaves the memory alone is not the plain loop. -/
theorem not_bytewise {run : Nat → Mem → Option (Nat × Run)} (happart : x.Apart dst n) (hn : 0 < n)
    (hsame : ∀ fuel m r, run fuel m = some r → r.2.mem = m) : ¬ Bytewise x dst n run := by
  intro h
  obtain ⟨m, hchanged⟩ := exists_changed happart hn
  obtain ⟨fuel, hrun⟩ := h m
  exact hchanged (hsame fuel m _ hrun)

theorem byWords_iff (hdst : dst < 2 ^ 32) (hrange : dst + n ≤ 2 ^ 32) (happart : x.Apart dst n)
    (halign : x.Aligned dst) :
    Bytewise x dst n (fun fuel m => (byWords o x dst n fuel m).map (dst, ·)) ↔ Fits dst n := by
  constructor
  · intro h
    by_contra hnot
    have hsame : ∀ fuel m r, (byWords o x dst n fuel m).map (dst, ·) = some r →
        r.2.mem = m ∧ 0 < n := by
      intro fuel m r hr
      obtain ⟨r', hrun, rfl⟩ := map_eq_some_iff.mp hr
      unfold Fits at hnot
      rcases hrange.lt_or_eq with hmax | hend
      · rw [byWords_top (by omega) hmax] at hrun
        cases hrun
      · exact ⟨byWords_end hend hdst (by omega) hrun, by omega⟩
    obtain ⟨fuel, hrun⟩ := h (fun _ => 0)
    exact not_bytewise happart (hsame _ _ _ hrun).2 (fun fuel m r hr => (hsame fuel m r hr).1) h
  · intro hfit m
    obtain ⟨fuel, hrun⟩ := byWords_plain hfit happart halign m
    exact ⟨fuel, congrArg (Option.map (dst, ·)) hrun⟩

/-- Both routines are the plain byte loop exactly on the ranges on which the word loop
ends in time; `memcpy` with different alignments copies byte by byte and only
fails on a range up to the end of the address space. -/
theorem byWords_bytewise (o : Order) (hdst : dst < 2 ^ 32) (hrange : dst + n ≤ 2 ^ 32) :
    (∀ c, Bytewise (.fill c) dst n (memset o dst c n) ↔ Fits dst n) ∧
    ∀ src, (Source.copy src).Apart dst n → (Bytewise (.copy src) dst n (memcpy o dst src n) ↔
      if src % 4 = dst % 4 then Fits dst n else dst + n < 2 ^ 32) := by
  have hmap : ∀ v : Option Run, (v >>= fun r => pure (dst, r)) = v.map (dst, ·) :=
    fun v => by cases v <;> rfl
  refine ⟨fun c => ?_, fun src happart => ?_⟩
  · rw [← byWords_iff (x := .fill c) (o := o) hdst hrange trivial trivial]
    simp only [← hmap]
    rfl
  by_cases halign : src % 4 = dst % 4
  · rw [if_pos halign, ← byWords_iff (o := o) hdst hrange happart halign]
    unfold memcpy
    simp only [ne_eq, halign, not_true_eq_false, if_false, hmap]
  · rw [if_neg halign]
    unfold memcpy
    simp only [ne_eq, halign, not_false_eq_true, if_true]
    refine ⟨fun h => ?_, fun hmax m => ⟨n + 1, ?_⟩⟩
    · by_contra hend
      refine not_bytewise happart (by omega) (fun fuel m r hr => ?_) h
      cases fuel with
      | zero => cases hr
      | succ fuel =>
        simp [bytesWhile, below, show dst + n = 2 ^ 32 by omega] at hr
        rw [← hr]
    · have hrun := bytesWhile_rest hmax happart (m := m) (n + 1) 0 (by omega) (by omega)
      rw [plain_zero] at hrun
      simp only [hrun]
      rfl

theorem byWords_bytewise_five : Bytewise (.fill 0) 1 5 (memset .big 1 0 5) :=
  ((byWords_bytewise .big (by decide) (by decide)).1 0).mpr (.inl (by decide))

/-- One byte in the last word of the address space: the word loop does not end. -/
theorem memset_top_loops :
    ¬ ∃ fuel r, memset .little 0xFFFFFFFC 0 1 fuel (fun _ => 0) = some r := by
  rintro ⟨fuel, r, hrun⟩
  simp [memset, byWords_top] at hrun

end MosSmp.Strings
