import MosSmp.Calls.Machine

/-!
The device calls `sys_write_dev` and `sys_read_dev`. Both make the same checks,
take the lock of the device that the physical address belongs to, and make one
access. The end of the physical range is a 32-bit sum: a range that ends at the
end of the address space has the end 0, which lies below the end of every
window.
-/

namespace MosSmp

namespace Device

inductive DevLock
  | console
  | ide
  deriving DecidableEq

inductive Direction
  | write
  | read
  deriving DecidableEq

/-- What a call does, in order. -/
inductive DevAct
  | lock (l : DevLock)
  | access (dir : Direction) (va pa len : Word)
  | unlock (l : DevLock)
  deriving DecidableEq

/-- The windows of the table `valid_addr_start`, `valid_addr_end`. -/
def validAddrStart : DevLock → Word
  | .console => 0x180003f8
  | .ide => 0x180001f0

def validAddrEnd : DevLock → Word
  | .console => 0x18000418
  | .ide => 0x180001f8

def devLockForPa (pa : Word) : Option DevLock :=
  if validAddrStart .console ≤ pa ∧ pa < validAddrEnd .console then some .console
  else if validAddrStart .ide ≤ pa ∧ pa < validAddrEnd .ide then some .ide
  else none

/-- The common body of the two calls: the value returned and what is done. -/
def devCall (dir : Direction) (va pa len : Word) : Word × List DevAct :=
  if isIllegalDevCall va pa len then (Err.inval.code, [])
  else
    match devLockForPa pa with
    | some l => (0, [.lock l, .access dir va pa len, .unlock l])
    | none => (0, [.access dir va pa len])

def sysWriteDev (va pa len : Word) : Word × List DevAct := devCall .write va pa len

def sysReadDev (va pa len : Word) : Word × List DevAct := devCall .read va pa len

/-- What the checks are meant to guarantee, over the integers. -/
structure Proper (l : DevLock) (va pa len : Word) : Prop where
  size : len.toNat = 1 ∨ len.toNat = 2 ∨ len.toNat = 4
  vaAligned : va.toNat % len.toNat = 0
  paAligned : pa.toNat % len.toNat = 0
  vaLow : UTEMP.toNat ≤ va.toNat
  vaHigh : va.toNat + len.toNat ≤ UTOP.toNat
  paLow : (validAddrStart l).toNat ≤ pa.toNat
  paHigh : pa.toNat + len.toNat ≤ (validAddrEnd l).toNat

variable {va pa len : Word} {l : DevLock} {dir : Direction}

/-- The lock belongs to the device whose window has the range. -/
theorem Proper.devLockForPa (h : Proper l va pa len) : devLockForPa pa = some l := by
  have hlow := h.paLow
  have hhigh := h.paHigh
  have hsize := h.size
  unfold Device.devLockForPa
  cases l with
  | console =>
    have hstart : (validAddrStart .console).toNat = 0x180003f8 := by decide
    have hend : (validAddrEnd .console).toNat = 0x18000418 := by decide
    rw [if_pos]
    constructor
    · exact hlow
    · rw [BitVec.lt_def]
      omega
  | ide =>
    have hstart : (validAddrStart .console).toNat = 0x180003f8 := by decide
    have hend : (validAddrEnd .ide).toNat = 0x180001f8 := by decide
    rw [if_neg, if_pos]
    · constructor
      · exact hlow
      · rw [BitVec.lt_def]
        omega
    · rintro ⟨hc, _⟩
      rw [BitVec.le_def] at hc
      omega

end Device

end MosSmp
