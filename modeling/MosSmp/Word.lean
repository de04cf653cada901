import Mathlib.Data.BitVec

/-!
Machine words, the error codes of `include/error.h` and the address-space
layout of `include/mmu.h`. All addresses and all `u_int` arguments are
32-bit words, so sums wrap as they do on the machine.
-/

namespace MosSmp

abbrev Word := BitVec 32

abbrev NENV : Nat := 1024
abbrev NASID : Nat := 256
abbrev NR_CPUS : Nat := 2

/-- A slot of the array `envs`, standing for the pointer `&envs[i]`. -/
abbrev EnvIdx := Fin NENV

abbrev CpuId := Fin NR_CPUS

instance neZeroCpus : NeZero NR_CPUS := ⟨by decide⟩

instance neZeroEnvs : NeZero NENV := ⟨by decide⟩

instance neZeroAsids : NeZero NASID := ⟨by decide⟩

instance neZeroRegs : NeZero 32 := ⟨by decide⟩

theorem CpuId.eq_of_ne : ∀ {a b c : CpuId}, a ≠ c → b ≠ c → a = b := by decide

/-- The error codes the kernel functions return, negated. -/
inductive Err
  | badEnv
  | inval
  | noMem
  | noFreeEnv
  | ipcNotRecv
  deriving DecidableEq

/-- The word stored in `$v0` for an error. -/
def Err.code : Err → Word
  | .badEnv => -2
  | .inval => -3
  | .noMem => -4
  | .noFreeEnv => -6
  | .ipcNotRecv => -7

def PDMAP : Word := 0x400000
def ULIM : Word := 0x80000000
def UVPT : Word := ULIM - PDMAP
def UPAGES : Word := UVPT - PDMAP
def UENVS : Word := UPAGES - PDMAP
def UTOP : Word := UENVS
def UXSTACKTOP : Word := UTOP
def USTACKTOP : Word := UTOP - 2 * 4096
def UCOW : Word := PDMAP - 4096
def UTEMP : Word := UCOW - 4096

def PTE_V : Word := 0x80
def PTE_C_CACHEABLE : Word := 0x600

def isIllegalVa (va : Word) : Bool :=
  va < UTEMP || UTOP ≤ va

def isIllegalVaRange (va len : Word) : Bool :=
  if len = 0 then false
  else va + len < va || va < UTEMP || UTOP < va + len

/-- `sizeof(struct Trapframe)`: 38 words. -/
def sizeofTrapframe : Word := 152

example : isIllegalVa UTEMP = false ∧ isIllegalVa (UTEMP - 1) = true ∧
    isIllegalVa UTOP = true := by decide

end MosSmp
