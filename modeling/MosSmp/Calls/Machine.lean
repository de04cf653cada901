import MosSmp.Mmu.Machine
import MosSmp.Pmap.SelfMap

/-!
All system calls, over the environments and their memory. A call runs to its
end before anything else happens, with the page faults it causes on the way:
the kernel reads the arguments on the user's stack, the string of
`sys_print_cons`, the frame of `sys_set_trapframe` and the data of
`sys_write_dev` through the caller's address space, and a page that is not
mapped there is filled in by `passive_alloc`. A store of `sys_read_dev` to a
page without `PTE_D` raises a TLB Mod exception in the kernel, and `do_tlb_mod`
puts a frame on the caller's exception stack instead.

What comes from outside is part of the event: the frame at the trap, the words
the kernel reads from user memory, characters of the console and data of
devices. An event has no result when the kernel panics.
-/

namespace MosSmp

open Lib

namespace Pmap

variable {n : Nat}

/-- The inner loop of `env_free`. -/
def clearTable (m : Pmap n) (pgdir t : Page n) (pdeno : Idx) : Option (Pmap n) :=
  (List.finRange 1024).foldlM (fun m pteno =>
    if pteValid (m.mem t pteno) then m.pageRemove pgdir (vaOf pdeno pteno) else some m) m

/-- One pass of the outer loop of `env_free`. -/
def freeTable (m : Pmap n) (pgdir : Page n) (pdeno : Idx) : Option (Pmap n) :=
  if pteValid (m.mem pgdir pdeno) then
    match (pa2page (pteAddr (m.mem pgdir pdeno)) : Option (Page n)) with
    | none => none
    | some t => (m.clearTable pgdir t pdeno).bind (fun m => (m.write (pgdir, pdeno) 0).pageDecref t)
  else some m

def freeTables (m : Pmap n) (pgdir : Page n) : Option (Pmap n) :=
  ((List.finRange 1024).filter (· < pdx UTOP)).foldlM (fun m i => m.freeTable pgdir i) m

end Pmap

/-- The eighteen calls with their arguments. The frame of `setTrapframe` is
what the kernel reads at `va`, `ch` is what the console delivers, and `value`
what the device delivers. -/
inductive UserCall
  | putchar (ch : Word)
  | printCons (str num : Word)
  | getenvid
  | yield
  | envDestroy (envid : Word)
  | setTlbModEntry (envid func : Word)
  | memAlloc (envid va perm : Word)
  | memMap (srcid srcva dstid dstva perm : Word)
  | memUnmap (envid va : Word)
  | exofork
  | setEnvStatus (envid status : Word)
  | setTrapframe (envid va : Word) (tf : Trapframe)
  | panic (msg : Word)
  | ipcTrySend (envid value srcva perm : Word)
  | ipcRecv (dstva : Word)
  | cgetc (ch : Word)
  | writeDev (va pa len : Word)
  | readDev (va pa len value : Word) (frame : Fin 38 → Word)

/-- The call passes permission bits only. -/
def UserCall.LowPerm : UserCall → Prop
  | .memAlloc _ _ perm | .memMap _ _ _ _ perm | .ipcTrySend _ _ _ perm => perm < 0x1000#32
  | _ => True

def isIllegalDevRange (pa len : Word) : Bool :=
  (pa % 4 ≠ 0 && len ≠ 1 && len ≠ 2) || (pa % 2 ≠ 0 && len ≠ 1) ||
    !((0x180003f8 ≤ pa && pa + len ≤ 0x18000418) || (0x180001f0 ≤ pa && pa + len ≤ 0x180001f8))

/-- The check at the start of `sys_write_dev` and `sys_read_dev`. -/
def isIllegalDevCall (va pa len : Word) : Bool :=
  (len ≠ 1 && len ≠ 2 && len ≠ 4) || isIllegalVaRange va len || isIllegalDevRange pa len ||
    va % len ≠ 0

/-- The word `old` after a store of the low `len` bytes of `value` at `va`. -/
def patch (old value va len : Word) : Word :=
  let mask : Word := if len = 4 then 0xffffffff else if len = 2 then 0xffff else 0xff
  let shift := 8 * (va.toNat % 4)
  (old &&& ~~~(mask <<< shift)) ||| ((value &&& mask) <<< shift)

namespace MemSys

variable {n : Nat}

/-- The environment that CPU `c` executes. -/
def executing (s : MemSys n) (c : CpuId) : Option EnvIdx :=
  match s.kern.curenv c with
  | some e => if s.kern.runsOn e c then some e else none
  | none => none

def setKern (s : MemSys n) (k : Kern) : MemSys n :=
  { s with kern := k }

/-- Return `r` to the caller on CPU `c`. -/
def ret (s : MemSys n) (c : CpuId) (r : Word) : MemSys n :=
  s.setKern (s.kern.setV0 c r)

/-- Return from a function that has failed or succeeded. -/
def finish (c : CpuId) : Except Err Unit × MemSys n → MemSys n
  | (.error err, s) => s.ret c err.code
  | (.ok _, s) => s.ret c 0

/-- A new page for the address `va` of `e`. Through the window at `UVPT` it
becomes a table of the directory; beyond the entries of user space such a table
is never released. -/
def passiveAlloc (s : MemSys n) (e : EnvIdx) (va : Word) : Option (MemSys n) :=
  if passiveAllocRefuses va then none
  else
    match s.pm.pageAlloc with
    | .error _ => none
    | .ok (p, m) =>
      match insertInto { s with
          pm := m
          grants := fun e' q => s.grants e' q && decide (q ≠ p) } e p (pteAddr va)
          (passiveAllocPerm va) with
      | some (.ok _, s) =>
        if pdx va = pdx UVPT ∧ pdx UVPT < ptx va then
          some { s with own := Function.update s.own p (s.own p + 1) }
        else some s
      | _ => none

/-- An access of the kernel or of the program to the address `va` of `e`, up to
the translation. Addresses between `ULIM` and `0xc0000000` are not translated. -/
def touch (s : MemSys n) (e : EnvIdx) (va : Word) : Option (MemSys n) :=
  if ULIM ≤ va ∧ va < 0xc0000000 then some s
  else
    match s.lookupIn e va with
    | none => none
    | some (some _) => some s
    | some none => s.passiveAlloc e va

/-- Accesses to `len` bytes, one after the other. -/
def touchRange (s : MemSys n) (e : EnvIdx) (va : Word) (len : Nat) : Option (MemSys n) :=
  (List.range len).foldlM (fun s i => s.touch e (va + BitVec.ofNat 32 i)) s

/-- The page and the entry for the address `va` of `e`. -/
def entryFor (s : MemSys n) (e : EnvIdx) (va : Word) : Option (Page n × Word) :=
  match s.pgdir e with
  | none => none
  | some d =>
    match s.pm.pageLookup d va with
    | some (some (p, pte)) => some (p, s.pm.read pte)
    | _ => none

/-- A store through a translation with `PTE_D`. -/
def storeWord (s : MemSys n) (e : EnvIdx) (va w : Word) : Option (MemSys n) :=
  match s.entryFor e va with
  | some (p, entry) =>
    if entry &&& PTE_D = 0 then none else some { s with pm := s.pm.write (p, wordIdx va) w }
  | none => none

/-- The words of a frame are stored at `va`, up to the first for a page without
`PTE_D`. The flag says whether all of them are. -/
def copyFrame (e : EnvIdx) (va : Word) (frame : Fin 38 → Word) :
    List (Fin 38) → MemSys n → Option (Bool × MemSys n)
  | [], s => some (true, s)
  | k :: l, s =>
    (s.touch e (va + BitVec.ofNat 32 (4 * k.val))).bind (fun s =>
      match s.storeWord e (va + BitVec.ofNat 32 (4 * k.val)) (frame k) with
      | some s => copyFrame e va frame l s
      | none => some (false, s))

/-- A TLB Mod exception of the kernel itself, whose frame goes to the top of the
exception stack. If the page there has no `PTE_D`, the exceptions nest until the
kernel stack is used up. -/
def pushFrame (s : MemSys n) (e : EnvIdx) (frame : Fin 38 → Word) : Option (MemSys n) :=
  match copyFrame e (UXSTACKTOP - sizeofTrapframe) frame (List.finRange 38) s with
  | some (true, s) => some s
  | _ => none

/-- `env_free`. -/
def envFree (s : MemSys n) (e : EnvIdx) : Option (MemSys n) :=
  match s.pgdir e with
  | none => none
  | some d =>
    (s.pm.freeTables d).bind (fun m =>
      (m.pageDecref d).map (fun m => { s with
        kern := (s.kern.asidFree (s.kern.envs e).envAsid).freeSection e
        pm := m
        pgdir := Function.update s.pgdir e none
        own := Function.update s.own d (s.own d - 1) }))

/-- The pending kill at the start of `schedule`. -/
def checkKillPending (s : MemSys n) (c : CpuId) : Option (MemSys n) :=
  match s.kern.curenv c with
  | some e =>
    if (s.kern.envs e).envKillPending then
      (s.envFree e).map (fun s => s.setKern (s.kern.setCurenv c none))
    else some s
  | none => some s

/-- What follows the critical section of `schedule`, up to `env_pop_tf` or to
the next round of the idle loop. -/
def resume (s : MemSys n) (outcome : Kern.SchedOutcome) (c : CpuId) : Option (MemSys n) :=
  match outcome with
  | .run e k =>
    if (k.envs e).envStatus = .runnable then some (s.setKern (k.switchTo c e)) else none
  | .spin k => some (s.setKern k)
  | .hang => none

def schedule (s : MemSys n) (c : CpuId) (yield : Bool) : Option (MemSys n) :=
  (s.checkKillPending c).bind (fun s =>
    let k := { s.kern with timerScheduleReady := s.kern.timerScheduleReady || c = 0 }
    s.resume (k.schedSection c yield) c)

/-- A CPU gives up the environment it executed, which has been released. -/
def leave (s : MemSys n) (c : CpuId) : Option (MemSys n) :=
  (s.setKern (s.kern.setCurenv c none)).schedule c true

def envDestroy (s : MemSys n) (c : CpuId) (e : EnvIdx) : Option (MemSys n) :=
  match s.kern.destroySection c e with
  | (.alreadyFree, k) => some ((s.setKern k).ret c 0)
  | (.remote _, k) =>
    -- The other CPU releases the environment and goes on to `schedule`.
    match (s.kern.envs e).envCpuId with
    | none => none
    | some d => ((s.setKern k).envFree e).bind (fun s => (s.leave d).map (fun s => s.ret c 0))
  | (.local, k) =>
    ((s.setKern k).envFree e).bind (fun s =>
      if s.kern.curenv c = some e then s.leave c else some (s.ret c 0))

def sysEnvDestroy (s : MemSys n) (c : CpuId) (cur : EnvIdx) (envid : Word) : Option (MemSys n) :=
  match s.kern.envid2env cur envid true with
  | .error err => some (s.ret c err.code)
  | .ok e => s.envDestroy c e

def sysSetTlbModEntry (s : MemSys n) (c : CpuId) (cur : EnvIdx) (envid func : Word) : MemSys n :=
  match s.kern.envid2env cur envid true with
  | .error err => s.ret c err.code
  | .ok e => (s.setKern (s.kern.updEnv e (fun x => { x with envUserTlbModEntry := func }))).ret c 0

def sysExofork (s : MemSys n) (c : CpuId) (cur : EnvIdx) : MemSys n :=
  match s.kern.envFreeList.first with
  | none => s.ret c Err.noFreeEnv.code
  | some e =>
    match s.envSetupVm e with
    | (.error err, s) => s.ret c err.code
    | (.ok _, s) =>
      match s.kern.exofork c cur ((s.pgdir e).map (fun p => ULIM + page2pa p)) with
      | (.error err, k) => (s.setKern k).ret c err.code
      | (.ok e, k) => (s.setKern k).ret c (k.envs e).envId

def sysSetEnvStatus (s : MemSys n) (c : CpuId) (cur : EnvIdx) (envid status : Word) :
    Option (MemSys n) :=
  match statusOfWord status with
  | none => some (s.ret c Err.inval.code)
  | some st =>
    match s.kern.envid2env cur envid true with
    | .error err => some (s.ret c err.code)
    | .ok e =>
      let s := s.setKern (s.kern.statusSection e st)
      if e = cur then s.schedule c true else some (s.ret c 0)

def sysSetTrapframe (s : MemSys n) (c : CpuId) (cur : EnvIdx) (envid va : Word)
    (tf : Trapframe) : Option (MemSys n) :=
  if isIllegalVaRange va sizeofTrapframe then some (s.ret c Err.inval.code)
  else
    match s.kern.envid2env cur envid true with
    | .error err => some (s.ret c err.code)
    | .ok e =>
      (s.touchRange cur va sizeofTrapframe.toNat).map (fun s =>
        if e = cur then (s.setKern (s.kern.saveAll c tf)).ret c (tf.regs 2)
        else (s.setKern (s.kern.updEnv e (fun x => { x with envTf := tf }))).ret c 0)

def sysPrintCons (s : MemSys n) (c : CpuId) (cur : EnvIdx) (str num : Word) : Option (MemSys n) :=
  if UTOP < str + num || UTOP ≤ str || str + num < str then some (s.ret c Err.inval.code)
  else (s.touchRange cur str num.toNat).map (fun s => s.ret c 0)

def sysWriteDev (s : MemSys n) (c : CpuId) (cur : EnvIdx) (va pa len : Word) :
    Option (MemSys n) :=
  if isIllegalDevCall va pa len then some (s.ret c Err.inval.code)
  else (s.touch cur va).map (fun s => s.ret c 0)

def sysReadDev (s : MemSys n) (c : CpuId) (cur : EnvIdx) (va pa len value : Word)
    (frame : Fin 38 → Word) : Option (MemSys n) :=
  if isIllegalDevCall va pa len then some (s.ret c Err.inval.code)
  else
    (s.touch cur va).bind (fun s =>
      match s.entryFor cur va with
      | none => none
      | some (p, entry) =>
        if entry &&& PTE_D ≠ 0 then
          (s.storeWord cur va (patch (s.pm.mem p (wordIdx va)) value va len)).map
            (fun s => s.ret c 0)
        else if (s.kern.envs cur).envUserTlbModEntry = 0 then none
        else s.pushFrame cur frame)

def sysIpcRecvCall (s : MemSys n) (c : CpuId) (cur : EnvIdx) (dstva : Word) : Option (MemSys n) :=
  match s.sysIpcRecv cur dstva with
  | (.error err, s) => some (s.ret c err.code)
  | (.ok _, s) => (s.ret c 0).schedule c true

def sysCgetc (s : MemSys n) (c : CpuId) (ch : Word) : Option (MemSys n) :=
  if ch = 0 then (s.ret c 0).schedule c true else some (s.ret c ch)

/-- The function that `syscall_table` has for the call. -/
def callStep (s : MemSys n) (c : CpuId) (cur : EnvIdx) : UserCall → Option (MemSys n)
  | .putchar _ => some (s.ret c 0)
  | .printCons str num => s.sysPrintCons c cur str num
  | .getenvid => some (s.ret c (s.kern.envs cur).envId)
  | .yield => s.schedule c true
  | .envDestroy envid => s.sysEnvDestroy c cur envid
  | .setTlbModEntry envid func => some (s.sysSetTlbModEntry c cur envid func)
  | .memAlloc envid va perm => (s.sysMemAlloc cur envid va perm).map (finish c)
  | .memMap srcid srcva dstid dstva perm =>
    (s.sysMemMap cur srcid srcva dstid dstva perm).map (finish c)
  | .memUnmap envid va => (s.sysMemUnmap cur envid va).map (finish c)
  | .exofork => some (s.sysExofork c cur)
  | .setEnvStatus envid status => s.sysSetEnvStatus c cur envid status
  | .setTrapframe envid va tf => s.sysSetTrapframe c cur envid va tf
  | .panic _ => none
  | .ipcTrySend envid value srcva perm =>
    (s.sysIpcTrySend cur envid value srcva perm).map (finish c)
  | .ipcRecv dstva => s.sysIpcRecvCall c cur dstva
  | .cgetc ch => s.sysCgetc c ch
  | .writeDev va pa len => s.sysWriteDev c cur va pa len
  | .readDev va pa len value frame => s.sysReadDev c cur va pa len value frame

/-- The start of `do_syscall`: the context is saved, and the two arguments on
the stack are read. -/
def enter (s : MemSys n) (c : CpuId) (cur : EnvIdx) (tf : Trapframe) : Option (MemSys n) :=
  let s := s.setKern (s.kern.saveAll c { tf with cp0Epc := tf.cp0Epc + 4 })
  if tf.regs 29 % 4 ≠ 0 then none
  else (s.touch cur (tf.regs 29 + 16)).bind (fun s => s.touch cur (tf.regs 29 + 20))

/-- `do_syscall` for the caller `cur`. -/
def doSyscall (s : MemSys n) (c : CpuId) (cur : EnvIdx) (tf : Trapframe) (call : UserCall) :
    Option (MemSys n) :=
  (s.enter c cur tf).bind (fun s => s.callStep c cur call)

/-- A TLB Mod exception of a program. If the page for its frame has no `PTE_D`, the
store is a TLB Mod exception of the kernel: the handler then gets `kernelFrame`,
and runs in kernel mode. -/
def tlbMod (s : MemSys n) (c : CpuId) (cur : EnvIdx) (tf : Trapframe)
    (frame kernelFrame : Fin 38 → Word) : Option (MemSys n) :=
  let top := if tf.regs 29 < USTACKTOP ∨ UXSTACKTOP ≤ tf.regs 29 then UXSTACKTOP else tf.regs 29
  let entry := (s.kern.envs cur).envUserTlbModEntry
  let sp := top - sizeofTrapframe
  let tf' := { (tf.setReg 4 sp).setReg 29 (sp - 4) with cp0Epc := entry }
  if entry = 0 then none
  else
    match copyFrame cur sp frame (List.finRange 38) s with
    | none => none
    | some (true, s) => some (s.setKern (s.kern.saveAll c tf'))
    | some (false, s) =>
      (s.pushFrame cur kernelFrame).map (fun s => s.setKern (s.kern.saveAll c (tf.setReg 29 sp)))

end MemSys

/-- What happens on a CPU: something on behalf of the environment it executes,
or another round of the idle loop of `schedule`. -/
inductive Event
  | syscall (tf : Trapframe) (call : UserCall)
  | fault (va : Word)
  | tlbMod (tf : Trapframe) (frame kernelFrame : Fin 38 → Word)
  | tick (tf : Trapframe)
  | idle

namespace MemSys

variable {n : Nat}

/-- The event on CPU `c`, which executes `cur`. -/
def eventStep (s : MemSys n) (c : CpuId) (cur : EnvIdx) : Event → Option (MemSys n)
  | .syscall tf call => s.doSyscall c cur tf call
  | .fault va => if va < ULIM then s.touch cur va else none
  | .tlbMod tf frame kernelFrame => s.tlbMod c cur tf frame kernelFrame
  | .tick tf => (s.setKern (s.kern.saveAll c tf)).schedule c false
  | .idle => none

def step (s : MemSys n) (l : CpuId × Event) : Option (MemSys n) :=
  match s.executing l.1, l.2 with
  | some cur, event => s.eventStep l.1 cur event
  | none, .idle => s.resume (s.kern.pickNext l.1) l.1
  | none, _ => none

end MemSys

end MosSmp
