import MosSmp.Smp.Ipc
import MosSmp.Pmap.Overflow
import MosSmp.Ipi.Progress
import MosSmp.Smp.Ids
import MosSmp.Smp.Privilege
import MosSmp.Tlb.Shootdown
import MosSmp.Mmu.Asid
import MosSmp.Elf.Images
import MosSmp.Elf.Headers
import MosSmp.Fs.Handles
import MosSmp.Fs.Sync
import MosSmp.User.PipeEof
import MosSmp.User.PipeRace
import MosSmp.Calls.Device
import MosSmp.Calls.RoundRobin
import MosSmp.Calls.Alloc
import MosSmp.Calls.Send
import MosSmp.Smp.Chosen
import MosSmp.Smp.Pinning
import MosSmp.Calls.Reclaim
import MosSmp.Fs.Resolve
import MosSmp.User.Readline
import MosSmp.User.Strings
import MosSmp.User.Files
import MosSmp.Env.Queue
import MosSmp.Spinlock
import MosSmp.User.Client
import MosSmp.User.Files
