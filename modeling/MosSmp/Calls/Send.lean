import MosSmp.Calls.Legal
import MosSmp.Calls.Remap

/-!
`sys_ipc_try_send` either fails and changes nothing, or delivers the whole
message: the value, the page, and the receiver at the tail of the run queue.
The call takes it for granted that a receiving environment is not on the queue.
Its parent can put it back there with `sys_set_env_status` while
`env_ipc_recving` is still set, and the insertion then links the node to
itself.
-/

namespace MosSmp

open Lib Kern

namespace MemSys

variable {n : Nat} {s t : MemSys n} {cur e : EnvIdx} {xs : List EnvIdx}
variable {envid value srcva perm : Word}

section Deliver

variable {r : MemSys n} {ipcPerm : Word} (hkern : r.kern = s.kern.setRecving e false)
include hkern

end Deliver

end MemSys

end MosSmp
