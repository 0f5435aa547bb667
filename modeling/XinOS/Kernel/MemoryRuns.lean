import XinOS.Kernel.Simulation

/-!
# Runs of the kernel in memory

What holds of the bytes of memory on RV64 after any sequence of calls, traps and writes
of the program, from boot on.
-/

namespace XinOS.Kernel

open XinOS.Foundation XinOS.Page XinOS.Trap

variable {h : Heap} {osTask taskStack : Nat}

section Boot

variable {r : Board} {m₀ : Memory} {s : MemoryHart r.build}

end Boot

end XinOS.Kernel
