import AlienOS.Heap.History
import AlienOS.Heap.Multiboot
import AlienOS.Heap.Product
import AlienOS.Heap.Stale
import AlienOS.Io.Unnoticed
import AlienOS.Io.Serial
import AlienOS.Io.Terminal
import AlienOS.Io.Timer
import AlienOS.Kernel.Clock
import AlienOS.Kernel.Context
import AlienOS.Kernel.Insertion
import AlienOS.Kernel.Owner
import AlienOS.Kernel.Progress
import AlienOS.Kernel.Reclaim
import AlienOS.Kernel.Section
import AlienOS.Kernel.Sleep
import AlienOS.Kernel.Tick
import AlienOS.Kernel.Turns
import AlienOS.Libc.Strings
import AlienOS.Mem.Gdt
import AlienOS.Test.BoundedBuffer
import AlienOS.Test.Counter
import AlienOS.Test.HandOver
import AlienOS.Test.Slots
