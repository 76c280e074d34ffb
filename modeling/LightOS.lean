import LightOS.Access
import LightOS.Boot
import LightOS.BootMemory
import LightOS.Budget
import LightOS.Canonical
import LightOS.Growth
import LightOS.Shell
import LightOS.ContextSwitch
import LightOS.MkfsLayout
import LightOS.RxHostile
import LightOS.KernelMap
import LightOS.Clone
import LightOS.Copies
import LightOS.Cstrings
import LightOS.Completion
import LightOS.Contents
import LightOS.Sparing
import LightOS.DeepCopy
import LightOS.Descriptors
import LightOS.Echo
import LightOS.Bystanders
import LightOS.Exclusive
import LightOS.Console
import LightOS.Fairness
import LightOS.Heap
import LightOS.Images
import LightOS.Input
import LightOS.InternetChecksum
import LightOS.KernelSpace
import LightOS.Lineage
import LightOS.Listing
import LightOS.Loader
import LightOS.Memory
import LightOS.Packets
import LightOS.Ports
import LightOS.Lib.Fifo
import LightOS.Backlog
import LightOS.ProcessTree
import LightOS.Progress
import LightOS.Rollback
import LightOS.RxRing
import LightOS.Satp
import LightOS.Twins
import LightOS.Bitmap
import LightOS.Scheduling
import LightOS.Shapes
import LightOS.Sv39
import LightOS.Tables
import LightOS.Teardown
import LightOS.Trap
import LightOS.Waiting
import LightOS.Reaping
import LightOS.TrapFrames
