import LightOS.Trap
import LightOS.Lib.Runs

/-!
# From reset to the first process

`mem::init`, the pages that the virtio drivers keep, and `kinit` up to the spawn
of init. The linker script fixes the order and the alignment of the sections;
their sizes, the contents of RAM at reset, the devices and what they hold are
not known here and are fields of `Reset`.
-/
namespace LightOS
open Lib PageAllocator

/-- The symbols of `linker.ld`. -/
structure Linker where
  textEnd : ℕ
  rodataStart : ℕ
  rodataEnd : ℕ
  dataStart : ℕ
  heapStart : ℕ
  text_start : ramStart ≤ textEnd
  text_le : textEnd ≤ rodataStart
  rodata_aligned : rodataStart % pageSize = 0
  rodata_le : rodataStart ≤ rodataEnd
  data_le : rodataEnd ≤ dataStart
  data_aligned : dataStart % pageSize = 0
  heap_le : dataStart ≤ heapStart
  heap_aligned : heapStart % pageSize = 0
  ram_le : heapStart ≤ ramEnd

/-- `.text` comes first in RAM. -/
abbrev Linker.textStart : ℕ := ramStart

abbrev initialHeapPages : ℕ := 1024

/-- `page::init`: the frames from `heapStart` on become free. -/
def pageInit (heapStart : ℕ) : MachineM Unit := do
  let m ← get
  let first ← Prog.ofExcept (pageUp heapStart >>= addrToFrame)
  if maxFrames < first then Prog.stop (.panic .overflow)
  else
    set { m with
      pages := {
        bitmap := fun f => if first ≤ f ∧ f < maxFrames then false else m.pages.bitmap f
        firstFrame := first
        freeFrames := maxFrames - first } }

/-- `kalloc::init`: where the initial heap lies. -/
def kallocInit : MachineM ℕ := do
  match ← pageAlloc initialHeapPages with
  | none => Prog.stop (.panic .expectFailed)
  | some mem => return mem

/-- `.expect(..)` on a result. -/
def expectOk (x : MachineM (Except String Unit)) : MachineM Unit := do
  match ← x with
  | .error _ => Prog.stop (.panic .expectFailed)
  | .ok _ => pure ()

/-- The address ranges of the kernel's address space, with their permissions. -/
def kernelRanges (l : Linker) : List (ℕ × ℕ × ℕ) :=
  [(Linker.textStart, l.textEnd, pteR ||| pteX),
   (l.rodataStart, l.rodataEnd, pteR),
   (l.dataStart, ramEnd, pteR ||| pteW),
   (uart0Base, uart0Base + uart0Size, pteR ||| pteW),
   (virtioBase, virtioBase + virtioSize, pteR ||| pteW),
   (clintBase, clintBase + clintSize, pteR ||| pteW),
   (plicBase, plicBase + plicSize, pteR ||| pteW),
   (testBase, testBase + testSize, pteR ||| pteW)]

/-- Build the kernel address space: an identity map with per-section permissions
plus MMIO. -/
def kernelPageTable (l : Linker) : MachineM ℕ := do
  match ← PageTable.alloc with
  | none => Prog.stop (.panic .expectFailed)
  | some root =>
    Prog.each (fun r => expectOk (PageTable.mapRange root r.1 r.2.1 r.2.2)) (kernelRanges l)
    return root

/-- `mmu::enable`, as far as it is visible later. -/
def enable (root : ℕ) : MachineM Unit := modify fun m => { m with kernelRootPa := root }

/-- `mem::init`: where the initial heap lies. -/
def memInit (l : Linker) : MachineM ℕ := do
  pageInit l.heapStart
  let heap ← kallocInit
  let root ← kernelPageTable l
  enable root
  return heap

/-- Everything the kernel finds at reset. -/
structure Reset where
  linker : Linker
  mem : Mem
  /-- How many of its allocations each virtio driver gets to. -/
  blkPages : ℕ
  netPages : ℕ
  iface : Option Iface
  ipIdent : ℕ
  rx : RxRing
  nces : List Nce
  fs : Fs
  ticks : ℕ
  sstatus : UInt64
  kernelStackTop : UInt64

/-- The statics before any code has run. -/
def Reset.machine (r : Reset) : Machine :=
  { mem := r.mem, pages := ⟨fun _ => true, 0, 0⟩, kernelRootPa := 0, account := 0, log := [], asks := [] }

/-- Pages that a driver keeps forever; it gives up at the first failure. -/
def keepPages : List ℕ → List Region → MachineM (List Region)
  | [], kept => return kept
  | n :: ns, kept => do
    match ← pageAlloc n with
    | none => return kept
    | some addr => keepPages ns (⟨.device, addr, n⟩ :: kept)

/-- The kernel memory after boot, with the frames it holds. -/
def bootMemory (r : Reset) : MachineM (List Region) := do
  let heap ← memInit r.linker
  -- one queue for the block device; two queues and the buffers for the network
  let regions ← keepPages ([2].take r.blkPages) [⟨.heap, heap, initialHeapPages⟩]
  keepPages ([2, 2, 4, 1].take r.netPages) regions

/-- `kinit` up to the spawn of init. -/
def boot (r : Reset) : Except Fault Kernel := do
  let (regions, m) ← bootMemory r r.machine
  return {
    machine := m
    regions := regions
    procs := ⟨fun _ => none, 1, 0⟩
    frames := fun _ => TrapFrame.zeroed
    current := noProc
    net := ⟨r.iface, r.ipIdent, SocketTable.empty, []⟩
    rx := r.rx
    nces := r.nces
    fs := r.fs
    ticks := r.ticks
    sstatus := r.sstatus
    kernelStackTop := r.kernelStackTop
    history := [] }

/-- One step of the machine that does not stop it. -/
def Next (e : Event) (k k' : Kernel) : Prop := step e k = .ok ((), k')

def Event.isHeapGrow : Event → Prop
  | .heapGrow _ _ => True
  | _ => False

/-- What the processes and devices cause; the kernel spawns nothing after init. -/
def Event.ordinary : Event → Prop
  | .spawn _ _ => False
  | _ => True

theorem Event.ordinary.ne_spawn {e : Event} (h : e.ordinary) {disk : Disk} {name : List UInt8} :
    e ≠ .spawn disk name := by
  rintro rfl
  exact h

/-- The machine has booted: the heap may have grown since. -/
def Booted (k : Kernel) : Prop :=
  ∃ r kb, boot r = .ok kb ∧ Runs Next (fun e _ => e.isHeapGrow) kb k

/-- The state in which `kinit` enters the scheduler: init has been spawned. -/
def Started (k : Kernel) : Prop :=
  ∃ kb disk, Booted kb ∧ Next (.spawn disk (asciiBytes "init")) kb k ∧
    k.procs.slots 0 ≠ none

/-- Runs of the machine after boot. -/
abbrev Reaches (k k' : Kernel) : Prop := Runs Next (fun e _ => e.ordinary) k k'

/-- Runs of the machine after boot whose steps all meet a condition. -/
abbrev ReachesIf (C : Event → Kernel → Prop) (k k' : Kernel) : Prop :=
  Runs Next (fun e k => e.ordinary ∧ C e k) k k'

end LightOS
