import LightOS.Syscall

/-!
# Traps and the steps of the machine

The trap paths of `kernel/trap/mod.rs` and the events that drive them. Between
two events the hart is in user mode on the process that `current` names, or in
the idle loop of the scheduler. User programs are arbitrary: they may store to
any page their tables let them write, and they trap with any register contents.
Growth of the kernel heap is an event of its own; inside a system call it
happens before the call touches any page table.
-/
namespace LightOS
open Lib

/-- Interrupt causes. An external interrupt carries the source claimed from the
PLIC and the bytes waiting in the UART FIFO. -/
inductive Interrupt where
  | timer
  | external (irq : ℕ) (input : List UInt8)
  | other (code : ℕ)

/-- What brings a process into the kernel. -/
inductive Cause where
  | interrupt (i : Interrupt)
  | ecall (io : Io)
  | fault (scause : ℕ)

/-- A trap from user mode: the register file that the trap vector saves. -/
structure UserTrap where
  regs : Fin 32 → UInt64
  sepc : UInt64
  sstatus : UInt64
  cause : Cause

inductive Event where
  /-- One round of the idle loop, with the interrupt that ended the wait. -/
  | idle (i : Option Interrupt)
  /-- The running process stores a byte. -/
  | store (va : ℕ) (b : UInt8)
  | trap (t : UserTrap)
  /-- The heap grows to serve an allocation of this size and alignment. -/
  | heapGrow (size align : ℕ)
  /-- The kernel creates a process from a program image; `kinit` does so for
  init. -/
  | spawn (disk : Disk) (name : List UInt8)

abbrev irqUart0 : ℕ := 10

/-- Count a tick; the addition after the atomic increment is checked. -/
def timerTick : KernelM Unit := do
  let k ← get
  let ticks ← Prog.ofExcept (checkedAdd k.ticks 1)
  set { k with ticks := ticks }

/-- Drain the UART into the ring and hand the input to a sleeping reader. -/
def handleInterrupt (input : List UInt8) : KernelM Unit := do
  let k ← get
  let (rx, got) := k.rx.receiveAll input
  set { k with rx := rx }
  if got then wakeConsoleReader

def externalInterrupt (irq : ℕ) (input : List UInt8) : KernelM Unit :=
  if irq = irqUart0 then handleInterrupt input else pure ()

/-- Interrupts taken while the kernel idles. -/
def trapHandler : Interrupt → KernelM Unit
  | .timer => timerTick
  | .external irq input => externalInterrupt irq input
  | .other _ => pure ()

/-- Trap entry from user mode, after the vector has saved the frame. -/
def usertrap : Cause → KernelM Unit
  | .interrupt .timer => do
    timerTick
    yieldCurrent
  | .interrupt (.external irq input) => do
    externalInterrupt irq input
    resumeCurrent
  | .interrupt (.other _) => resumeCurrent
  | .ecall io => do
    let k ← get
    let tf := k.frames k.current
    let sepc ← Prog.ofExcept (checkedAdd tf.sepc.toNat 4)
    setFrame k.current { tf with sepc := UInt64.ofNat sepc }
    dispatch io
  | .fault _ => do
    let _ ← currentInfo
    exitCurrent (-1)

/-- `__user_vec`: x1..x31, sepc and sstatus go to the frame of the process; the
x0 slot and the kernel stack pointer stay. -/
def saveFrame (tf : TrapFrame) (t : UserTrap) : TrapFrame :=
  { tf with
    regs := fun i => if i = 0 then tf.regs 0 else t.regs i
    sepc := t.sepc
    sstatus := t.sstatus }

def userVec (t : UserTrap) : KernelM Unit := do
  let k ← get
  set { k with sstatus := t.sstatus }
  setFrame k.current (saveFrame (k.frames k.current) t)

/-- The hardware's view of a user-mode store: the Sv39 walk must find valid
entries and a leaf with U and W. Only 4 KiB leaves occur. -/
def userWritable (m : Machine) (root va : ℕ) : Option ℕ :=
  let e2 := m.pte root (vpn va 2)
  let e1 := m.pte (pteAddr e2) (vpn va 1)
  let e0 := m.pte (pteAddr e1) (vpn va 0)
  -- Sv39 addresses are sign-extended from bit 38
  let canonical := va < 2 ^ 38 ∨ usizeBound - 2 ^ 38 ≤ va ∧ va < usizeBound
  if canonical ∧ pteValid e2 ∧ !pteLeaf e2 ∧ pteValid e1 ∧ !pteLeaf e1 ∧ pteValid e0 ∧
      pteUser e0 ∧ e0 &&& pteW ≠ 0 then
    some (pteAddr e0 + va % pageSize)
  else none

/-- Pages requested when the heap grows. -/
def growPages (size align : ℕ) : ℕ := max ((size + align) / pageSize + 1) 16

/-- The growth path of the kernel allocator; failure is fatal. -/
def heapGrow (size align : ℕ) : KernelM Unit := do
  match ← onMachineFor 0 (pageAlloc (growPages size align)) with
  | some addr =>
    modify fun k => { k with regions := ⟨.heap, addr, growPages size align⟩ :: k.regions }
  | none => Prog.stop (.panic .heapExhausted)

/-- One step of the machine. Events that do not fit the state of the hart do
not happen: they leave it unchanged. -/
def step (e : Event) : KernelM Unit := do
  let k ← get
  match e with
  | .idle i =>
    if k.current = noProc then do
      match i with
      | some i => trapHandler i
      | none => pure ()
      schedule
    else pure ()
  | .store va b =>
    if k.current = noProc then pure ()
    else do
      let p ← procAt k.current
      match userWritable k.machine p.rootPa va with
      | some pa => onMachine (modify fun m => { m with mem := writeBytes m.mem pa [b] })
      | none => pure ()
  | .trap t =>
    if k.current = noProc then pure ()
    else do
      userVec t
      usertrap t.cause
  | .heapGrow size align => heapGrow size align
  | .spawn disk name =>
    if k.current = noProc then do
      let _ ← spawn disk name
    else pure ()

end LightOS
