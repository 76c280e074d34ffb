import LightOS.Nce
import LightOS.Uart
import LightOS.Lib.Riscv

/-!
# Processes

Control blocks, the process table, trap frames and the lifecycle operations of
`kernel/sched/process.rs`, with the scheduler that they jump to. The kernel is
not preemptible: every operation runs from one trap to the next return to user
mode (`current` names the slot that runs) or to the idle loop (`current` is
`noProc`). A function that never returns in the source ends here in the state
in which the scheduler leaves the kernel.
-/
namespace LightOS
open Lib

abbrev maxProcs : ℕ := 64
/-- Slot index meaning "no process". -/
abbrev noProc : ℕ := usizeBound - 1
abbrev userStackTop : ℕ := 0x7ffff000
abbrev userStackPages : ℕ := 16
abbrev mmapBase : ℕ := 0x50000000

inductive ProcState where
  | ready
  | running
  /-- Blocked in wait4 until a child exits. -/
  | sleepChild
  /-- Blocked in read(0) until console input arrives. -/
  | sleepConsole
  /-- Exited; kept until the parent reaps it. -/
  | zombie
  deriving DecidableEq, Repr

def ProcState.asStr : ProcState → String
  | ready => "ready"
  | running => "run"
  | sleepChild => "wait"
  | sleepConsole => "sleep"
  | zombie => "zombie"

/-- What an fd from 3 on refers to. The serial of a socket descriptor is history
only: it names the `alloc` call that made the socket. -/
inductive FdKind where
  | file (ino : ℕ)
  | nce (slot : ℕ)
  | socket (idx serial : ℕ)
  deriving DecidableEq, Repr

structure OpenFile where
  kind : FdKind
  /-- Byte offset for files, entry index for directories. -/
  pos : ℕ
  deriving DecidableEq, Repr

structure Process where
  pid : ℕ
  state : ProcState
  /-- Slot index of the parent (`noProc` for init). -/
  parent : ℕ
  rootPa : ℕ
  exitCode : ℤ
  waitStatusUva : ℕ
  readBufUva : ℕ
  readLen : ℕ
  nextMmap : ℕ
  brk : ℕ
  name : List UInt8
  /-- Open files, indexed by fd - 3. -/
  files : List (Option OpenFile)
  nceAffinity : ℕ
  deriving DecidableEq, Repr

structure ProcTable where
  slots : ℕ → Option Process
  nextPid : ℕ
  lastRun : ℕ

def ProcTable.setSlot (t : ProcTable) (i : ℕ) (p : Option Process) : ProcTable :=
  { t with slots := fun j => if j = i then p else t.slots j }

/-- `slots.iter().position(..)`. -/
def ProcTable.position (t : ProcTable) (f : Option Process → Bool) : Option ℕ :=
  (List.range maxProcs).find? fun i => f (t.slots i)

/-- Register state saved on a trap from user mode. -/
structure TrapFrame where
  regs : Fin 32 → UInt64
  sepc : UInt64
  sstatus : UInt64
  kernelSp : UInt64

namespace TrapFrame

def zeroed : TrapFrame := ⟨fun _ => 0, 0, 0, 0⟩

def reg (tf : TrapFrame) (i : Fin 32) : ℕ := (tf.regs i).toNat

def setReg (tf : TrapFrame) (i : Fin 32) (v : ℕ) : TrapFrame :=
  { tf with regs := fun j => if j = i then UInt64.ofNat v else tf.regs j }

def a0 (tf : TrapFrame) : ℕ := tf.reg 10
def a1 (tf : TrapFrame) : ℕ := tf.reg 11
def a2 (tf : TrapFrame) : ℕ := tf.reg 12
def a4 (tf : TrapFrame) : ℕ := tf.reg 14
def a5 (tf : TrapFrame) : ℕ := tf.reg 15
def a7 (tf : TrapFrame) : ℕ := tf.reg 17
def setA0 (tf : TrapFrame) (v : ℕ) : TrapFrame := tf.setReg 10 v

end TrapFrame

/-- What happened to a process, newest entry last. History only. -/
inductive ProcEvent where
  /-- Process `parent` created process `child`. -/
  | forked (parent child : ℕ)
  | exited (pid : ℕ) (code : ℤ)
  /-- A wait4 of `waiter` completed with `child`, freeing its slot. -/
  | reaped (waiter child : ℕ)
  /-- A wait4 of `waiter` returned ECHILD. -/
  | noChild (waiter : ℕ)
  deriving DecidableEq, Repr

/-- What the kernel keeps a run of frames for. -/
inductive RegionKind where
  | heap
  | device
  deriving DecidableEq, Repr

/-- A run of `pages` frames from physical address `addr`. -/
structure Region where
  kind : RegionKind
  addr : ℕ
  pages : ℕ
  deriving DecidableEq, Repr

/-- The whole kernel state between two steps. -/
structure Kernel where
  machine : Machine
  /-- The memory given to the kernel heap and to device queues. -/
  regions : List Region
  procs : ProcTable
  frames : ℕ → TrapFrame
  current : ℕ
  net : NetState
  rx : RxRing
  nces : List Nce
  fs : Fs
  ticks : ℕ
  /-- The `sstatus` CSR as the kernel reads it. -/
  sstatus : UInt64
  /-- Top of the boot hart's kernel stack. -/
  kernelStackTop : UInt64
  history : List ProcEvent

abbrev KernelM := Prog Kernel Fault

/-- A memory operation on the kernel's machine. -/
def onMachine {α : Type} (x : MachineM α) : KernelM α :=
  Prog.zoom Kernel.machine (fun m k => { k with machine := m }) x

/-- A memory operation whose frames are handed out on behalf of `pid`. -/
def onMachineFor {α : Type} (pid : ℕ) (x : MachineM α) : KernelM α := do
  onMachine (modify fun m => { m with account := pid })
  onMachine x

def onNet {α : Type} (x : NetM α) : KernelM α :=
  Prog.zoom Kernel.net (fun n k => { k with net := n }) x

/-- `procs.slots[i]`, out of range from `maxProcs` on. -/
def slotAt (i : ℕ) : KernelM (Option Process) := do
  if i < maxProcs then return (← get).procs.slots i
  else Prog.stop (.panic .indexOutOfRange)

/-- `procs.slots[i].as_ref().expect(..)`. -/
def procAt (i : ℕ) : KernelM Process := do
  match ← slotAt i with
  | some p => return p
  | none => Prog.stop (.panic .expectFailed)

def setProc (i : ℕ) (p : Option Process) : KernelM Unit :=
  modify fun k => { k with procs := k.procs.setSlot i p }

def setFrame (i : ℕ) (tf : TrapFrame) : KernelM Unit :=
  modify fun k => { k with frames := fun j => if j = i then tf else k.frames j }

def record (e : ProcEvent) : KernelM Unit :=
  modify fun k => { k with history := k.history ++ [e] }

/-- Bytes after the terminator keep their old values. -/
def setName (dst name : List UInt8) : List UInt8 :=
  let n := min name.length 15
  name.take n ++ 0 :: dst.drop (n + 1)

def zeroName : List UInt8 := List.replicate 16 0

/-! ### Address spaces -/

/-- Map the user stack of a new image. -/
def mapStack (root : ℕ) : MachineM (Except String Unit) :=
  Prog.tryEach (fun i => do
    match ← pageAlloc 1 with
    | none => return .error "proc: out of memory for stack"
    | some frame =>
      PageTable.map root (userStackTop - userStackPages * pageSize + i * pageSize) frame
        (pteU ||| pteR ||| pteW)) (List.range userStackPages)

/-- A fresh user address space for `image`: (root_pa, entry, brk). On failure
what was built so far stays allocated. -/
def buildAddressSpace (image : List UInt8) : MachineM (Except String (ℕ × ℕ × ℕ)) := do
  match ← newUserRoot with
  | none => return .error "proc: out of memory for root table"
  | some root =>
    match ← Elf.load image root with
    | .error e => return .error e
    | .ok loaded =>
      match ← mapStack root with
      | .error e => return .error e
      | .ok _ => return .ok (root, loaded.entry, loaded.brk)

/-! ### Scheduling -/

/-- The slots after `start`, in the order `pick_next` tries them. -/
def pickOrder (start : ℕ) : List ℕ := (List.range maxProcs).map fun i => (start + (i + 1)) % maxProcs

/-- Choose the next Ready slot and mark it Running. -/
def pickNext : KernelM (Option ℕ) := do
  let k ← get
  match (pickOrder k.procs.lastRun).find? fun i =>
      (k.procs.slots i).any (·.state = .ready) with
  | none => return none
  | some slot =>
    let p ← procAt slot
    setProc slot (some { p with state := .running })
    modify fun k => { k with procs := { k.procs with lastRun := slot } }
    return some slot

/-- The `sstatus` value for entering user mode: SPP cleared, SPIE and SUM set. -/
def userSstatus (csr : UInt64) : UInt64 := (csr &&& ~~~0x100) ||| 0x20 ||| 0x40000

/-- Hand the hart to the process in `slot`; only `sstatus` of its frame changes. -/
def enterUser (slot : ℕ) : KernelM Unit := do
  let k ← get
  setFrame slot { k.frames slot with sstatus := userSstatus k.sstatus }

/-- Pick a process and enter it, or stay idle. -/
def schedule : KernelM Unit := do
  match ← pickNext with
  | some slot =>
    modify fun k => { k with current := slot }
    enterUser slot
  | none => pure ()

/-- Give up the hart. -/
def park : KernelM Unit := do
  modify fun k => { k with current := noProc }
  schedule

def yieldCurrent : KernelM Unit := do
  let cur := (← get).current
  match ← slotAt cur with
  | some p => if p.state = .running then setProc cur (some { p with state := .ready })
  | none => pure ()
  park

def resumeCurrent : KernelM Unit := do
  let cur := (← get).current
  let _ ← procAt cur
  enterUser cur

/-- (root_pa, pid) of the current process. -/
def currentInfo : KernelM (ℕ × ℕ) := do
  let p ← procAt (← get).current
  return (p.rootPa, p.pid)

/-! ### Lifecycle -/

def freshProcess (pid parent rootPa nextMmap brk : ℕ) (name : List UInt8)
    (files : List (Option OpenFile)) : Process :=
  { pid, state := .ready, parent, rootPa, exitCode := 0, waitStatusUva := 0, readBufUva := 0,
    readLen := 0, nextMmap, brk, name, files, nceAffinity := 0 }

/-- The frame a program image starts with. -/
def entryFrame (entry : ℕ) (sp : UInt64) : TrapFrame :=
  { TrapFrame.zeroed.setReg 2 userStackTop with sepc := UInt64.ofNat entry, kernelSp := sp }

/-- Create a process from a program image (used for init). -/
def spawn (disk : Disk) (name : List UInt8) : KernelM (Except String ℕ) := do
  match ← Prog.ofExcept ((← get).fs.loadProgram disk name) with
  | none => return .error "proc: no such program"
  | some image =>
    match ← onMachineFor (← get).procs.nextPid (buildAddressSpace image) with
    | .error e => return .error e
    | .ok (rootPa, entry, brk) =>
      let k ← get
      match k.procs.position (·.isNone) with
      | none => return .error "proc: process table full"
      | some slot =>
        let pid := k.procs.nextPid
        let next ← Prog.ofExcept (checkedAdd pid 1)
        modify fun k => { k with procs := { k.procs with nextPid := next } }
        setFrame slot (entryFrame entry k.kernelStackTop)
        setProc slot (some (freshProcess pid noProc rootPa mmapBase brk (setName zeroName name) []))
        return .ok pid

/-- fork(): the child's pid, or a negative error. -/
def forkCurrent (tf : TrapFrame) : KernelM ℤ := do
  let k ← get
  let cur := k.current
  match k.procs.position (·.isNone) with
  | none => return -11
  | some slot =>
    let p ← procAt cur
    match ← onMachineFor k.procs.nextPid newUserRoot with
    | none => return -12
    | some childRoot =>
      match ← onMachine (cloneUserSpace p.rootPa childRoot) with
      | .error _ =>
        onMachine (freeUserSpace childRoot)
        onMachine (pageFree childRoot 1)
        return -12
      | .ok _ =>
        let pid := k.procs.nextPid
        let next ← Prog.ofExcept (checkedAdd pid 1)
        modify fun k => { k with procs := { k.procs with nextPid := next } }
        setFrame slot { tf.setA0 0 with kernelSp := k.kernelStackTop }
        setProc slot (some (freshProcess pid cur childRoot p.nextMmap p.brk p.name p.files))
        record (.forked p.pid pid)
        return pid

/-- execve(): 0, or a negative error with the caller intact. Writes the new
entry frame on success. -/
def execCurrent (disk : Disk) (name : List UInt8) : KernelM ℤ := do
  match ← Prog.ofExcept ((← get).fs.loadProgram disk name) with
  | none => return -2
  | some image =>
    let k ← get
    let caller ← procAt k.current
    match ← onMachineFor caller.pid (buildAddressSpace image) with
    | .error _ => return -12
    | .ok (newRoot, entry, brk) =>
      let p ← procAt k.current
      onMachine (freeUserSpace p.rootPa)
      onMachine (pageFree p.rootPa 1)
      setProc k.current (some { p with
        rootPa := newRoot, nextMmap := mmapBase, brk := brk, name := setName p.name name })
      setFrame k.current (entryFrame entry k.kernelStackTop)
      return 0

/-- `wstatus.to_le_bytes()` of `(code & 0xff) << 8`. -/
def wstatusBytes (code : ℤ) : List UInt8 := [0, UInt8.ofNat (code % 256).toNat, 0, 0]

/-- Reap the zombie in `childSlot` on behalf of `parentSlot`. -/
def completeWait (parentSlot childSlot : ℕ) : KernelM Unit := do
  let c ← procAt childSlot
  let p ← procAt parentSlot
  setProc parentSlot (some { p with state := .ready })
  if p.waitStatusUva ≠ 0 then
    let _ ← onMachine (copyOut p.rootPa p.waitStatusUva (wstatusBytes c.exitCode))
  setFrame parentSlot (((← get).frames parentSlot).setA0 c.pid)
  onMachine (pageFree c.rootPa 1)
  setProc childSlot none
  record (.reaped p.pid c.pid)

/-- Orphans of `cur` go to init. -/
def reparent (cur : ℕ) (initSlot : Option ℕ) (t : ProcTable) : ProcTable :=
  { t with slots := fun i =>
      (t.slots i).map fun p => if p.parent = cur then { p with parent := initSlot.getD noProc } else p }

/-- exit(): never returns to the caller. -/
def exitCurrent (code : ℤ) : KernelM Unit := do
  let cur := (← get).current
  let p ← procAt cur
  if p.pid = 1 then Prog.stop (.panic (.initExited code))
  onMachine (freeUserSpace p.rootPa)
  let k ← get
  let initSlot := k.procs.position fun s => s.any (·.pid = 1)
  modify fun k => { k with procs := reparent cur initSlot k.procs }
  let q ← procAt cur
  setProc cur (some { q with state := .zombie, exitCode := code })
  record (.exited p.pid code)
  -- a parent already blocked in wait4 is completed now
  if p.parent ≠ noProc then
    match ← slotAt p.parent with
    | some par => if par.state = .sleepChild then completeWait p.parent cur
    | none => pure ()
  park

/-- The scan of `wait_current`: whether there is a child, and the first zombie. -/
def waitScan (t : ProcTable) (cur : ℕ) : Bool × Option ℕ :=
  let zombie := (List.range maxProcs).find? fun i =>
    (t.slots i).any fun p => p.parent = cur && p.state = .zombie
  ((List.range maxProcs).any fun i => (t.slots i).any (·.parent = cur), zombie)

/-- wait4(): reap a zombie child now, or block until one exits. -/
def waitCurrent (statusUva : ℕ) : KernelM Unit := do
  let k ← get
  let cur := k.current
  let (haveChild, zombie) := waitScan k.procs cur
  let p ← procAt cur
  let p := { p with waitStatusUva := statusUva }
  match zombie with
  | some childSlot =>
    setProc cur (some { p with state := .sleepChild })
    completeWait cur childSlot
  | none =>
    if haveChild then setProc cur (some { p with state := .sleepChild })
    else do
      setProc cur (some { p with state := .ready })
      setFrame cur ((k.frames cur).setA0 (ofIsize (-10)))
      record (.noChild p.pid)
  park

/-- Console input arrived: complete the read of the first sleeping reader. -/
def wakeConsoleReader : KernelM Unit := do
  let k ← get
  match k.procs.position fun s => s.any (·.state = .sleepConsole) with
  | none => pure ()
  | some slot =>
    let p ← procAt slot
    let (bytes, rx) := k.rx.readBytes (min p.readLen 128)
    modify fun k => { k with rx := rx }
    if bytes = [] then pure ()
    else
      let r ← onMachine (copyOut p.rootPa p.readBufUva bytes)
      let a0 := match r with
        | .ok _ => bytes.length
        | .error _ => ofIsize (-14)
      setFrame slot (((← get).frames slot).setA0 a0)
      setProc slot (some { p with state := .ready })

/-- Park the caller until console input arrives. -/
def blockOnConsole (bufUva len : ℕ) : KernelM Unit := do
  let cur := (← get).current
  let p ← procAt cur
  setProc cur (some { p with state := .sleepConsole, readBufUva := bufUva, readLen := len })
  park

/-! ### Listings -/

/-- Number of occupied slots. -/
def countActive (t : ProcTable) : ℕ := (List.range maxProcs).countP fun i => (t.slots i).isSome

def padLeft (w : ℕ) (s : String) : String := String.ofList (List.replicate (w - s.length) ' ') ++ s
def padRight (w : ℕ) (s : String) : String := s ++ String.ofList (List.replicate (w - s.length) ' ')

/-- One line of the `ps` listing. A parent index out of range panics. -/
def listingLine (t : ProcTable) (p : Process) : Except Fault (List UInt8) := do
  let name := p.name.takeWhile (· ≠ 0)
  let name := if utf8Valid name then name else asciiBytes "?"
  let ppid ←
    if p.parent = noProc then pure 0
    else if p.parent < maxProcs then pure ((t.slots p.parent).elim 0 (·.pid))
    else .error (.panic .indexOutOfRange)
  return asciiBytes (padLeft 5 (toString p.pid) ++ " " ++ padLeft 5 (toString ppid) ++ "  " ++
    padRight 7 p.state.asStr ++ " ") ++ name ++ [0x0a]

/-- The lines of all occupied slots. -/
def listingLines (t : ProcTable) : List ℕ → Except Fault (List UInt8)
  | [] => .ok []
  | i :: rest => do
    let line ← match t.slots i with
      | some p => listingLine t p
      | none => pure []
    let more ← listingLines t rest
    return line ++ more

/-- The `ps`-style listing of all processes. -/
def listing (t : ProcTable) : Except Fault (List UInt8) := do
  let lines ← listingLines t (List.range maxProcs)
  return asciiBytes "  PID  PPID  STATE   NAME\n" ++ lines

end LightOS
