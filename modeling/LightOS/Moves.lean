import LightOS.Trap

/-!
# What a step can do

Every step of the machine is a short sequence of moves. A move says exactly what
happens to the process table, the trap frames, the socket table, the history and
the memory, and what the event of the step had to be for it to happen. All
invariants of the kernel are proved against the moves; this module is the only
one that reads the system calls.
-/
namespace LightOS
open Lib

/-! ### Returning runs of the primitives -/

section Primitives

variable {α : Type} {k k' : Kernel}

theorem onMachine_ok {x : MachineM α} {a : α} :
    onMachine x k = .ok (a, k') ↔ ∃ m, x k.machine = .ok (a, m) ∧ k' = { k with machine := m } := by
  rw [onMachine, Prog.zoom_ok]
  constructor
  · rintro ⟨b, m, h, he⟩
    obtain ⟨rfl, rfl⟩ := Prod.mk.inj he
    exact ⟨m, h, rfl⟩
  · rintro ⟨m, h, rfl⟩
    exact ⟨a, m, h, rfl⟩

theorem onMachineFor_ok {x : MachineM α} {pid : ℕ} {a : α} :
    onMachineFor pid x k = .ok (a, k') ↔
      ∃ m, x { k.machine with account := pid } = .ok (a, m) ∧ k' = { k with machine := m } := by
  rw [onMachineFor, Prog.bind_ok]
  constructor
  · rintro ⟨_, k1, h1, h2⟩
    obtain ⟨m1, hm, rfl⟩ := onMachine_ok.mp h1
    obtain ⟨m, h3, rfl⟩ := onMachine_ok.mp h2
    obtain rfl := Prog.modify_ok.mp hm
    exact ⟨m, h3, rfl⟩
  · rintro ⟨m, h, rfl⟩
    refine ⟨⟨⟩, { k with machine := { k.machine with account := pid } }, ?_, ?_⟩
    · exact onMachine_ok.mpr ⟨_, rfl, rfl⟩
    · exact onMachine_ok.mpr ⟨m, h, rfl⟩

theorem onNet_ok {x : NetM α} {a : α} :
    onNet x k = .ok (a, k') ↔ ∃ n, x k.net = .ok (a, n) ∧ k' = { k with net := n } := by
  rw [onNet, Prog.zoom_ok]
  constructor
  · rintro ⟨b, n, h, he⟩
    obtain ⟨rfl, rfl⟩ := Prod.mk.inj he
    exact ⟨n, h, rfl⟩
  · rintro ⟨n, h, rfl⟩
    exact ⟨a, n, h, rfl⟩

theorem slotAt_ok {i : ℕ} {o : Option Process} :
    slotAt i k = .ok (o, k') ↔ i < maxProcs ∧ o = k.procs.slots i ∧ k' = k := by
  unfold slotAt
  split_ifs with h
  · rw [Prog.bind_ok]
    simp only [Prog.get_ok, Prod.mk.injEq, Prog.pure_ok, h, true_and]
    constructor
    · rintro ⟨_, _, ⟨rfl, rfl⟩, rfl, rfl⟩
      exact ⟨rfl, rfl⟩
    · rintro ⟨rfl, rfl⟩
      exact ⟨_, _, ⟨rfl, rfl⟩, rfl, rfl⟩
  · simp [h]

theorem procAt_ok {i : ℕ} {p : Process} :
    procAt i k = .ok (p, k') ↔ i < maxProcs ∧ k.procs.slots i = some p ∧ k' = k := by
  unfold procAt
  rw [Prog.bind_ok]
  constructor
  · rintro ⟨o, k1, h1, h2⟩
    obtain ⟨hi, rfl, rfl⟩ := slotAt_ok.mp h1
    cases hs : k1.procs.slots i with
    | none => simp [hs] at h2
    | some q =>
      simp only [hs, Prog.pure_ok, Prod.mk.injEq] at h2
      exact ⟨hi, by rw [h2.1], h2.2⟩
  · rintro ⟨hi, hs, rfl⟩
    exact ⟨_, _, slotAt_ok.mpr ⟨hi, rfl, rfl⟩, by simp [hs]⟩

/-- The kernel with another process in slot `i`. -/
def Kernel.setSlot (k : Kernel) (i : ℕ) (p : Option Process) : Kernel :=
  { k with procs := k.procs.setSlot i p }

/-- The kernel with another trap frame for slot `i`. -/
def Kernel.withFrame (k : Kernel) (i : ℕ) (tf : TrapFrame) : Kernel :=
  { k with frames := fun j => if j = i then tf else k.frames j }

/-- The kernel with a longer history. -/
def Kernel.log (k : Kernel) (e : ProcEvent) : Kernel := { k with history := k.history ++ [e] }

/-- The kernel after the process in `current` gave up the hart. -/
def Kernel.idle (k : Kernel) : Kernel := { k with current := noProc }

@[simp] theorem Kernel.setSlot_machine (i : ℕ) (p : Option Process) : (k.setSlot i p).machine = k.machine := rfl
@[simp] theorem Kernel.setSlot_regions (i : ℕ) (p : Option Process) : (k.setSlot i p).regions = k.regions := rfl
@[simp] theorem Kernel.setSlot_frames (i : ℕ) (p : Option Process) : (k.setSlot i p).frames = k.frames := rfl
@[simp] theorem Kernel.setSlot_current (i : ℕ) (p : Option Process) : (k.setSlot i p).current = k.current := rfl
@[simp] theorem Kernel.setSlot_net (i : ℕ) (p : Option Process) : (k.setSlot i p).net = k.net := rfl
@[simp] theorem Kernel.setSlot_history (i : ℕ) (p : Option Process) : (k.setSlot i p).history = k.history := rfl
@[simp] theorem Kernel.setSlot_fs (i : ℕ) (p : Option Process) : (k.setSlot i p).fs = k.fs := rfl
@[simp] theorem Kernel.setSlot_rx (i : ℕ) (p : Option Process) : (k.setSlot i p).rx = k.rx := rfl
@[simp] theorem Kernel.setSlot_sstatus (i : ℕ) (p : Option Process) : (k.setSlot i p).sstatus = k.sstatus := rfl
@[simp] theorem Kernel.setSlot_kernelStackTop (i : ℕ) (p : Option Process) : (k.setSlot i p).kernelStackTop = k.kernelStackTop := rfl
@[simp] theorem Kernel.withFrame_machine (i : ℕ) (tf : TrapFrame) : (k.withFrame i tf).machine = k.machine := rfl
@[simp] theorem Kernel.withFrame_regions (i : ℕ) (tf : TrapFrame) : (k.withFrame i tf).regions = k.regions := rfl
@[simp] theorem Kernel.withFrame_procs (i : ℕ) (tf : TrapFrame) : (k.withFrame i tf).procs = k.procs := rfl
@[simp] theorem Kernel.withFrame_current (i : ℕ) (tf : TrapFrame) : (k.withFrame i tf).current = k.current := rfl
@[simp] theorem Kernel.withFrame_net (i : ℕ) (tf : TrapFrame) : (k.withFrame i tf).net = k.net := rfl
@[simp] theorem Kernel.withFrame_history (i : ℕ) (tf : TrapFrame) : (k.withFrame i tf).history = k.history := rfl
@[simp] theorem Kernel.withFrame_fs (i : ℕ) (tf : TrapFrame) : (k.withFrame i tf).fs = k.fs := rfl
@[simp] theorem Kernel.withFrame_rx (i : ℕ) (tf : TrapFrame) : (k.withFrame i tf).rx = k.rx := rfl
@[simp] theorem Kernel.withFrame_sstatus (i : ℕ) (tf : TrapFrame) : (k.withFrame i tf).sstatus = k.sstatus := rfl
@[simp] theorem Kernel.withFrame_kernelStackTop (i : ℕ) (tf : TrapFrame) : (k.withFrame i tf).kernelStackTop = k.kernelStackTop := rfl
@[simp] theorem Kernel.log_machine (e : ProcEvent) : (k.log e).machine = k.machine := rfl
@[simp] theorem Kernel.log_regions (e : ProcEvent) : (k.log e).regions = k.regions := rfl
@[simp] theorem Kernel.log_procs (e : ProcEvent) : (k.log e).procs = k.procs := rfl
@[simp] theorem Kernel.log_frames (e : ProcEvent) : (k.log e).frames = k.frames := rfl
@[simp] theorem Kernel.log_current (e : ProcEvent) : (k.log e).current = k.current := rfl
@[simp] theorem Kernel.log_net (e : ProcEvent) : (k.log e).net = k.net := rfl
@[simp] theorem Kernel.log_fs (e : ProcEvent) : (k.log e).fs = k.fs := rfl
@[simp] theorem Kernel.idle_machine : k.idle.machine = k.machine := rfl
@[simp] theorem Kernel.idle_regions : k.idle.regions = k.regions := rfl
@[simp] theorem Kernel.idle_procs : k.idle.procs = k.procs := rfl
@[simp] theorem Kernel.idle_frames : k.idle.frames = k.frames := rfl
@[simp] theorem Kernel.idle_net : k.idle.net = k.net := rfl
@[simp] theorem Kernel.idle_history : k.idle.history = k.history := rfl
@[simp] theorem Kernel.idle_fs : k.idle.fs = k.fs := rfl
@[simp] theorem Kernel.idle_current : k.idle.current = noProc := rfl
@[simp] theorem Kernel.log_history (e : ProcEvent) : (k.log e).history = k.history ++ [e] := rfl

@[simp] theorem Kernel.setSlot_self (i : ℕ) (p : Option Process) :
    (k.setSlot i p).procs.slots i = p := if_pos rfl

theorem Kernel.setSlot_slots (i j : ℕ) (p : Option Process) :
    (k.setSlot i p).procs.slots j = if j = i then p else k.procs.slots j := rfl

@[simp] theorem Kernel.withFrame_self (i : ℕ) (tf : TrapFrame) :
    (k.withFrame i tf).frames i = tf := if_pos rfl

theorem Kernel.withFrame_frames (i j : ℕ) (tf : TrapFrame) :
    (k.withFrame i tf).frames j = if j = i then tf else k.frames j := rfl

/-- The last frame written counts. -/
theorem Kernel.withFrame_twice {i : ℕ} {f : TrapFrame → TrapFrame} {tf : TrapFrame} :
    (k.withFrame i tf).withFrame i (f ((k.withFrame i tf).frames i)) = k.withFrame i (f tf) := by
  have h : ∀ tf', (k.withFrame i tf).withFrame i tf' = k.withFrame i tf' := by
    intro tf'
    unfold Kernel.withFrame
    congr 1
    funext j
    dsimp only
    split_ifs <;> rfl
  rw [h, Kernel.withFrame_self]

theorem Kernel.setSlot_same (i : ℕ) : k.setSlot i (k.procs.slots i) = k := by
  have h : k.procs.setSlot i (k.procs.slots i) = k.procs := by
    unfold ProcTable.setSlot
    congr 1
    funext j
    split_ifs with hj
    · rw [hj]
    · rfl
  rw [Kernel.setSlot, h]

theorem setProc_ok {i : ℕ} {p : Option Process} {u : Unit} :
    setProc i p k = .ok (u, k') ↔ k' = k.setSlot i p := Prog.modify_ok

theorem setFrame_ok {i : ℕ} {tf : TrapFrame} {u : Unit} :
    setFrame i tf k = .ok (u, k') ↔ k' = k.withFrame i tf := Prog.modify_ok

theorem record_ok {e : ProcEvent} {u : Unit} : record e k = .ok (u, k') ↔ k' = k.log e :=
  Prog.modify_ok

/-! Sequencing after a primitive. -/

variable {β : Type} {r : β × Kernel}

theorem onMachine_bind {x : MachineM α} {f : α → KernelM β} : (onMachine x >>= f) k = .ok r ↔
    ∃ a m, x k.machine = .ok (a, m) ∧ f a { k with machine := m } = .ok r := by
  rw [Prog.bind_ok]
  constructor
  · rintro ⟨a, k1, h1, h2⟩
    obtain ⟨m, h3, rfl⟩ := onMachine_ok.mp h1
    exact ⟨a, m, h3, h2⟩
  · rintro ⟨a, m, h1, h2⟩
    exact ⟨a, _, onMachine_ok.mpr ⟨m, h1, rfl⟩, h2⟩

theorem slotAt_bind {i : ℕ} {f : Option Process → KernelM β} : (slotAt i >>= f) k = .ok r ↔
    i < maxProcs ∧ f (k.procs.slots i) k = .ok r := by
  rw [Prog.bind_ok]
  constructor
  · rintro ⟨o, k1, h1, h2⟩
    obtain ⟨hi, rfl, rfl⟩ := slotAt_ok.mp h1
    exact ⟨hi, h2⟩
  · rintro ⟨hi, h2⟩
    exact ⟨_, _, slotAt_ok.mpr ⟨hi, rfl, rfl⟩, h2⟩

theorem procAt_bind {i : ℕ} {f : Process → KernelM β} : (procAt i >>= f) k = .ok r ↔
    ∃ p, i < maxProcs ∧ k.procs.slots i = some p ∧ f p k = .ok r := by
  rw [Prog.bind_ok]
  constructor
  · rintro ⟨p, k1, h1, h2⟩
    obtain ⟨hi, hp, rfl⟩ := procAt_ok.mp h1
    exact ⟨p, hi, hp, h2⟩
  · rintro ⟨p, hi, hp, h2⟩
    exact ⟨p, _, procAt_ok.mpr ⟨hi, hp, rfl⟩, h2⟩

theorem setProc_bind {i : ℕ} {p : Option Process} {f : Unit → KernelM β} :
    (setProc i p >>= f) k = .ok r ↔ f () (k.setSlot i p) = .ok r := Prog.modify_bind_ok

theorem setFrame_bind {i : ℕ} {tf : TrapFrame} {f : Unit → KernelM β} :
    (setFrame i tf >>= f) k = .ok r ↔ f () (k.withFrame i tf) = .ok r := Prog.modify_bind_ok

theorem record_bind {e : ProcEvent} {f : Unit → KernelM β} :
    (record e >>= f) k = .ok r ↔ f () (k.log e) = .ok r := Prog.modify_bind_ok

end Primitives

/-! ### The moves -/

/-- Only devices, counters and socket queues have changed. -/
structure Quiet (k k' : Kernel) : Prop where
  machine : k'.machine = k.machine
  regions : k'.regions = k.regions
  procs : k'.procs = k.procs
  frames : k'.frames = k.frames
  current : k'.current = k.current
  sockets : k.net.sockets.SameAlloc k'.net.sockets
  fs : k'.fs = k.fs
  kernelStackTop : k'.kernelStackTop = k.kernelStackTop
  history : k'.history = k.history

/-- The frame of a process that has just trapped; an ecall resumes after the
instruction. -/
def trapFrame (t : UserTrap) (tf : TrapFrame) : TrapFrame :=
  match t.cause with
  | .ecall _ => { saveFrame tf t with sepc := UInt64.ofNat (t.sepc.toNat + 4) }
  | _ => saveFrame tf t

/-- The kernel on entry to the trap handler proper. -/
def trapState (t : UserTrap) (k : Kernel) : Kernel :=
  { k with sstatus := t.sstatus }.withFrame k.current (trapFrame t (k.frames k.current))

@[simp] theorem trapState_machine (t : UserTrap) (k : Kernel) : (trapState t k).machine = k.machine := rfl
@[simp] theorem trapState_regions (t : UserTrap) (k : Kernel) : (trapState t k).regions = k.regions := rfl
@[simp] theorem trapState_procs (t : UserTrap) (k : Kernel) : (trapState t k).procs = k.procs := rfl
@[simp] theorem trapState_current (t : UserTrap) (k : Kernel) : (trapState t k).current = k.current := rfl
@[simp] theorem trapState_net (t : UserTrap) (k : Kernel) : (trapState t k).net = k.net := rfl
@[simp] theorem trapState_history (t : UserTrap) (k : Kernel) : (trapState t k).history = k.history := rfl
@[simp] theorem trapState_fs (t : UserTrap) (k : Kernel) : (trapState t k).fs = k.fs := rfl

/-- The event is the system call `no` of trap `t`. -/
structure Call (e : Event) (t : UserTrap) (io : Io) (no : Sysno) : Prop where
  event : e = .trap t
  cause : t.cause = .ecall io
  nr : Sysno.ofNr (t.regs 17).toNat = no

/-- An argument register of a trap. -/
def UserTrap.arg (t : UserTrap) (i : Fin 32) : ℕ := (t.regs i).toNat

/-- The socket and serial that a descriptor names. -/
def sockOf : Option OpenFile → Option (ℕ × ℕ)
  | some ⟨.socket idx serial, _⟩ => some (idx, serial)
  | _ => none

/-- The socket and serial behind the `i`-th open file. -/
def Process.sock (p : Process) (i : ℕ) : Option (ℕ × ℕ) := sockOf (p.files[i]?).join

/-- The process differs only in data of its own that no other process can see:
files that are not sockets, the mmap pointer, its affinity mask. -/
structure OwnFields (p p' : Process) : Prop where
  eq : p' = { p with files := p'.files, nextMmap := p'.nextMmap, nceAffinity := p'.nceAffinity }
  sock : ∀ i, p'.sock i = p.sock i
  aligned : p.nextMmap % pageSize = 0 → p'.nextMmap % pageSize = 0
  mmap_le : p.nextMmap ≤ p'.nextMmap

/-- Memory operations of a system call on behalf of its caller `p`. -/
inductive MemOp (e : Event) (k : Kernel) (p : Process) : Machine → Machine → Prop
  | copyOut {m m' : Machine} {uva : ℕ} {bs : List UInt8} {r : Except String Unit}
      (h : copyOut p.rootPa uva bs m = .ok (r, m')) : MemOp e k p m m'
  | mmap {t : UserTrap} {io : Io} {p0 : Process} {m' : Machine} {r : Except Unit Unit}
      (hc : Call e t io .mmap) (hlen : t.arg 11 ≠ 0) (hp0 : k.procs.slots k.current = some p0)
      (hroot : p.rootPa = p0.rootPa) (hend : p0.nextMmap + pagesOf (t.arg 11) * pageSize < usizeBound)
      (h : mmapPages p0.rootPa p0.nextMmap (pagesOf (t.arg 11))
        { k.machine with account := p0.pid } = .ok (r, m')) : MemOp e k p k.machine m'
  | munmap {t : UserTrap} {io : Io} {m' : Machine} (hc : Call e t io .munmap)
      (hva : t.arg 10 % pageSize = 0) (hlen : t.arg 11 ≠ 0)
      (h : munmapPages p.rootPa (t.arg 10) (pagesOf (t.arg 11)) k.machine = .ok ((), m')) :
      MemOp e k p k.machine m'
  | forkNone {t : UserTrap} {io : Io} {m' : Machine} (hc : Call e t io .clone)
      (h : newUserRoot { k.machine with account := k.procs.nextPid } = .ok (none, m')) :
      MemOp e k p k.machine m'
  | forkUndo {t : UserTrap} {io : Io} {r : ℕ} {err : String} {m1 m2 m3 m' : Machine}
      (hc : Call e t io .clone)
      (h1 : newUserRoot { k.machine with account := k.procs.nextPid } = .ok (some r, m1))
      (h2 : cloneUserSpace p.rootPa r m1 = .ok (.error err, m2))
      (h3 : freeUserSpace r m2 = .ok ((), m3)) (h4 : pageFree r 1 m3 = .ok ((), m')) :
      MemOp e k p k.machine m'
  | execFail {t : UserTrap} {io : Io} {name image : List UInt8} {err : String} {m' : Machine}
      (hc : Call e t io .execve)
      (hname : copyInCstr p.rootPa (t.arg 10) 128 k.machine = .ok (.ok name, k.machine))
      (himage : k.fs.loadProgram io.disk name = .ok (some image))
      (h : buildAddressSpace image { k.machine with account := p.pid } = .ok (.error err, m')) :
      MemOp e k p k.machine m'

/-- `completeWait`: the zombie `c` is reaped for the sleeping `p`. -/
structure Reap (par child : ℕ) (c p : Process) (m1 m2 : Machine) (k k' : Kernel) : Prop where
  child_slot : k.procs.slots child = some c
  par_slot : k.procs.slots par = some p
  skip : p.waitStatusUva = 0 → m1 = k.machine
  store : p.waitStatusUva ≠ 0 → ∃ r,
    copyOut p.rootPa p.waitStatusUva (wstatusBytes c.exitCode) k.machine = .ok (r, m1)
  free : pageFree c.rootPa 1 m1 = .ok ((), m2)
  state : k' = (((({ k with machine := m2 }.setSlot par (some { p with state := .ready })).withFrame
    par ((k.frames par).setA0 c.pid))).setSlot child none).log (.reaped p.pid c.pid)

/-- Where the orphans go. -/
def initSlot (t : ProcTable) : Option ℕ := t.position fun s => s.any (·.pid = 1)

/-- A process as its parent's exit leaves it. -/
def adopt (cur : ℕ) (init : Option ℕ) (p : Process) : Process :=
  if p.parent = cur then { p with parent := init.getD noProc } else p

/-- The part of `exitCurrent` before a waiting parent is looked for. -/
structure Exit (code : ℤ) (p : Process) (m1 : Machine) (k k' : Kernel) : Prop where
  proc : k.procs.slots k.current = some p
  pid : p.pid ≠ 1
  free : freeUserSpace p.rootPa k.machine = .ok ((), m1)
  state : k' = ({ k with machine := m1, procs := reparent k.current (initSlot k.procs) k.procs }.setSlot
    k.current (some { adopt k.current (initSlot k.procs) p with
      state := .zombie, exitCode := code })).log (.exited p.pid code)

/-- A parent is blocked in wait4. -/
def ParentWaits (k : Kernel) (p : Process) : Prop :=
  p.parent ≠ noProc ∧ ∃ par, k.procs.slots p.parent = some par ∧ par.state = .sleepChild

/-- `slot` is the one that `pickNext` takes. -/
def Picked (t : ProcTable) (slot : ℕ) : Prop :=
  ((pickOrder t.lastRun).find? fun i => (t.slots i).any (·.state = .ready)) = some slot

/-- The caller of wait4 as it sleeps. -/
def asleep (p : Process) (statusUva : ℕ) : Process :=
  { p with waitStatusUva := statusUva, state := .sleepChild }

/-- The kernel after `schedule` has picked `slot`. -/
def entered (slot : ℕ) (p : Process) (k : Kernel) : Kernel :=
  { (k.setSlot slot (some { p with state := .running })) with
    procs := { k.procs.setSlot slot (some { p with state := .running }) with lastRun := slot }
    current := slot }.withFrame slot { k.frames slot with sstatus := userSstatus k.sstatus }

/-- What a read completed by console input returns. -/
def wokenResult (bytes : List UInt8) : Except String Unit → ℕ
  | .ok _ => bytes.length
  | .error _ => ofIsize (-14)

/-- The kernel after console input completed the read of `slot`. -/
def woken (k : Kernel) (slot : ℕ) (p : Process) (bytes : List UInt8) (rx : RxRing)
    (r : Except String Unit) (m : Machine) : Kernel :=
  ({ k with machine := m, rx := rx }.withFrame slot
    ((k.frames slot).setA0 (wokenResult bytes r))).setSlot slot (some { p with state := .ready })

/-- The child that `forkCurrent` makes. -/
def forkChild (k : Kernel) (p : Process) (r : ℕ) : Process :=
  freshProcess k.procs.nextPid k.current r p.nextMmap p.brk p.name p.files

/-- The kernel after a fork into `slot`. -/
def forkState (k : Kernel) (p : Process) (slot r : ℕ) (m : Machine) : Kernel :=
  (({ k with
      machine := m
      procs := { k.procs with nextPid := k.procs.nextPid + 1 } }.withFrame slot
    { (k.frames k.current).setA0 0 with kernelSp := k.kernelStackTop }).setSlot slot
    (some (forkChild k p r))).log (.forked p.pid k.procs.nextPid)

/-- The kernel after a successful exec. -/
def execState (k : Kernel) (p : Process) (name : List UInt8) (q entry brk : ℕ) (m : Machine) :
    Kernel :=
  ({ k with machine := m }.setSlot k.current (some { p with
    rootPa := q, nextMmap := mmapBase, brk := brk, name := setName p.name name })).withFrame
    k.current (entryFrame entry k.kernelStackTop)

/-- The kernel after a process was created from an image. -/
def spawnState (k : Kernel) (name : List UInt8) (slot q entry brk : ℕ) (m : Machine) : Kernel :=
  ({ k with
      machine := m
      procs := { k.procs with nextPid := k.procs.nextPid + 1 } }.withFrame slot
    (entryFrame entry k.kernelStackTop)).setSlot slot
    (some (freshProcess k.procs.nextPid noProc q mmapBase brk (setName zeroName name) []))

/-- The moves of the step that handles event `e` from state `k0`. -/
inductive Move (e : Event) (k0 : Kernel) : Kernel → Kernel → Prop
  | quiet {k k' : Kernel} (h : Quiet k k') : Move e k0 k k'
  | trap {t : UserTrap} (he : e = .trap t) (hc : k0.current ≠ noProc) :
      Move e k0 k0 (trapState t k0)
  | store {va pa : ℕ} {b : UInt8} {p : Process} (he : e = .store va b)
      (hp : k0.procs.slots k0.current = some p)
      (hw : userWritable k0.machine p.rootPa va = some pa) :
      Move e k0 k0
        { k0 with machine := { k0.machine with mem := writeBytes k0.machine.mem pa [b] } }
  | memory {k : Kernel} {p : Process} {m' : Machine} (hcur : k.current = k0.current)
      (hp : k.procs.slots k.current = some p) (hm : MemOp e k0 p k.machine m') :
      Move e k0 k { k with machine := m' }
  | result {k : Kernel} {t : UserTrap} {io : Io} {no : Sysno} (ret : ℤ) (hc : Call e t io no)
      (hcur : k.current = k0.current) :
      Move e k0 k (k.withFrame k.current ((k.frames k.current).setA0 (ofIsize ret)))
  | resume {k : Kernel} {p : Process} (hp : k.procs.slots k.current = some p) :
      Move e k0 k (k.withFrame k.current
        { k.frames k.current with sstatus := userSstatus k.sstatus })
  | own {k : Kernel} {p p' : Process} (hcur : k.current = k0.current)
      (hp : k.procs.slots k.current = some p) (h : OwnFields p p') :
      Move e k0 k (k.setSlot k.current (some p'))
  | socket {k : Kernel} {p : Process} {idx : ℕ} {st : SocketTable} (hcur : k.current = k0.current)
      (hp : k.procs.slots k.current = some p) (ha : k.net.sockets.alloc = some (idx, st)) :
      Move e k0 k ({ k with net := { k.net with sockets := st } }.setSlot k.current
        (some { p with files := (addFile p.files ⟨.socket idx k.net.sockets.nextSerial, 0⟩).1 }))
  | close {t : UserTrap} {io : Io} {p : Process} {fd idx serial pos : ℕ}
      (hc : Call e t io .close) (hfd : toIsize (t.arg 10) = fd) (hge : 3 ≤ fd)
      (hp : k0.procs.slots k0.current = some p)
      (hf : p.file fd = some ⟨.socket idx serial, pos⟩) :
      Move e k0 (trapState t k0) ({ trapState t k0 with
        net := { k0.net with sockets := k0.net.sockets.free idx } }.setSlot k0.current
        (some { p with files := p.files.set (fd - 3) none }))
  | fork {t : UserTrap} {io : Io} {p : Process} {slot r : ℕ} {m1 m2 : Machine}
      (hc : Call e t io .clone) (hslot : k0.procs.position (·.isNone) = some slot)
      (hp : k0.procs.slots k0.current = some p)
      (h1 : newUserRoot { k0.machine with account := k0.procs.nextPid } = .ok (some r, m1))
      (h2 : cloneUserSpace p.rootPa r m1 = .ok (.ok (), m2))
      (hpid : k0.procs.nextPid + 1 < usizeBound) :
      Move e k0 (trapState t k0) (forkState (trapState t k0) p slot r m2)
  | exec {t : UserTrap} {io : Io} {p : Process} {name image : List UInt8} {q entry brk : ℕ}
      {m1 m2 m3 : Machine} (hc : Call e t io .execve)
      (hp : k0.procs.slots k0.current = some p)
      (hname : copyInCstr p.rootPa (t.arg 10) 128 k0.machine = .ok (.ok name, k0.machine))
      (himage : k0.fs.loadProgram io.disk name = .ok (some image))
      (h1 : buildAddressSpace image { k0.machine with account := p.pid } =
        .ok (.ok (q, entry, brk), m1))
      (h2 : freeUserSpace p.rootPa m1 = .ok ((), m2)) (h3 : pageFree p.rootPa 1 m2 = .ok ((), m3)) :
      Move e k0 (trapState t k0) (execState (trapState t k0) p name q entry brk m3)
  | exit {t : UserTrap} {p : Process} {code : ℤ} {m1 : Machine} {k1 : Kernel} (he : e = .trap t)
      (hcode : (∃ io, Call e t io .exit ∧ code = toI32 (t.arg 10)) ∨
        ∃ sc, t.cause = .fault sc ∧ code = -1)
      (hx : Exit code p m1 (trapState t k0) k1) (hno : ¬ ParentWaits k1 p) :
      Move e k0 (trapState t k0) k1.idle
  | exitReap {t : UserTrap} {p c q : Process} {code : ℤ} {m1 m2 m3 : Machine} {k1 k2 : Kernel}
      (he : e = .trap t)
      (hcode : (∃ io, Call e t io .exit ∧ code = toI32 (t.arg 10)) ∨
        ∃ sc, t.cause = .fault sc ∧ code = -1)
      (hx : Exit code p m1 (trapState t k0) k1) (hw : ParentWaits k1 p)
      (hr : Reap p.parent k0.current c q m2 m3 k1 k2) : Move e k0 (trapState t k0) k2.idle
  | waitReap {t : UserTrap} {io : Io} {p c q : Process} {child : ℕ} {m1 m2 : Machine} {k1 : Kernel}
      (hc : Call e t io .wait4) (hp : k0.procs.slots k0.current = some p)
      (hz : (waitScan k0.procs k0.current).2 = some child)
      (hr : Reap k0.current child c q m1 m2 ((trapState t k0).setSlot k0.current
        (some (asleep p (t.arg 11)))) k1) : Move e k0 (trapState t k0) k1.idle
  | waitBlock {t : UserTrap} {io : Io} {p : Process} (hc : Call e t io .wait4)
      (hp : k0.procs.slots k0.current = some p)
      (hz : waitScan k0.procs k0.current = (true, none)) :
      Move e k0 (trapState t k0) ((trapState t k0).setSlot k0.current
        (some (asleep p (t.arg 11)))).idle
  | waitNone {t : UserTrap} {io : Io} {p : Process} (hc : Call e t io .wait4)
      (hp : k0.procs.slots k0.current = some p)
      (hz : waitScan k0.procs k0.current = (false, none)) :
      Move e k0 (trapState t k0) ((((trapState t k0).setSlot k0.current
        (some { p with waitStatusUva := t.arg 11, state := .ready })).withFrame k0.current
        (((trapState t k0).frames k0.current).setA0 (ofIsize (-10)))).log (.noChild p.pid)).idle
  | block {k : Kernel} {t : UserTrap} {io : Io} {p : Process} (hc : Call e t io .read)
      (hcur : k.current = k0.current) (hp : k.procs.slots k.current = some p) :
      Move e k0 k (k.setSlot k.current (some { p with
        state := .sleepConsole, readBufUva := t.arg 11, readLen := t.arg 12 })).idle
  | yield {k : Kernel} {t : UserTrap} (he : e = .trap t) (hc : t.cause = .interrupt .timer)
      (hcur : k.current = k0.current) :
      Move e k0 k (k.setSlot k.current ((k.procs.slots k.current).map fun p =>
        if p.state = .running then { p with state := .ready } else p)).idle
  | wake {k : Kernel} {p : Process} {slot : ℕ} {bytes : List UInt8} {rx : RxRing}
      {r : Except String Unit} {m' : Machine}
      (hs : k.procs.position (fun s => s.any (·.state = .sleepConsole)) = some slot)
      (hp : k.procs.slots slot = some p)
      (hb : k.rx.readBytes (min p.readLen 128) = (bytes, rx))
      (hcopy : copyOut p.rootPa p.readBufUva bytes k.machine = .ok (r, m')) :
      Move e k0 k (woken k slot p bytes rx r m')
  | schedule {k : Kernel} {p : Process} {slot : ℕ} (hcur : k.current = noProc)
      (hf : Picked k.procs slot) (hp : k.procs.slots slot = some p) : Move e k0 k (entered slot p k)
  | heapGrow {size align addr : ℕ} {m' : Machine} (he : e = .heapGrow size align)
      (h : pageAlloc (growPages size align) { k0.machine with account := 0 } =
        .ok (some addr, m')) :
      Move e k0 k0 { k0 with
        machine := m', regions := ⟨.heap, addr, growPages size align⟩ :: k0.regions }
  | spawnFail {disk : Disk} {name image : List UInt8} {r : Except String (ℕ × ℕ × ℕ)}
      {m' : Machine} (he : e = .spawn disk name) (hc : k0.current = noProc)
      (himage : k0.fs.loadProgram disk name = .ok (some image))
      (h : buildAddressSpace image { k0.machine with account := k0.procs.nextPid } = .ok (r, m')) :
      Move e k0 k0 { k0 with machine := m' }
  | spawn {disk : Disk} {name image : List UInt8} {slot q entry brk : ℕ} {m' : Machine}
      (he : e = .spawn disk name) (hc : k0.current = noProc)
      (himage : k0.fs.loadProgram disk name = .ok (some image))
      (h : buildAddressSpace image { k0.machine with account := k0.procs.nextPid } =
        .ok (.ok (q, entry, brk), m'))
      (hslot : k0.procs.position (·.isNone) = some slot)
      (hpid : k0.procs.nextPid + 1 < usizeBound) :
      Move e k0 k0 (spawnState k0 name slot q entry brk m')

/-- A step is a sequence of moves. -/
abbrev Moves (e : Event) (k0 : Kernel) : Kernel → Kernel → Prop :=
  Relation.ReflTransGen (Move e k0)

/-! ### Reads leave the memory alone -/

section Reads

variable {m m' : Machine} {r va : ℕ}

theorem walkLevel_read {l : ℕ} {res : Option ℕ}
    (h : PageTable.walkLevel r va l false m = .ok (res, m')) : m' = m := by
  unfold PageTable.walkLevel at h
  rw [Prog.get_bind_ok] at h
  split_ifs at h
  · exact Prog.pure_state h
  · simp at *
  · simp at h
  · exact Prog.pure_state h

theorem walk_read {res : Option ℕ} (h : PageTable.walk r va false m = .ok (res, m')) :
    m' = m := by
  unfold PageTable.walk at h
  obtain ⟨o, m1, h1, h2⟩ := Prog.bind_ok.mp h
  obtain rfl := walkLevel_read h1
  cases o with
  | none => exact Prog.pure_state h2
  | some l1 => exact walkLevel_read h2

theorem virtToPhys_read {res : Option ℕ} (h : PageTable.virtToPhys r va m = .ok (res, m')) :
    m' = m := by
  unfold PageTable.virtToPhys at h
  obtain ⟨o, m1, h1, h2⟩ := Prog.bind_ok.mp h
  obtain rfl := walk_read h1
  cases o with
  | none => exact Prog.pure_state h2
  | some l0 =>
    dsimp only at h2
    rw [Prog.get_bind_ok] at h2
    split_ifs at h2 <;> exact Prog.pure_state h2

theorem copyInLoop_read {fuel left : ℕ} {acc : List UInt8} {res : Except String (List UInt8)}
    (h : copyInLoop r fuel va left acc m = .ok (res, m')) : m' = m := by
  induction fuel generalizing va left acc with
  | zero => exact Prog.pure_state h
  | succ fuel ih =>
    rw [copyInLoop] at h
    split_ifs at h
    · exact Prog.pure_state h
    · obtain ⟨o, m1, h1, h2⟩ := Prog.bind_ok.mp h
      obtain rfl := virtToPhys_read h1
      cases o with
      | none => exact Prog.pure_state h2
      | some pa =>
        dsimp only at h2
        rw [Prog.get_bind_ok] at h2
        exact ih h2

theorem copyIn_read {len : ℕ} {res : Except String (List UInt8)}
    (h : copyIn r va len m = .ok (res, m')) : m' = m := by
  unfold copyIn at h
  cases hc : checkRange va len with
  | error e =>
    rw [hc] at h
    exact Prog.pure_state h
  | ok u =>
    rw [hc] at h
    exact copyInLoop_read h

theorem copyInCstr_read {n : ℕ} {res : Except String (List UInt8)}
    (h : copyInCstr r va n m = .ok (res, m')) : m' = m := by
  unfold copyInCstr at h
  generalize n - 1 = left at h
  generalize 0 = i at h
  generalize [] = acc at h
  induction left generalizing i acc with
  | zero => exact Prog.pure_state h
  | succ left ih =>
    rw [copyInCstrLoop] at h
    obtain ⟨a, m1, h1, h2⟩ := Prog.bind_ok.mp h
    obtain ⟨-, rfl⟩ := Prog.ofExcept_ok.mp h1
    obtain ⟨res1, m2, h3, h4⟩ := Prog.bind_ok.mp h2
    obtain rfl := copyIn_read h3
    cases res1 with
    | error e => exact Prog.pure_state h4
    | ok byte =>
      dsimp only at h4
      split_ifs at h4
      · exact Prog.pure_state h4
      · exact Prog.pure_state h4
      · exact ih _ _ h4

end Reads

end LightOS
