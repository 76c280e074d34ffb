import LightOS.Bystanders
import LightOS.Input
import LightOS.Shapes

/-!
# Console input as one stream

Bytes come in at one end of the ring with the UART interrupt and leave at the other
end with the reads of file descriptor 0. A read takes them in its own system call or,
if it had to wait, on the interrupt that ends the wait. Each step of the machine moves
the stream by what one of these does, and all other steps leave it alone.
-/
namespace LightOS
open Lib

namespace RxRing

variable {rx : RxRing}

/-- The ring stores a carriage return as a line feed. -/
def translated (b : UInt8) : UInt8 := if b = 13 then 10 else b

theorem length_unread_le (rx : RxRing) : rx.unread.length ≤ 255 := by
  rw [length_unread]
  exact Nat.le_of_lt_succ (rx.head - rx.tail).isLt

/-- Only the gap slot is left exactly if 255 bytes are unread. -/
theorem full_iff (rx : RxRing) : rx.head + 1 = rx.tail ↔ rx.unread.length = 255 := by
  have h1 := rx.head.isLt
  have h2 := rx.tail.isLt
  have h3 : ((1 : Fin rxBufSize) : ℕ) = 1 := rfl
  rw [length_unread, Fin.sub_def, Fin.ext_iff, Fin.val_add, h3]
  change _ ↔ (rxBufSize - rx.tail.val + rx.head.val) % rxBufSize = 255
  simp only [rxBufSize] at *
  omega

/-- A byte that finds the ring full is dropped. -/
theorem receive_full (h : rx.unread.length = 255) (b : UInt8) : rx.receive b = (rx, false) := by
  unfold receive
  dsimp only
  rw [if_neg (not_not.mpr (rx.full_iff.mpr h))]

/-- Any other byte goes to the end of the stream. -/
theorem receive_room (h : rx.unread.length ≠ 255) (b : UInt8) : (rx.receive b).2 = true ∧
    (rx.receive b).1.unread = rx.unread ++ [translated b] := by
  have hle := rx.length_unread_le
  have hlt : rx.unread.length < rxBufSize := by
    simp only [rxBufSize]
    omega
  have hcells : cells { rx with
      buf := rx.buf.set rx.head (if b = 13 then 10 else b), head := rx.head + 1 } =
      Function.update rx.cells rx.head (translated b) := by
    funext i
    simp only [cells, translated, Fin.getElem_fin, Vector.getElem_set]
    by_cases hi : i = rx.head
    · subst hi
      simp
    · rw [Function.update_of_ne hi, if_neg fun he => hi (Fin.ext he.symm)]
      rfl
  have hwindow : Lib.Window (Function.update rx.cells rx.head (translated b)) rx.tail.val
      (rx.unread ++ [translated b]) := by
    have hpush := rx.unread_window.push (x := translated b) hlt
    rwa [← rx.head_eq] at hpush
  have hhead : rx.head + 1 =
      Fin.ofNat rxBufSize (rx.tail.val + (rx.unread ++ [translated b]).length) := by
    have hval := congrArg Fin.val rx.head_eq
    have h1 : ((1 : Fin rxBufSize) : ℕ) = 1 := rfl
    rw [Fin.val_ofNat] at hval
    rw [Fin.ext_iff, Fin.val_add, h1, hval, Fin.val_ofNat, List.length_append,
      List.length_singleton, Nat.mod_add_mod, Nat.add_assoc]
  unfold receive
  dsimp only
  rw [if_pos (mt rx.full_iff.mp h)]
  refine ⟨rfl, unread_eq (hcells ▸ hwindow) ?_ hhead⟩
  rw [List.length_append, List.length_singleton]
  simp only [rxBufSize]
  omega

/-- The bytes of an input that the ring takes, as it stores them. -/
def accepted (rx : RxRing) : List UInt8 → List UInt8
  | [] => []
  | b :: bs =>
    if (rx.receive b).2 then translated b :: (rx.receive b).1.accepted bs
    else (rx.receive b).1.accepted bs

/-- Draining the UART appends what is accepted, and tells whether there was any. -/
theorem receiveAll_unread (rx : RxRing) (input : List UInt8) :
    (rx.receiveAll input).1.unread = rx.unread ++ rx.accepted input ∧
      ((rx.receiveAll input).2 = true ↔ rx.accepted input ≠ []) := by
  induction input generalizing rx with
  | nil => exact ⟨(List.append_nil _).symm, by simp [receiveAll, accepted]⟩
  | cons b bs ih =>
    obtain ⟨h1, h2⟩ := ih (rx.receive b).1
    have hall : rx.receiveAll (b :: bs) = (((rx.receive b).1.receiveAll bs).1,
        (rx.receive b).2 || ((rx.receive b).1.receiveAll bs).2) := rfl
    rw [hall, accepted]
    by_cases hfull : rx.unread.length = 255
    · rw [receive_full hfull] at h1 h2 ⊢
      exact ⟨h1, by simpa using h2⟩
    · obtain ⟨h3, h4⟩ := receive_room hfull b
      rw [if_pos h3, h3]
      refine ⟨?_, by simp⟩
      dsimp only
      rw [h1, h4, List.append_assoc, List.singleton_append]

/-- A byte is dropped only by a full ring. -/
theorem receive_dropped {b : UInt8} (h : (rx.receive b).2 = false) : rx.unread.length = 255 := by
  by_contra hne
  rw [(receive_room hne b).1] at h
  cases h

end RxRing

/-! ### Who waits for input -/

section Steps

variable {e : Event} {k k₁ k' : Kernel} {t : UserTrap} {io : Io} {p : Process}

/-- Buffer and length of a read that waits for input. -/
def Process.reading (p : Process) : Option (ℕ × ℕ) :=
  if p.state = .sleepConsole then some (p.readBufUva, p.readLen) else none

/-- The read that the process in a slot waits for. -/
def Kernel.reader (k : Kernel) (i : ℕ) : Option (ℕ × ℕ) := (k.procs.slots i).bind Process.reading

theorem Process.reading_none (h : p.state ≠ .sleepConsole) : p.reading = none := if_neg h

theorem Kernel.reader_none (hp : k.procs.slots i = some p) (h : p.state ≠ .sleepConsole) :
    k.reader i = none := by
  rw [Kernel.reader, hp, Option.bind_some, Process.reading_none h]

theorem Kernel.reader_setSlot (i j : ℕ) (o : Option Process) :
    (k.setSlot i o).reader j = if j = i then o.bind Process.reading else k.reader j := by
  rw [Kernel.reader, Kernel.setSlot_slots]
  split_ifs <;> rfl

/-- The ring and the waiting reads are as they were. -/
structure Calm (k k' : Kernel) : Prop where
  rx : k'.rx = k.rx
  reader : ∀ i, k'.reader i = k.reader i

namespace Calm

theorem refl (k : Kernel) : Calm k k := ⟨rfl, fun _ => rfl⟩

theorem trans (h : Calm k k₁) (h' : Calm k₁ k') : Calm k k' :=
  ⟨h'.rx.trans h.rx, fun i => (h'.reader i).trans (h.reader i)⟩

theorem congr (hrx : k'.rx = k.rx) (hp : k'.procs.slots = k.procs.slots) : Calm k k' :=
  ⟨hrx, fun i => by rw [Kernel.reader, Kernel.reader, hp]⟩

/-- A process that does not wait for input changes, and still does not. -/
theorem setSlot {i : ℕ} {o : Option Process} (h : k.reader i = none)
    (ho : o.bind Process.reading = none) : Calm k (k.setSlot i o) := by
  refine ⟨rfl, fun j => ?_⟩
  rw [Kernel.reader_setSlot]
  split_ifs with hj
  · rw [ho, hj, h]
  · rfl

theorem idle (h : Calm k k') : Calm k k'.idle := ⟨h.rx, h.reader⟩

end Calm

/-- The scheduler picks among the ready processes. -/
theorem Scheduled.calm (h : Scheduled k k') : Calm k k' := by
  rcases h with ⟨rfl, -⟩ | ⟨slot, p, hf, hp, rfl⟩
  · exact .refl _
  · obtain ⟨q, hq, hready⟩ := picked_some hf
    obtain rfl := Option.some.inj (hp.symm.trans hq)
    refine (Calm.setSlot (o := some { p with state := .running })
      (Kernel.reader_none hp (by simp [hready])) (Process.reading_none (by simp))).trans ?_
    exact .congr rfl rfl

theorem CallerOnly.calm (h : CallerOnly k k') (hcur : k.reader k.current = none)
    (hcur' : k'.reader k.current = none) : Calm k k' := by
  refine ⟨h.rx, fun i => ?_⟩
  by_cases hi : i = k.current
  · rw [hi, hcur, hcur']
  · rcases h.slots i hi with he | ⟨hnone, p, hp, hready⟩
    · rw [Kernel.reader, Kernel.reader, he]
    · rw [Kernel.reader_none hp (by simp [hready]), Kernel.reader, hnone]
      rfl

theorem Exit.calm {code : ℤ} {m : Machine} (h : Exit code p m k k') (hp : p.state ≠ .sleepConsole) :
    Calm k k' := by
  refine ⟨by rw [h.state]; rfl, fun i => ?_⟩
  rw [Kernel.reader, Kernel.reader, Tree.exit_slots h i]
  split_ifs with hi
  · rw [hi, h.proc, Option.bind_some, Option.bind_some, Process.reading_none hp]
    exact Process.reading_none (by simp)
  · cases k.procs.slots i with
    | none => rfl
    | some q =>
      rw [Option.map_some, Option.bind_some, Option.bind_some]
      unfold adopt
      split_ifs <;> rfl

theorem Reap.calm {par child : ℕ} {c q : Process} {m₁ m₂ : Machine}
    (h : Reap par child c q m₁ m₂ k k') (hc : c.state ≠ .sleepConsole)
    (hq : q.state ≠ .sleepConsole) : Calm k k' := by
  have hpar : Calm k (k.setSlot par (some { q with state := .ready })) :=
    .setSlot (Kernel.reader_none h.par_slot hq) (Process.reading_none (by simp))
  have hchild : Calm (k.setSlot par (some { q with state := .ready }))
      ((k.setSlot par (some { q with state := .ready })).setSlot child none) := by
    refine .setSlot ?_ rfl
    rw [hpar.reader]
    exact Kernel.reader_none h.child_slot hc
  refine (hpar.trans hchild).trans (.congr ?_ ?_)
  · rw [h.state]
    rfl
  · rw [h.state]
    rfl

/-! ### Steps that leave the stream alone -/

theorem resumeCurrent_ok {u : Unit} (h : resumeCurrent k = .ok (u, k')) :
    (∃ p, k.procs.slots k.current = some p) ∧ k' = k.withFrame k.current
      { k.frames k.current with sstatus := userSstatus k.sstatus } := by
  unfold resumeCurrent at h
  rw [Prog.get_bind_ok, procAt_bind] at h
  obtain ⟨p, -, hp, h⟩ := h
  unfold enterUser at h
  rw [Prog.get_bind_ok] at h
  exact ⟨⟨p, hp⟩, setFrame_ok.mp h⟩

theorem timerTick_calm {u : Unit} (h : timerTick k = .ok (u, k')) : Calm k k' := by
  unfold timerTick at h
  rw [Prog.get_bind_ok] at h
  obtain ⟨n, k₁, h1, h2⟩ := Prog.bind_ok.mp h
  obtain ⟨-, rfl⟩ := Prog.ofExcept_ok.mp h1
  obtain rfl := Prog.set_ok.mp h2
  exact .congr rfl rfl

theorem yieldCurrent_calm {u : Unit} (h : yieldCurrent k = .ok (u, k')) : Calm k k' := by
  unfold yieldCurrent at h
  rw [Prog.get_bind_ok] at h
  dsimp only at h
  rw [slotAt_bind] at h
  obtain ⟨-, h⟩ := h
  cases hs : k.procs.slots k.current with
  | none =>
    rw [hs] at h
    exact (Calm.refl k).idle.trans (park_ok h).calm
  | some p =>
    rw [hs] at h
    dsimp only at h
    split_ifs at h with hrun
    · rw [setProc_bind] at h
      have hset : Calm k (k.setSlot k.current (some { p with state := .ready })) :=
        .setSlot (Kernel.reader_none hs (by simp [hrun])) (Process.reading_none (by simp))
      exact hset.idle.trans (park_ok h).calm
    · exact (Calm.refl k).idle.trans (park_ok h).calm

theorem exitCurrent_calm {code : ℤ} {u : Unit}
    (hcur : ∀ p, k.procs.slots k.current = some p → p.state ≠ .sleepConsole)
    (h : exitCurrent code k = .ok (u, k')) : Calm k k' := by
  obtain ⟨p, m₁, k₁, hx, ⟨-, hs⟩ | ⟨⟨-, par, hpar, hwaits⟩, c, q, m₂, m₃, k₂, hr, hs⟩⟩ :=
    exitCurrent_ok h
  · exact (hx.calm (hcur p hx.proc)).idle.trans hs.calm
  · have hzombie : c.state ≠ .sleepConsole := by
      have hc := hr.child_slot
      rw [Tree.exit_slots hx, if_pos rfl] at hc
      obtain rfl := Option.some.inj hc
      simp
    have hparent : q.state ≠ .sleepConsole := by
      obtain rfl := Option.some.inj (hr.par_slot.symm.trans hpar)
      simp [hwaits]
    exact ((hx.calm (hcur p hx.proc)).trans (hr.calm hzombie hparent)).idle.trans hs.calm

theorem waitCurrent_calm {uva : ℕ} {u : Unit}
    (hcur : ∀ p, k.procs.slots k.current = some p → p.state ≠ .sleepConsole)
    (h : waitCurrent uva k = .ok (u, k')) : Calm k k' := by
  obtain ⟨p, hp, hways⟩ := waitCurrent_ok h
  have hread : k.reader k.current = none := Kernel.reader_none hp (hcur p hp)
  have hsleep : Calm k (k.setSlot k.current (some (asleep p uva))) :=
    .setSlot hread (Process.reading_none (by simp [asleep]))
  obtain ⟨child, c, q, m₁, m₂, k₁, hz, hr, hs⟩ | ⟨-, hs⟩ | ⟨-, hs⟩ := hways
  · have hzombie : c.state ≠ .sleepConsole := by
      obtain ⟨c', hc', -, hst⟩ := waitScan_zombie hz
      have hc := hr.child_slot
      rw [Kernel.setSlot_slots] at hc
      split_ifs at hc with hself
      · obtain rfl := Option.some.inj hc
        simp [asleep]
      · obtain rfl := Option.some.inj (hc.symm.trans hc')
        simp [hst]
    have hparent : q.state ≠ .sleepConsole := by
      have hq := hr.par_slot
      rw [Kernel.setSlot_self] at hq
      obtain rfl := Option.some.inj hq
      simp [asleep]
    exact (hsleep.trans (hr.calm hzombie hparent)).idle.trans hs.calm
  · exact hsleep.idle.trans hs.calm
  · have hready : Calm k (k.setSlot k.current (some { p with waitStatusUva := uva, state := .ready })) :=
      .setSlot hread (Process.reading_none (by simp))
    refine Calm.trans (hready.trans ?_) hs.calm
    exact .congr rfl rfl

/-- What the UART holds when the step serves its interrupt. -/
def Event.uartInput (e : Event) (k : Kernel) : List UInt8 :=
  match e with
  | .trap t => match t.cause with
    | .interrupt (.external irq input) =>
      if k.current ≠ noProc ∧ irq = irqUart0 then input else []
    | _ => []
  | .idle (some (.external irq input)) =>
    if k.current = noProc ∧ irq = irqUart0 then input else []
  | _ => []

/-- The step is a read of file descriptor 0. -/
structure ConsoleCall (e : Event) (k : Kernel) (t : UserTrap) (io : Io) : Prop where
  call : Call e t io .read
  user : k.current ≠ noProc
  fd : toIsize (t.arg 10) = 0

/-- An interrupt that brings no byte. -/
theorem externalInterrupt_calm {irq : ℕ} {input : List UInt8} {u : Unit}
    (hnone : irq = irqUart0 → input = []) (h : externalInterrupt irq input k = .ok (u, k')) :
    Calm k k' := by
  unfold externalInterrupt at h
  split_ifs at h with hirq
  · unfold handleInterrupt at h
    rw [Prog.get_bind_ok, hnone hirq] at h
    obtain ⟨_, k₁, h1, h2⟩ := Prog.bind_ok.mp h
    obtain rfl := Prog.set_ok.mp h1
    obtain rfl := Prog.pure_state h2
    exact .congr rfl rfl
  · rw [Prog.pure_state h]
    exact .refl k

theorem Tree.current_awake (ht : Tree k) (hp : k.procs.slots k.current = some p) :
    p.state ≠ .sleepConsole := by
  have hne : k.current ≠ noProc := ht.current_ne hp
  obtain ⟨q, hq, hrun⟩ := ht.current hne
  obtain rfl := Option.some.inj (hp.symm.trans hq)
  simp [hrun]

theorem Tree.current_reader (ht : Tree k) : k.reader k.current = none := by
  cases hp : k.procs.slots k.current with
  | none =>
    rw [Kernel.reader, hp]
    rfl
  | some p => exact Kernel.reader_none hp (ht.current_awake hp)

/-- A system call other than a read of the console. -/
theorem call_calm {no : Sysno} (ht : Tree k) (ht' : Tree k') (hc : Call e t io no)
    (hcur : k.current ≠ noProc) (hread : ¬ ConsoleCall e k t io) (hn : Next e k k') : Calm k k' := by
  obtain ⟨-, r, k₁, hcall, hend⟩ := step_call hc hcur hn
  have hstart : Calm k (trapState t k) := .congr rfl rfl
  have hawake : ∀ p, (trapState t k).procs.slots (trapState t k).current = some p →
      p.state ≠ .sleepConsole := fun p hp => ht.current_awake hp
  have harg : ((trapState t k).frames k.current).a0 = t.arg 10 := by
    change ((trapState t k).frames k.current).reg 10 = _
    rw [trapState_frame, trapFrame_reg hc.cause _ (by decide)]
  by_cases hexit : no = .exit
  · subst hexit
    obtain ⟨_, k₂, h1, h2⟩ := Prog.bind_ok.mp hcall
    obtain ⟨rfl, rfl⟩ := Prod.mk.inj (Prog.pure_ok.mp h2)
    obtain rfl := hend
    exact hstart.trans (exitCurrent_calm hawake h1)
  by_cases hwait : no = .wait4
  · subst hwait
    obtain ⟨_, k₂, h1, h2⟩ := Prog.bind_ok.mp hcall
    obtain ⟨rfl, rfl⟩ := Prod.mk.inj (Prog.pure_ok.mp h2)
    obtain rfl := hend
    exact hstart.trans (waitCurrent_calm hawake h1)
  have hprivate : Private k.current (syscall io ((trapState t k).frames k.current) no) := by
    refine syscall_private hexit hwait fun hno hfd => hread ⟨hno ▸ hc, hcur, ?_⟩
    rwa [harg] at hfd
  have hcaller : CallerOnly (trapState t k) k₁ := (hprivate (trapState t k) rfl).ok hcall
  -- the caller is running again at the end
  have hback : k'.procs = k₁.procs ∧ k'.current = k₁.current ∧ k'.rx = k₁.rx := by
    cases r with
    | none =>
      obtain rfl := hend
      exact ⟨rfl, rfl, rfl⟩
    | some ret =>
      rw [(resumeCurrent_ok hend).2]
      exact ⟨rfl, rfl, rfl⟩
  obtain ⟨hprocs, hsame, hrx⟩ := hback
  have hafter : k₁.reader (trapState t k).current = none := by
    have := ht'.current_reader
    rwa [hsame, hcaller.current, Kernel.reader, hprocs] at this
  exact (hstart.trans (hcaller.calm ht.current_reader hafter)).trans (.congr hrx (by rw [hprocs]))

/-- A step that neither receives input nor reads the console. -/
theorem Next.calm (ht : Tree k) (ho : e.ordinary) (hn : Next e k k')
    (huart : e.uartInput k = []) (hread : ∀ t io, ¬ ConsoleCall e k t io) : Calm k k' := by
  have ht' := ht.step ho hn
  have hn' := hn
  unfold Next step at hn
  rw [Prog.get_bind_ok] at hn
  cases e with
  | spawn disk name => exact ho.elim
  | heapGrow size align =>
    obtain ⟨addr, m, -, rfl⟩ := heapGrow_ok hn'
    exact .congr rfl rfl
  | store va b =>
    dsimp only at hn
    split_ifs at hn with hc
    · rw [Prog.pure_state hn]
      exact .refl k
    · rw [procAt_bind] at hn
      obtain ⟨p, -, -, hn⟩ := hn
      cases hw : userWritable k.machine p.rootPa va with
      | none =>
        rw [hw] at hn
        rw [Prog.pure_state hn]
        exact .refl k
      | some pa =>
        rw [hw] at hn
        obtain ⟨m, -, rfl⟩ := onMachine_ok.mp hn
        exact .congr rfl rfl
  | idle i =>
    dsimp only at hn
    split_ifs at hn with hc
    · cases i with
      | none => exact (schedule_ok hn).calm
      | some i =>
        obtain ⟨_, k₁, h1, h2⟩ := Prog.bind_ok.mp hn
        refine Calm.trans ?_ (schedule_ok h2).calm
        cases i with
        | timer => exact timerTick_calm h1
        | external irq input =>
          refine externalInterrupt_calm (fun hirq => ?_) h1
          simpa [Event.uartInput, hc, hirq] using huart
        | other code =>
          rw [Prog.pure_state h1]
          exact .refl k
    · rw [Prog.pure_state hn]
      exact .refl k
  | trap t =>
    dsimp only at hn
    split_ifs at hn with hc
    · rw [Prog.pure_state hn]
      exact .refl k
    have hstart : Calm k (trapState t k) := .congr rfl rfl
    cases hcause : t.cause with
    | ecall io => exact call_calm ht ht' ⟨rfl, hcause, rfl⟩ hc (hread t io) hn'
    | fault sc =>
      have hrun := step_trap rfl hc (by simp [hcause]) hn'
      rw [hcause] at hrun
      obtain ⟨_, k₁, h1, h2⟩ := Prog.bind_ok.mp hrun
      obtain ⟨p, -, -, -, rfl⟩ := currentInfo_ok.mp h1
      exact hstart.trans (exitCurrent_calm (fun p hp => ht.current_awake hp) h2)
    | interrupt i =>
      have hrun := step_trap rfl hc (by simp [hcause]) hn'
      rw [hcause] at hrun
      cases i with
      | timer =>
        obtain ⟨_, k₁, h1, h2⟩ := Prog.bind_ok.mp hrun
        exact hstart.trans ((timerTick_calm h1).trans (yieldCurrent_calm h2))
      | external irq input =>
        obtain ⟨_, k₁, h1, h2⟩ := Prog.bind_ok.mp hrun
        have hquiet : Calm (trapState t k) k₁ := by
          refine externalInterrupt_calm (fun hirq => ?_) h1
          simpa [Event.uartInput, hcause, hc, hirq] using huart
        rw [(resumeCurrent_ok h2).2]
        exact (hstart.trans hquiet).trans (.congr rfl rfl)
      | other code =>
        rw [(resumeCurrent_ok hrun).2]
        exact hstart.trans (.congr rfl rfl)

/-! ### Steps that move the stream -/

/-- A read of the console: the slot of the reader, its buffer and what it asked for. -/
structure Request where
  slot : ℕ
  buf : ℕ
  len : ℕ

/-- The reads that the step may complete: that of its caller, and those that wait. -/
inductive Asks (e : Event) (k : Kernel) : Request → Prop
  | call {t : UserTrap} {io : Io} (h : ConsoleCall e k t io) : Asks e k ⟨k.current, t.arg 11, t.arg 12⟩
  | wait {i buf len : ℕ} (h : k.reader i = some (buf, len)) : Asks e k ⟨i, buf, len⟩

/-- The read is over after the step: its result counts the bytes that its buffer holds. -/
structure Completes (e : Event) (k k' : Kernel) (r : Request) (bytes : List UInt8) : Prop where
  asks : Asks e k r
  count : (k'.frames r.slot).a0 = bytes.length
  buffer : ∃ p, k'.procs.slots r.slot = some p ∧ p.state ≠ .sleepConsole ∧
    Reads k'.machine p.rootPa r.buf bytes

/-- Every buffer that the step may have to fill is mapped. -/
def BuffersMapped (e : Event) (k : Kernel) : Prop :=
  ∀ r, Asks e k r → r.len ≠ 0 → ∀ p, k.procs.slots r.slot = some p →
    UserRoot k.machine p.rootPa ∧ CopyReady k.machine p.rootPa r.buf (min r.len 128)

/-- The reads that the step has to complete: that of a caller who finds bytes or asks for none,
and, when the UART brings bytes, that of the first process that waits. -/
inductive Due (e : Event) (k : Kernel) : Request → Prop
  | call {t : UserTrap} {io : Io} (h : ConsoleCall e k t io)
      (hready : t.arg 12 = 0 ∨ k.rx.unread ≠ []) : Due e k ⟨k.current, t.arg 11, t.arg 12⟩
  | wake {slot buf len : ℕ} (hgot : k.rx.accepted (e.uartInput k) ≠ [])
      (hslot : firstReader k = some slot) (hw : k.reader slot = some (buf, len)) :
      Due e k ⟨slot, buf, len⟩

/-- What a step does to the stream. -/
inductive StreamStep (e : Event) (k k' : Kernel) : Prop
  | idle (hdry : ∀ r, ¬ Due e k r) (hno : ∀ r bytes, ¬ Completes e k k' r bytes)
      (hstream : k.rx.unread ++ k.rx.accepted (e.uartInput k) = k'.rx.unread)
  | read {r : Request} {bytes : List UInt8} (hdue : Due e k r) (hc : Completes e k k' r bytes)
      (honly : ∀ r' bytes', Completes e k k' r' bytes' → r' = r ∧ bytes' = bytes)
      (hcount : bytes.length =
        min (min r.len 128) (k.rx.unread ++ k.rx.accepted (e.uartInput k)).length)
      (hstream : k.rx.unread ++ k.rx.accepted (e.uartInput k) = bytes ++ k'.rx.unread)

theorem Completes.over {r : Request} {bytes : List UInt8} (h : Completes e k k' r bytes) :
    k'.reader r.slot = none := by
  obtain ⟨p, hp, hst, -⟩ := h.buffer
  exact Kernel.reader_none hp hst

theorem Completes.unique {r : Request} {bytes bytes' : List UInt8} (h : Completes e k k' r bytes)
    (h' : Completes e k k' r bytes') : bytes' = bytes := by
  obtain ⟨p, hp, -, hread⟩ := h.buffer
  obtain ⟨q, hq, -, hread'⟩ := h'.buffer
  obtain rfl := Option.some.inj (hp.symm.trans hq)
  exact hread'.unique hread (h'.count.symm.trans h.count)

theorem ConsoleCall.unique {t' : UserTrap} {io' : Io} (h : ConsoleCall e k t io)
    (h' : ConsoleCall e k t' io') : t' = t := Event.trap.inj (h'.call.event.symm.trans h.call.event)

theorem ConsoleCall.uartInput (h : ConsoleCall e k t io) : e.uartInput k = [] := by
  obtain ⟨⟨rfl, hcause, -⟩, -, -⟩ := h
  simp [Event.uartInput, hcause]

theorem accepted_nil (h : e.uartInput k = []) : k.rx.accepted (e.uartInput k) = [] := by rw [h]; rfl

/-- A step has to complete one read at most. -/
theorem Due.unique {r r' : Request} (h : Due e k r) (h' : Due e k r') : r' = r := by
  cases h with
  | call hc _ =>
    cases h' with
    | call hc' _ => rw [hc.unique hc']
    | wake hgot _ _ => exact absurd (accepted_nil hc.uartInput) hgot
  | wake hgot hslot hw =>
    cases h' with
    | call hc' _ => exact absurd (accepted_nil hc'.uartInput) hgot
    | wake _ hslot' hw' =>
      obtain rfl := Option.some.inj (hslot.symm.trans hslot')
      obtain ⟨rfl, rfl⟩ := Prod.mk.inj (Option.some.inj (hw.symm.trans hw'))
      rfl

/-- A process goes on: no more than the mode of its frame and its state change. -/
structure Settles (k k' : Kernel) : Prop where
  machine : k'.machine = k.machine
  a0 : ∀ i, (k'.frames i).a0 = (k.frames i).a0
  slots : ∀ i p, k.procs.slots i = some p → p.state ≠ .sleepConsole →
    ∃ p', k'.procs.slots i = some p' ∧ p'.state ≠ .sleepConsole ∧ p'.rootPa = p.rootPa

theorem Kernel.withFrame_a0 (j i : ℕ) {tf : TrapFrame} (h : tf.a0 = (k.frames i).a0) :
    ((k.withFrame i tf).frames j).a0 = (k.frames j).a0 := by
  rw [Kernel.withFrame_frames]
  split_ifs with hj
  · rw [hj, h]
  · rfl

theorem resume_settles {u : Unit} (h : resumeCurrent k = .ok (u, k')) : Settles k k' := by
  rw [(resumeCurrent_ok h).2]
  exact ⟨rfl, fun i => Kernel.withFrame_a0 i _ rfl, fun i p hp hst => ⟨p, hp, hst, rfl⟩⟩

theorem Scheduled.settles (h : Scheduled k k') : Settles k k' := by
  rcases h with ⟨rfl, -⟩ | ⟨slot, p, hf, hp, rfl⟩
  · exact ⟨rfl, fun _ => rfl, fun i p hp hst => ⟨p, hp, hst, rfl⟩⟩
  · refine ⟨rfl, fun i => ?_, fun i q hq hst => ?_⟩
    · change (if i = slot then _ else k.frames i : TrapFrame).a0 = _
      split_ifs with hi
      · rw [hi]
        rfl
      · rfl
    · change ∃ p', (if i = slot then some _ else k.procs.slots i) = some p' ∧ _
      by_cases hi : i = slot
      · rw [if_pos hi]
        subst hi
        obtain rfl := Option.some.inj (hp.symm.trans hq)
        exact ⟨_, rfl, by simp, rfl⟩
      · rw [if_neg hi]
        exact ⟨q, hq, hst, rfl⟩

theorem Completes.settle {r : Request} {bytes : List UInt8} (hs : Settles k₁ k')
    (hask : Asks e k r) (hcount : (k₁.frames r.slot).a0 = bytes.length)
    (hp : k₁.procs.slots r.slot = some p) (hst : p.state ≠ .sleepConsole)
    (hread : Reads k₁.machine p.rootPa r.buf bytes) : Completes e k k' r bytes := by
  obtain ⟨p', hp', hst', hroot⟩ := hs.slots _ p hp hst
  refine ⟨hask, (hs.a0 _).trans hcount, p', hp', hst', ?_⟩
  rw [hroot, hs.machine]
  exact hread

/-- A short count is its own result. -/
theorem ofIsize_small {n : ℕ} (h : n ≤ 128) : ofIsize (n : ℤ) = n := by
  unfold ofIsize
  omega

/-- The copy of input into a mapped buffer. -/
theorem copyOut_reads {m m' : Machine} {root buf n : ℕ} {bytes : List UInt8}
    {res : Except String Unit} (hr : UserRoot m root) (hready : CopyReady m root buf n)
    (hlen : bytes.length ≤ n) (h : copyOut root buf bytes m = .ok (res, m')) :
    res = .ok () ∧ Reads m' root buf bytes := by
  obtain ⟨hok, hstored, -⟩ := (copyOut_exact hr buf bytes).ok h
  have hres : res = .ok () := hok.mpr ⟨lt_of_le_of_lt (by omega) hready.fits, hready.start,
    le_trans (by omega) hready.stop, fun a h1 h2 => hready.mapped a h1 (by omega)⟩
  exact ⟨hres, (hstored hres).reads hr hready.start (le_trans (by omega) hready.stop)⟩

/-- What a read of file descriptor 0 does. -/
theorem sysRead_console {tf : TrapFrame} {res : Option ℤ} (hfd : toIsize tf.a0 = 0)
    (h : sysRead io tf k = .ok (res, k')) : tf.a2 = 0 ∧ res = some 0 ∧ k' = k ∨ tf.a2 ≠ 0 ∧
      ∃ p bytes rx, k.procs.slots k.current = some p ∧
        k.rx.readBytes (min tf.a2 128) = (bytes, rx) ∧
        (bytes = [] ∧ res = none ∧ Scheduled ({ k with rx := rx }.setSlot k.current (some { p with
            state := .sleepConsole, readBufUva := tf.a1, readLen := tf.a2 })).idle k' ∨
          bytes ≠ [] ∧ ∃ out m, copyOut p.rootPa tf.a1 bytes k.machine = .ok (out, m) ∧
            k' = { k with rx := rx, machine := m } ∧
            ∃ ret, res = some ret ∧ (out = .ok () → ret = (bytes.length : ℤ))) := by
  unfold sysRead at h
  dsimp only at h
  rw [hfd, if_neg (by decide), if_neg (by decide)] at h
  by_cases hlen : tf.a2 = 0
  · rw [if_pos hlen] at h
    obtain ⟨rfl, rfl⟩ := Prod.mk.inj (Prog.pure_ok.mp h)
    exact .inl ⟨hlen, rfl, rfl⟩
  rw [if_neg hlen, Prog.get_bind_ok] at h
  rcases hb : k.rx.readBytes (min tf.a2 128) with ⟨bytes, rx⟩
  rw [hb] at h
  dsimp only at h
  rw [Prog.modify_bind_ok] at h
  refine .inr ⟨hlen, ?_⟩
  by_cases hnil : bytes = []
  · rw [if_pos hnil] at h
    obtain ⟨_, k₁, h1, h2⟩ := Prog.bind_ok.mp h
    obtain ⟨rfl, rfl⟩ := Prod.mk.inj (Prog.pure_ok.mp h2)
    unfold blockOnConsole at h1
    rw [Prog.get_bind_ok, procAt_bind] at h1
    obtain ⟨p, -, hp, h1⟩ := h1
    rw [setProc_bind] at h1
    exact ⟨p, bytes, rx, hp, rfl, .inl ⟨hnil, rfl, park_ok h1⟩⟩
  · rw [if_neg hnil] at h
    obtain ⟨x, k₁, h1, h2⟩ := Prog.bind_ok.mp h
    obtain ⟨p, -, hp, rfl, rfl⟩ := currentInfo_ok.mp h1
    dsimp only at h2
    rw [onMachine_bind] at h2
    obtain ⟨out, m, hcopy, h2⟩ := h2
    refine ⟨p, bytes, rx, hp, rfl, .inr ⟨hnil, out, m, hcopy, ?_⟩⟩
    cases out with
    | ok u =>
      obtain ⟨rfl, rfl⟩ := Prod.mk.inj (Prog.pure_ok.mp h2)
      exact ⟨rfl, _, rfl, fun _ => rfl⟩
    | error err =>
      obtain ⟨rfl, rfl⟩ := Prod.mk.inj (Prog.pure_ok.mp h2)
      exact ⟨rfl, _, rfl, nofun⟩

/-- The step of a process that reads the console. -/
theorem ConsoleCall.stream (h : ConsoleCall e k t io) (ht : Tree k) (hmap : BuffersMapped e k)
    (hn : Next e k k') : StreamStep e k k' := by
  obtain ⟨-, res, k₁, hcall, hend⟩ := step_call h.call h.user hn
  have harg : ∀ i : Fin 32, i ≠ 0 → ((trapState t k).frames k.current).reg i = t.arg i := by
    intro i hi
    rw [trapState_frame, trapFrame_reg h.call.cause _ hi]
  have ha0 : ((trapState t k).frames k.current).a0 = t.arg 10 := harg 10 (by decide)
  have ha1 : ((trapState t k).frames k.current).a1 = t.arg 11 := harg 11 (by decide)
  have ha2 : ((trapState t k).frames k.current).a2 = t.arg 12 := harg 12 (by decide)
  have hstream : k.rx.unread ++ k.rx.accepted (e.uartInput k) = k.rx.unread := by
    rw [accepted_nil h.uartInput]
    exact List.append_nil _
  have hstart : Calm k (trapState t k) := .congr rfl rfl
  have hask : Asks e k ⟨k.current, t.arg 11, t.arg 12⟩ := .call h
  obtain ⟨p, hp, hrun⟩ := ht.current h.user
  have hawake := ht.current_awake hp
  -- a read that waits still waits, so only the caller's can be over
  have honly : (∀ i, i ≠ k.current → k'.reader i = k.reader i) → ∀ r' bytes',
      Completes e k k' r' bytes' → r' = ⟨k.current, t.arg 11, t.arg 12⟩ := by
    intro hsame r' bytes' hc
    have hover := hc.over
    cases hc.asks with
    | call h' =>
      obtain rfl := h.unique h'
      rfl
    | @wait i buf len hw =>
      by_cases hi : i = k.current
      · rw [hi, ht.current_reader] at hw
        cases hw
      · rw [hsame i hi, hw] at hover
        cases hover
  have hread : ∀ bytes : List UInt8, t.arg 12 = 0 ∨ k.rx.unread ≠ [] →
      Completes e k k' ⟨k.current, t.arg 11, t.arg 12⟩ bytes →
      (∀ i, i ≠ k.current → k'.reader i = k.reader i) →
      bytes.length = min (min (t.arg 12) 128) k.rx.unread.length →
      k.rx.unread = bytes ++ k'.rx.unread → StreamStep e k k' := by
    intro bytes hready hc hsame hcount hbytes
    refine .read (.call h hready) hc (fun r' bytes' hc' => ?_) (by rw [hstream, hcount])
      (by rw [hstream, hbytes])
    obtain rfl := honly hsame r' bytes' hc'
    exact ⟨rfl, hc.unique hc'⟩
  obtain ⟨hlen, rfl, rfl⟩ | ⟨hlen, q, bytes, rx, hq, hb, hways⟩ := sysRead_console (ha0 ▸ h.fd) hcall
  · -- nothing was asked for
    have hk := (resumeCurrent_ok hend).2
    have hzero : t.arg 12 = 0 := ha2 ▸ hlen
    refine hread [] (.inl hzero) ?_ (fun i _ => by rw [hk]; rfl) (by simp [hzero]) (by rw [hk]; rfl)
    refine .settle (resume_settles hend) hask ?_ hp hawake fun i hi => absurd hi (by simp)
    rw [Kernel.withFrame_self, setA0_a0]
    rfl
  obtain rfl := Option.some.inj (hp.symm.trans hq)
  rw [ha2] at hlen
  replace hb : k.rx.readBytes (min (t.arg 12) 128) = (bytes, rx) := ha2 ▸ hb
  obtain ⟨htake, hdrop⟩ := RxRing.readBytes_eq hb
  have hcount := length_taken hb
  obtain ⟨hnil, rfl, hs⟩ | ⟨hne, out, m, hcopy, rfl, ret, rfl, hres⟩ := hways
  · -- nothing was there, and the caller waits
    obtain rfl := hend
    have hreader : ∀ i, k'.reader i = if i = k.current then some (t.arg 11, t.arg 12) else k.reader i := by
      intro i
      rw [hs.calm.reader, ← ha1, ← ha2]
      exact Kernel.reader_setSlot _ _ _
    have hsame : ∀ i, i ≠ k.current → k'.reader i = k.reader i := fun i hi => by
      rw [hreader, if_neg hi]
    have hempty : k.rx.unread = [] := by
      rw [hnil, List.length_nil] at hcount
      exact List.length_eq_zero_iff.mp (by omega)
    refine .idle (fun r hdue => ?_) (fun r' bytes' hc => ?_) ?_
    · cases hdue with
      | call h' hready =>
        obtain rfl := h.unique h'
        exact hready.elim hlen fun hne => hne hempty
      | wake hgot _ _ => exact hgot (accepted_nil h.uartInput)
    · have hover := hc.over
      obtain rfl := honly hsame r' bytes' hc
      rw [hreader, if_pos rfl] at hover
      cases hover
    · rw [hstream, hs.calm.rx]
      change k.rx.unread = rx.unread
      rw [hdrop, hempty, List.drop_nil]
  · obtain ⟨hroot, hready⟩ := hmap _ hask hlen p hp
    have hle : bytes.length ≤ min (t.arg 12) 128 := by omega
    rw [ha1] at hcopy
    obtain ⟨hok, hreads⟩ := copyOut_reads hroot hready hle hcopy
    obtain rfl := hres hok
    have hk := (resumeCurrent_ok hend).2
    have hunread : k.rx.unread ≠ [] := by
      intro hnil
      rw [hnil, List.take_nil] at htake
      exact hne htake
    refine hread bytes (.inr hunread) ?_ (fun i _ => by rw [hk]; rfl) hcount ?_
    · refine .settle (resume_settles hend) hask ?_ hp hawake hreads
      rw [Kernel.withFrame_self, setA0_a0, ofIsize_small (by omega), Nat.mod_eq_of_lt (by omega)]
    · rw [hk]
      change k.rx.unread = bytes ++ rx.unread
      rw [htake, hdrop, List.take_append_drop]

/-- What console input does: it goes to the ring, and from there to the first reader. -/
theorem handleInterrupt_ok {input : List UInt8} {u : Unit}
    (h : handleInterrupt input k = .ok (u, k')) :
    (k.rx.accepted input = [] ∨ firstReader k = none) ∧
        k' = { k with rx := (k.rx.receiveAll input).1 } ∨
      k.rx.accepted input ≠ [] ∧ ∃ slot p bytes rx, firstReader k = some slot ∧
        k.procs.slots slot = some p ∧
        (k.rx.receiveAll input).1.readBytes (min p.readLen 128) = (bytes, rx) ∧
        (bytes = [] ∧ k' = { k with rx := rx } ∨ bytes ≠ [] ∧ ∃ out m,
          copyOut p.rootPa p.readBufUva bytes k.machine = .ok (out, m) ∧
            k' = woken k slot p bytes rx out m) := by
  unfold handleInterrupt at h
  rw [Prog.get_bind_ok] at h
  obtain ⟨-, hgot⟩ := k.rx.receiveAll_unread input
  rcases hall : k.rx.receiveAll input with ⟨rx₁, got⟩
  rw [hall] at h hgot
  dsimp only at h hgot
  obtain ⟨_, k₁, h1, h2⟩ := Prog.bind_ok.mp h
  obtain rfl := Prog.set_ok.mp h1
  cases got with
  | false =>
    obtain rfl := Prog.pure_state h2
    exact .inl ⟨.inl (by simpa using hgot), rfl⟩
  | true =>
    rw [if_pos rfl] at h2
    unfold wakeConsoleReader at h2
    rw [Prog.get_bind_ok] at h2
    cases hs : firstReader k with
    | none =>
      rw [show ProcTable.position _ _ = none from hs] at h2
      obtain rfl := Prog.pure_state h2
      exact .inl ⟨.inr rfl, rfl⟩
    | some slot =>
      rw [show ProcTable.position _ _ = some slot from hs] at h2
      dsimp only at h2
      rw [procAt_bind] at h2
      obtain ⟨p, -, hp, h2⟩ := h2
      rcases hb : rx₁.readBytes (min p.readLen 128) with ⟨bytes, rx⟩
      rw [hb] at h2
      dsimp only at h2
      rw [Prog.modify_bind_ok] at h2
      refine .inr ⟨hgot.mp rfl, slot, p, bytes, rx, rfl, hp, hb, ?_⟩
      by_cases hnil : bytes = []
      · rw [if_pos hnil] at h2
        exact .inl ⟨hnil, Prog.pure_state h2⟩
      · rw [if_neg hnil, onMachine_bind] at h2
        obtain ⟨out, m, hcopy, h2⟩ := h2
        rw [Prog.get_bind_ok, setFrame_bind] at h2
        obtain rfl := setProc_ok.mp h2
        refine .inr ⟨hnil, out, m, hcopy, ?_⟩
        cases out <;> rfl

/-- A step with input serves the interrupt first, on the way to user mode or from the
idle loop. -/
theorem Next.uart (hn : Next e k k') (hne : e.uartInput k ≠ []) : ∃ k₀ k₁,
    k₀.procs = k.procs ∧ k₀.machine = k.machine ∧ k₀.rx = k.rx ∧
      handleInterrupt (e.uartInput k) k₀ = .ok ((), k₁) ∧ Settles k₁ k' ∧ Calm k₁ k' := by
  have hn' := hn
  unfold Next step at hn
  rw [Prog.get_bind_ok] at hn
  cases e with
  | spawn disk name => exact absurd rfl hne
  | heapGrow size align => exact absurd rfl hne
  | store va b => exact absurd rfl hne
  | idle i =>
    cases i with
    | none => exact absurd rfl hne
    | some i =>
      cases i with
      | timer => exact absurd rfl hne
      | other code => exact absurd rfl hne
      | external irq input =>
        have hinput : k.current = noProc ∧ irq = irqUart0 := by
          by_contra hno
          exact hne (if_neg hno)
        dsimp only at hn
        rw [if_pos hinput.1] at hn
        obtain ⟨_, k₁, h1, h2⟩ := Prog.bind_ok.mp hn
        have hs := schedule_ok h2
        refine ⟨k, k₁, rfl, rfl, rfl, ?_, hs.settles, hs.calm⟩
        rw [Event.uartInput, if_pos hinput]
        change externalInterrupt irq input k = _ at h1
        rwa [externalInterrupt, if_pos hinput.2] at h1
  | trap t =>
    cases hcause : t.cause with
    | ecall io => exact absurd (by simp [Event.uartInput, hcause]) hne
    | fault sc => exact absurd (by simp [Event.uartInput, hcause]) hne
    | interrupt i =>
      cases i with
      | timer => exact absurd (by simp [Event.uartInput, hcause]) hne
      | other code => exact absurd (by simp [Event.uartInput, hcause]) hne
      | external irq input =>
        have huart : (Event.trap t).uartInput k =
            if k.current ≠ noProc ∧ irq = irqUart0 then input else [] := by
          simp only [Event.uartInput, hcause]
        have hinput : k.current ≠ noProc ∧ irq = irqUart0 := by
          by_contra hno
          exact hne (huart.trans (if_neg hno))
        have hrun := step_trap rfl hinput.1 (by simp [hcause]) hn'
        rw [hcause] at hrun
        obtain ⟨_, k₁, h1, h2⟩ := Prog.bind_ok.mp hrun
        refine ⟨trapState t k, k₁, rfl, rfl, rfl, ?_, resume_settles h2, ?_⟩
        · rw [huart, if_pos hinput]
          rwa [externalInterrupt, if_pos hinput.2] at h1
        · rw [(resumeCurrent_ok h2).2]
          exact .congr rfl rfl

theorem firstReader_reads {slot : ℕ} (h : firstReader k = some slot)
    (hp : k.procs.slots slot = some p) : k.reader slot = some (p.readBufUva, p.readLen) := by
  obtain ⟨-, q, hq, hsleep⟩ := firstReader_sleeps h
  obtain rfl := Option.some.inj (hp.symm.trans hq)
  rw [Kernel.reader, hp, Option.bind_some]
  exact if_pos hsleep

/-- Nobody waits for nothing. -/
def AsksSome (k : Kernel) : Prop := ∀ i buf len, k.reader i = some (buf, len) → len ≠ 0

theorem Calm.asksSome (h : Calm k k') (hk : AsksSome k) : AsksSome k' := by
  intro i buf len hi
  rw [h.reader] at hi
  exact hk i buf len hi

theorem firstReader_none (ht : Tree k) (h : firstReader k = none) (i : ℕ) : k.reader i = none := by
  cases hp : k.procs.slots i with
  | none =>
    rw [Kernel.reader, hp]
    rfl
  | some p =>
    refine Kernel.reader_none hp fun hsleep => ?_
    have hno := List.find?_eq_none.mp h i (List.mem_range.mpr (ht.bound i p hp))
    simp [hp, hsleep] at hno

/-- A process that reads the console finds input, or joins the readers that wait. -/
theorem ConsoleCall.after {t : UserTrap} {io : Io} (h : ConsoleCall e k t io) (hn : Next e k k') :
    (∀ i, k'.reader i = k.reader i) ∧ (∃ n, k'.rx.unread = k.rx.unread.drop n) ∨
      t.arg 12 ≠ 0 ∧ k'.rx.unread = [] ∧
        ∀ i, k'.reader i = if i = k.current then some (t.arg 11, t.arg 12) else k.reader i := by
  obtain ⟨-, res, k₁, hcall, hend⟩ := step_call h.call h.user hn
  have harg : ∀ i : Fin 32, i ≠ 0 → ((trapState t k).frames k.current).reg i = t.arg i := by
    intro i hi
    rw [trapState_frame, trapFrame_reg h.call.cause _ hi]
  have ha0 : ((trapState t k).frames k.current).a0 = t.arg 10 := harg 10 (by decide)
  have ha1 : ((trapState t k).frames k.current).a1 = t.arg 11 := harg 11 (by decide)
  have ha2 : ((trapState t k).frames k.current).a2 = t.arg 12 := harg 12 (by decide)
  have hresume : ∀ ret, res = some ret → k'.procs = k₁.procs ∧ k'.rx = k₁.rx := by
    rintro ret rfl
    rw [(resumeCurrent_ok hend).2]
    exact ⟨rfl, rfl⟩
  obtain ⟨-, rfl, rfl⟩ | ⟨hlen, p, bytes, rx, hp, hb, hways⟩ := sysRead_console (ha0 ▸ h.fd) hcall
  · obtain ⟨hprocs, hrx⟩ := hresume 0 rfl
    exact .inl ⟨fun i => by rw [Kernel.reader, hprocs]; rfl, 0, by rw [hrx]; rfl⟩
  obtain ⟨htake, hdrop⟩ := RxRing.readBytes_eq hb
  obtain ⟨hnil, rfl, hs⟩ | ⟨hne, out, m, hcopy, rfl, ret, rfl, hres⟩ := hways
  · obtain rfl := hend
    rw [ha2] at hlen
    refine .inr ⟨hlen, ?_, fun i => ?_⟩
    · have hcount := length_taken hb
      rw [ha2, hnil, List.length_nil] at hcount
      change 0 = min _ k.rx.unread.length at hcount
      rw [hs.calm.rx]
      change rx.unread = []
      rw [hdrop, List.drop_eq_nil_iff]
      change k.rx.unread.length ≤ _
      omega
    · rw [hs.calm.reader, ← ha1, ← ha2]
      exact Kernel.reader_setSlot _ _ _
  · obtain ⟨hprocs, hrx⟩ := hresume ret rfl
    exact .inl ⟨fun i => by rw [Kernel.reader, hprocs]; rfl, _, by rw [hrx]; exact hdrop⟩

/-- Whoever waits has asked for something, after every step. -/
theorem Next.asksSome (ht : Tree k) (ho : e.ordinary) (ha : AsksSome k) (hn : Next e k k') :
    AsksSome k' := by
  by_cases hcall : ∃ t io, ConsoleCall e k t io
  · obtain ⟨t, io, h⟩ := hcall
    intro i buf len hi
    obtain ⟨hsame, -⟩ | ⟨hlen, -, hjoin⟩ := h.after hn
    · exact ha i buf len (hsame i ▸ hi)
    · rw [hjoin] at hi
      split_ifs at hi with hcur
      · obtain ⟨rfl, rfl⟩ := Prod.mk.inj (Option.some.inj hi)
        exact hlen
      · exact ha i buf len hi
  push Not at hcall
  by_cases huart : e.uartInput k = []
  · exact (hn.calm ht ho huart hcall).asksSome ha
  obtain ⟨k₀, k₁, hprocs, -, -, hrun, -, hcalm⟩ := hn.uart huart
  refine hcalm.asksSome fun i buf len hi => ?_
  have hreader₀ : k₀.reader i = k.reader i := by rw [Kernel.reader, Kernel.reader, hprocs]
  rcases handleInterrupt_ok hrun with ⟨-, rfl⟩ | ⟨-, slot, p, bytes, rx, -, -, -, hways⟩
  · exact ha i buf len (hreader₀ ▸ hi)
  rcases hways with ⟨-, rfl⟩ | ⟨-, out, m, -, rfl⟩
  · exact ha i buf len (hreader₀ ▸ hi)
  · rw [Kernel.reader, woken_slot] at hi
    split_ifs at hi with hs
    · cases hi
    · exact ha i buf len (hreader₀ ▸ hi)

/-- The step that serves an interrupt with input. -/
theorem Next.input (ha : AsksSome k) (hmap : BuffersMapped e k) (hn : Next e k k')
    (hne : e.uartInput k ≠ []) :
    StreamStep e k k' := by
  obtain ⟨k₀, k₁, hprocs, hmach, hrx, hrun, hsettle, hcalm⟩ := hn.uart hne
  obtain ⟨hall, -⟩ := k.rx.receiveAll_unread (e.uartInput k)
  have hreader₀ : ∀ i, k₀.reader i = k.reader i := fun i => by rw [Kernel.reader, Kernel.reader, hprocs]
  -- only a read that no longer waits can be over
  have hover : ∀ {r bytes}, Completes e k k' r bytes → k.reader r.slot ≠ k₁.reader r.slot := by
    intro r bytes hc hsame
    have hnone := hc.over
    rw [hcalm.reader, ← hsame] at hnone
    cases hc.asks with
    | call h => exact hne h.uartInput
    | wait hw => exact Option.some_ne_none _ (hw.symm.trans hnone)
  have hfirst : firstReader k₀ = firstReader k := by rw [firstReader, firstReader, hprocs]
  rcases handleInterrupt_ok hrun with ⟨hnone, rfl⟩ | ⟨hgot, slot, p, bytes, rx, hslot, hp, hb, hways⟩
  · rw [hrx, hfirst] at hnone
    refine .idle (fun r hdue => ?_) (fun r bytes hc => hover hc (hreader₀ _).symm) ?_
    · cases hdue with
      | call h _ => exact hne h.uartInput
      | wake hgot hslot _ =>
        rcases hnone with hnil | hno
        · exact hgot hnil
        · exact Option.some_ne_none _ (hslot.symm.trans hno)
    · rw [hcalm.rx, ← hall, hrx]
  rw [hrx] at hb hgot
  obtain ⟨htake, hdrop⟩ := RxRing.readBytes_eq hb
  have hcount := length_taken hb
  rw [hall] at hcount
  have hwait : k.reader slot = some (p.readBufUva, p.readLen) := by
    rw [← hreader₀]
    exact firstReader_reads hslot hp
  have hlen := ha slot _ _ hwait
  have hsome := List.length_pos_of_ne_nil hgot
  rcases hways with ⟨hnil, rfl⟩ | ⟨hbytes, out, m, hcopy, rfl⟩
  · rw [hnil, List.length_nil, List.length_append] at hcount
    omega
  have hask : Asks e k ⟨slot, p.readBufUva, p.readLen⟩ := .wait hwait
  have hp' : k.procs.slots slot = some p := hprocs ▸ hp
  have hpos := List.length_pos_of_ne_nil hbytes
  obtain ⟨hroot, hready⟩ := hmap _ hask (show p.readLen ≠ 0 by omega) p hp'
  have hle : bytes.length ≤ min p.readLen 128 := by omega
  rw [hmach] at hcopy
  obtain ⟨rfl, hreads⟩ := copyOut_reads hroot hready hle hcopy
  have hdone : Completes e k k' ⟨slot, p.readBufUva, p.readLen⟩ bytes := by
    refine .settle (p := { p with state := .ready }) hsettle hask ?_
      ((woken_slot slot).trans (if_pos rfl)) (by simp) hreads
    rw [woken_a0]
    exact Nat.mod_eq_of_lt (lt_of_le_of_lt (show bytes.length ≤ 128 by omega) (by decide))
  have hkeep : ∀ i, i ≠ slot → (woken k₀ slot p bytes rx (.ok ()) m).reader i = k.reader i := by
    intro i hi
    rw [← hreader₀, Kernel.reader, Kernel.reader, woken_slot, if_neg hi]
  refine .read (.wake hgot (hfirst ▸ hslot) hwait) hdone (fun r' bytes' hc => ?_) hcount ?_
  · have hsame : r'.slot = slot := by
      by_contra hi
      exact hover hc (hkeep _ hi).symm
    obtain rfl : r' = ⟨slot, p.readBufUva, p.readLen⟩ := by
      cases hc.asks with
      | call h => exact absurd h.uartInput hne
      | wait hw =>
        obtain rfl : _ = slot := hsame
        obtain ⟨rfl, rfl⟩ := Prod.mk.inj (Option.some.inj (hw.symm.trans hwait))
        rfl
    exact ⟨rfl, hdone.unique hc⟩
  · rw [← hall, hcalm.rx]
    change _ = bytes ++ rx.unread
    rw [htake, hdrop, List.take_append_drop]

/-- Every step moves the stream in one of the two ways. -/
theorem Next.stream (ht : Tree k) (ho : e.ordinary) (ha : AsksSome k) (hmap : BuffersMapped e k)
    (hn : Next e k k') : StreamStep e k k' := by
  by_cases hcall : ∃ t io, ConsoleCall e k t io
  · obtain ⟨t, io, h⟩ := hcall
    exact h.stream ht hmap hn
  push Not at hcall
  by_cases huart : e.uartInput k = []
  · have hcalm := hn.calm ht ho huart hcall
    refine .idle (fun r hdue => ?_) (fun r bytes hc => ?_) ?_
    · cases hdue with
      | call h _ => exact hcall _ _ h
      | wake hgot _ _ => exact hgot (accepted_nil huart)
    · have hover := hc.over
      rw [hcalm.reader] at hover
      cases hc.asks with
      | call h => exact hcall _ _ h
      | wait hw => exact Option.some_ne_none _ (hw.symm.trans hover)
    · rw [huart, hcalm.rx]
      exact List.append_nil _
  · exact hn.input ha hmap huart

/-- A copy leaves its buffer mapped. -/
theorem copyOut_ready {m m' : Machine} {root uva n : ℕ} {bytes : List UInt8}
    {res : Except String Unit} (hr : UserRoot m root) (h : copyOut root uva bytes m = .ok (res, m'))
    (hlen : bytes.length ≤ n) (hready : CopyReady m root uva n) : CopyReady m' root uva n := by
  obtain ⟨-, -, i, hi, hstored⟩ := (copyOut_exact hr uva bytes).ok h
  have hstop := hready.stop
  have hc : Confined m root m' := by
    refine hstored.confined hready.start ?_
    rw [List.length_take]
    omega
  refine ⟨hready.fits, hready.start, hready.stop, fun a h1 h2 => ?_⟩
  rw [hr.translation_eq hc ⟨le_trans hready.start h1, by omega⟩]
  exact hready.mapped a h1 h2

/-- The UART interrupt of an idle hart, with input for the first process that waits. -/
theorem Shows.input {s : Shape} (h : Shows k s) (hr : Reached k) (hcur : k.current = noProc)
    {slot : ℕ} (hslot : firstReader k = some slot) (hp : s.ps[slot]? = some p)
    (hlen : p.readLen ≠ 0) {input : List UInt8} (hgot : k.rx.accepted input ≠ []) :
    ∃ k' bytes res, Next (.idle (some (.external irqUart0 input))) k k' ∧ Reached k' ∧
      Shows k' (Shape.park { s with ps := s.ps.set slot { p with state := .ready } }) ∧
      bytes.length ≤ p.readLen ∧
      copyOut p.rootPa p.readBufUva bytes k.machine = .ok (res, k'.machine) := by
  have hp' : k.procs.slots slot = some p := (h.slots slot).trans hp
  obtain ⟨hall, hsome⟩ := k.rx.receiveAll_unread input
  rcases hrx : k.rx.receiveAll input with ⟨rx₁, got⟩
  rw [hrx] at hall hsome
  obtain rfl : got = true := hsome.mpr hgot
  rcases hb : rx₁.readBytes (min p.readLen 128) with ⟨bytes, rx⟩
  have hcount := length_taken hb
  have hpos := List.length_pos_of_ne_nil hgot
  rw [show rx₁.unread = _ from hall, List.length_append] at hcount
  have hne : bytes ≠ [] := by
    rintro rfl
    rw [List.length_nil] at hcount
    omega
  obtain ⟨res, m, hcopy, -⟩ := copyOut_result (hr.userRoot hp') p.readBufUva bytes
  have hset := h.modify (c := woken { k with rx := rx₁ } slot p bytes rx res m) hp
    (fun j => woken_slot j) rfl rfl
  obtain ⟨k', hpark, hshow, hmach, -⟩ := hset.park
  have hidle : (woken { k with rx := rx₁ } slot p bytes rx res m).current = noProc := hcur
  have hsched : schedule (woken { k with rx := rx₁ } slot p bytes rx res m) = .ok ((), k') := by
    unfold LightOS.park at hpark
    rw [Prog.modify_bind_ok] at hpark
    rwa [← hidle] at hpark
  rw [show (woken { k with rx := rx₁ } slot p bytes rx res m).current = s.cur from h.current] at hshow
  have hn := uart_next hcur hrx hslot hp' (h.lt hp') hb hne hcopy hsched
  exact ⟨k', bytes, res, hn, hr.idle hn, hshow, by omega, by rw [hmach]; exact hcopy⟩

/-- A read of the console that finds bytes returns. -/
theorem Shows.take {s : Shape} (h : Shows k s) (hr : Reached k) (hc : Calls t io .read)
    (hp : s.ps[s.cur]? = some p) (hfd : t.arg 10 = 0) (hlen : t.arg 12 ≠ 0)
    (hne : k.rx.unread ≠ []) : ∃ k', Next (.trap t) k k' := by
  have hslot : k.procs.slots k.current = some p := by rw [h.slots, h.current, hp]
  have harg : ∀ i : Fin 32, i ≠ 0 → ((trapState t k).frames k.current).reg i = t.arg i := by
    intro i hi
    rw [trapState_frame, trapFrame_reg hc.cause _ hi]
  have ha0 : ((trapState t k).frames k.current).a0 = 0 := (harg 10 (by decide)).trans hfd
  have ha2 : ((trapState t k).frames k.current).a2 = t.arg 12 := harg 12 (by decide)
  rcases hb : k.rx.readBytes (min (t.arg 12) 128) with ⟨bytes, rx⟩
  have hcount := length_taken hb
  have hpos := List.length_pos_of_ne_nil hne
  have hsome : bytes ≠ [] := by
    rintro rfl
    rw [List.length_nil] at hcount
    omega
  obtain ⟨res, m, hcopy, -⟩ := copyOut_result (hr.userRoot hslot)
    ((trapState t k).frames k.current).a1 bytes
  rw [← ha2] at hlen hb
  have hcall : syscall io ((trapState t k).frames k.current) .read (trapState t k) = _ :=
    sysRead_takes (k := trapState t k) (h.lt hslot) hslot ha0 hlen hb hsome hcopy
  exact ⟨_, Next.of_answered hc (h.lt hslot) hcall rfl hslot⟩

/-- Nobody waits in a started system. -/
theorem Started.reader (hs : Started k) (i : ℕ) : k.reader i = none := by
  obtain ⟨p, -, hready, -, -, hslots⟩ := hs.slots
  rw [Kernel.reader, hslots]
  split_ifs
  · exact Process.reading_none (by simp [hready])
  · rfl

end Steps

/-! ### The stream of a whole run -/

/-- A run from `k0`, with the input that was accepted on the way and the reads that were
completed, in their order. -/
inductive ConsoleRun (k0 : Kernel) : List UInt8 → List (Request × List UInt8) → Kernel → Prop
  | refl : ConsoleRun k0 [] [] k0
  | idle {acc : List UInt8} {reads : List (Request × List UInt8)} {k k' : Kernel} {e : Event}
      (h : ConsoleRun k0 acc reads k) (ho : e.ordinary) (hmap : BuffersMapped e k)
      (hn : Next e k k') (hno : ∀ r bytes, ¬ Completes e k k' r bytes) :
      ConsoleRun k0 (acc ++ k.rx.accepted (e.uartInput k)) reads k'
  | read {acc : List UInt8} {reads : List (Request × List UInt8)} {k k' : Kernel} {e : Event}
      {r : Request} {bytes : List UInt8} (h : ConsoleRun k0 acc reads k) (ho : e.ordinary)
      (hmap : BuffersMapped e k) (hn : Next e k k') (hc : Completes e k k' r bytes) :
      ConsoleRun k0 (acc ++ k.rx.accepted (e.uartInput k)) (reads ++ [(r, bytes)]) k'

variable {k0 k k' : Kernel} {e : Event} {acc : List UInt8} {reads : List (Request × List UInt8)}

/-- Every run of processes that read into mapped buffers is of this kind. -/
theorem exists_consoleRun (h : ReachesIf BuffersMapped k0 k) : ∃ acc reads, ConsoleRun k0 acc reads k := by
  induction h with
  | refl => exact ⟨[], [], .refl⟩
  | @tail k₁ k₂ _ hlast ih =>
    obtain ⟨acc, reads, hrun⟩ := ih
    obtain ⟨e, ⟨ho, hmap⟩, hn⟩ := hlast
    by_cases hc : ∃ r bytes, Completes e k₁ k₂ r bytes
    · obtain ⟨r, bytes, hc⟩ := hc
      exact ⟨_, _, .read hrun ho hmap hn hc⟩
    · push Not at hc
      exact ⟨_, _, .idle hrun ho hmap hn hc⟩

theorem ConsoleRun.reaches (h : ConsoleRun k0 acc reads k) : Reaches k0 k := by
  induction h with
  | refl => exact .refl _
  | idle _ ho _ hn _ ih => exact ih.snoc ho hn
  | read _ ho _ hn _ ih => exact ih.snoc ho hn

theorem Started.asksSome (hs : Started k0) : AsksSome k0 := by
  intro i buf len hi
  simp [hs.reader i] at hi

theorem ConsoleRun.asksSome (hs : Started k0) (h : ConsoleRun k0 acc reads k) : AsksSome k := by
  induction h with
  | refl => exact hs.asksSome
  | idle hrun ho _ hn _ ih => exact hn.asksSome (hrun.reaches.tree hs) ho ih
  | read hrun ho _ hn _ ih => exact hn.asksSome (hrun.reaches.tree hs) ho ih

/-- What was delivered and what is still unread is what was accepted, in order. -/
theorem ConsoleRun.conserved (hs : Started k0) (h : ConsoleRun k0 acc reads k) :
    k0.rx.unread ++ acc = reads.flatMap Prod.snd ++ k.rx.unread ∧
      ∀ x ∈ reads, x.2.length ≤ min x.1.len 128 := by
  induction h with
  | refl => exact ⟨by simp, by simp⟩
  | idle hrun ho hmap hn hno ih =>
    refine ⟨?_, ih.2⟩
    have hstep := hn.stream (hrun.reaches.tree hs) ho (hrun.asksSome hs) hmap
    cases hstep with
    | idle _ _ hstream => rw [← List.append_assoc, ih.1, List.append_assoc, hstream]
    | read _ hc _ _ _ => exact absurd hc (hno _ _)
  | read hrun ho hmap hn hc ih =>
    have hstep := hn.stream (hrun.reaches.tree hs) ho (hrun.asksSome hs) hmap
    cases hstep with
    | idle _ hno _ => exact absurd hc (hno _ _)
    | read _ _ honly hcount hstream =>
      obtain ⟨rfl, rfl⟩ := honly _ _ hc
      refine ⟨?_, fun x hx => ?_⟩
      · rw [← List.append_assoc, ih.1, List.append_assoc, hstream]
        simp
      · rcases List.mem_append.mp hx with hx | hx
        · exact ih.2 x hx
        · rw [List.mem_singleton.mp hx]
          dsimp only
          omega

/-- The read that a step has to complete. -/
theorem Next.completes {r : Request} (ht : Tree k) (ho : e.ordinary) (ha : AsksSome k)
    (hmap : BuffersMapped e k) (hn : Next e k k') (hdue : Due e k r) :
    ∃ bytes, Completes e k k' r bytes ∧ bytes.length =
        min (min r.len 128) (k.rx.unread ++ k.rx.accepted (e.uartInput k)).length ∧
      k.rx.unread ++ k.rx.accepted (e.uartInput k) = bytes ++ k'.rx.unread := by
  cases hn.stream ht ho ha hmap with
  | idle hdry _ _ => exact absurd hdue (hdry r)
  | read hdue' hc _ hcount hstream =>
    obtain rfl := hdue.unique hdue'
    exact ⟨_, hc, hcount, hstream⟩

/-- Console input is a first-in first-out stream: the bytes delivered are a prefix of
those accepted, a read that finds bytes is completed with as many as it may take, a step
completes at most one read, and only a ring with 255 unread bytes drops one. -/
theorem console_fifo (hs : Started k0) (hr : ConsoleRun k0 acc reads k) :
    k0.rx.unread ++ acc = reads.flatMap Prod.snd ++ k.rx.unread ∧
      (∀ x ∈ reads, x.2.length ≤ min x.1.len 128) ∧
      ∀ e k', e.ordinary → BuffersMapped e k → Next e k k' →
        (∀ r, Due e k r → ∃ bytes, Completes e k k' r bytes ∧ bytes.length =
          min (min r.len 128) (k.rx.unread ++ k.rx.accepted (e.uartInput k)).length) ∧
        (∀ r bytes r' bytes', Completes e k k' r bytes → Completes e k k' r' bytes' →
          r' = r ∧ bytes' = bytes) ∧
        ∀ xs b ys, e.uartInput k = xs ++ b :: ys →
          ((k.rx.receiveAll xs).1.receive b).2 = false →
          (k.rx.receiveAll xs).1.unread.length = 255 := by
  obtain ⟨hstream, hlen⟩ := hr.conserved hs
  have ht := hr.reaches.tree hs
  have ha := hr.asksSome hs
  refine ⟨hstream, hlen, fun e k' ho hmap hn => ⟨fun r hdue => ?_, ?_, ?_⟩⟩
  · obtain ⟨bytes, hc, hcount, -⟩ := hn.completes ht ho ha hmap hdue
    exact ⟨bytes, hc, hcount⟩
  · intro r bytes r' bytes' hc hc'
    cases hn.stream ht ho ha hmap with
    | idle _ hno _ => exact absurd hc (hno _ _)
    | read _ _ honly _ _ =>
      obtain ⟨rfl, rfl⟩ := honly _ _ hc
      exact honly _ _ hc'
  · exact fun xs b ys _ hdrop => RxRing.receive_dropped hdrop

/-- A process waits for `len` bytes at `buf`. -/
def listening (p : Process) (buf len : ℕ) : Process :=
  { p with state := .sleepConsole, readBufUva := buf, readLen := len }

/-- The reads of a machine with one process. -/
theorem Shows.asks_one {q : Process} {va cur : ℕ} {r : Request} (h : Shows k ⟨cur, 0, [q]⟩)
    (hva : va < 2 ^ 64) (hq : q.state ≠ .sleepConsole) (hr : Asks e k r)
    (he : e = .trap (callTrap 63 0 va 1)) : r = ⟨cur, va, 1⟩ := by
  subst he
  cases hr with
  | call hcall =>
    obtain rfl := Event.trap.inj hcall.call.event
    rw [h.current, show (callTrap 63 0 va 1).arg 11 = va from Nat.mod_eq_of_lt hva]
    rfl
  | @wait i buf len hw =>
    rw [Kernel.reader, h.slots] at hw
    rcases i with _ | i
    · cases (Process.reading_none hq).symm.trans hw
    · cases hw

/-- The one process sleeps. -/
theorem Shows.waits_one {q : Process} {va cur : ℕ} {r : Request} {i : Option Interrupt}
    (h : Shows k ⟨cur, 0, [listening q va 1]⟩) (hr : Asks (.idle i) k r) : r = ⟨0, va, 1⟩ := by
  cases hr with
  | call hcall => cases hcall.call.event
  | @wait j buf len hw =>
    rw [Kernel.reader, h.slots] at hw
    rcases j with _ | j
    · cases hw
      rfl
    · cases hw

/-- One buffer is asked for, and it is mapped. -/
theorem Shows.buffersMapped {q : Process} {va cur : ℕ} (h : Shows k ⟨cur, 0, [q]⟩) (hr : Reached k)
    (hready : CopyReady k.machine q.rootPa va 1) (hasks : ∀ r, Asks e k r → r = ⟨0, va, 1⟩) :
    BuffersMapped e k := by
  intro r hask _ x hx
  obtain rfl := hasks r hask
  refine ⟨hr.userRoot hx, ?_⟩
  rw [h.slots] at hx
  obtain rfl := Option.some.inj hx
  exact hready

/-- Init waits for one byte, the terminal sends three, and init reads once more: the first
read is completed by the interrupt and the second at once. -/
theorem console_fifo_reads : ∃ k0 k va, Started k0 ∧ k.rx.unread = [66] ∧
    ConsoleRun k0 [65, 10, 66] [(⟨0, va, 1⟩, [65]), (⟨0, va, 1⟩, [10])] k := by
  obtain ⟨k1, p, hf⟩ := exists_firstRun
  obtain ⟨k0, hs, n1⟩ := hf.start
  obtain ⟨va, hva⟩ := hf.mappedPage
  have ready1 : CopyReady k1.machine p.rootPa va 1 := hva 1 (by decide)
  have hlt : va < 2 ^ 64 := lt_of_le_of_lt (Nat.le_add_right va 1) ready1.fits
  have hc := callTrap_calls 63 0 va 1 rfl
  have hcall (k : Kernel) (h : k.current = 0) : ConsoleCall (.trap (callTrap 63 0 va 1)) k _ noIo :=
    ⟨⟨rfl, hc.cause, hc.number⟩, by rw [h]; decide, rfl⟩
  have harg : (callTrap 63 0 va 1).arg 11 = va := Nat.mod_eq_of_lt hlt
  have hread : (Event.trap (callTrap 63 0 va 1)).ordinary := trivial
  have hidle : ∀ i, (Event.idle i).ordinary := fun i => trivial
  -- init starts
  have hnone (r : Request) : ¬ Asks (.idle none) k0 r := by
    intro hr
    cases hr with
    | call h => cases h.call.event
    | wait h => cases (hs.reader _).symm.trans h
  have h0 : ConsoleRun k0 [] [] k0 := .refl
  have h1 : ConsoleRun k0 [] [] k1 := h0.idle (hidle _) (fun r hr => absurd hr (hnone r)) n1
    fun r bytes hc => hnone r hc.asks
  -- it reads an empty ring
  obtain ⟨k2, n2, r2, s2, m2, a2⟩ := hf.shows_.read hf.reached hc rfl rfl
    (show (1 : ℕ) ≠ 0 by decide) (by rw [hf.rx]; rfl)
  rw [harg] at s2
  replace s2 : Shows k2 ⟨noProc, 0, [listening p va 1]⟩ :=
    s2.idles 0 [.sleepConsole] rfl rfl (by decide)
  have asks1 (r : Request) (hr : Asks (.trap (callTrap 63 0 va 1)) k1 r) : r = ⟨0, va, 1⟩ :=
    hf.shows_.asks_one hlt (by simp [hf.state]) hr rfl
  have wait2 : k2.reader 0 = some (va, 1) := by
    rw [Kernel.reader, s2.slots]
    rfl
  have h2 : ConsoleRun k0 [] [] k2 := by
    refine h1.idle hread (hf.shows_.buffersMapped hf.reached ready1 asks1) n2 fun r bytes hc => ?_
    have hover := hc.over
    rw [asks1 r hc.asks, wait2] at hover
    cases hover
  -- the interrupt completes the read
  have rx2 : k2.rx = RxRing.empty := a2.rx.trans hf.rx
  have hfirst : firstReader k2 = some 0 := by
    refine List.find?_range_eq_some.mpr ⟨?_, by decide, fun j hj => absurd hj (by omega)⟩
    rw [s2.slots]
    rfl
  have acc2 : k2.rx.accepted [65, 13, 66] = [65, 10, 66] := by
    rw [rx2]
    decide
  have got2 : k2.rx.accepted [65, 13, 66] ≠ [] := by
    rw [acc2]
    decide
  obtain ⟨k3, bytes, res, n3, r3, s3, hle, hcopy⟩ := s2.input r2 s2.current hfirst rfl
    (show (1 : ℕ) ≠ 0 by decide) got2
  have root2 : UserRoot k2.machine p.rootPa := r2.userRoot (p := listening p va 1) (s2.slots 0)
  have ready2 : CopyReady k2.machine p.rootPa va 1 := m2 ▸ ready1
  have ready3 : CopyReady k3.machine p.rootPa va 1 := copyOut_ready root2 hcopy hle ready2
  have uart2 : (Event.idle (some (.external irqUart0 [65, 13, 66]))).uartInput k2 = [65, 13, 66] :=
    if_pos ⟨s2.current, rfl⟩
  have map2 : BuffersMapped (.idle (some (.external irqUart0 [65, 13, 66]))) k2 :=
    s2.buffersMapped r2 ready2 fun _ hr => s2.waits_one hr
  obtain ⟨b2, done2, count2, stream2⟩ := n3.completes (h2.reaches.tree hs) (hidle _)
    (h2.asksSome hs) map2 (.wake (by rw [uart2]; exact got2) hfirst wait2)
  rw [uart2, acc2, show k2.rx.unread = [] by rw [rx2]; rfl] at count2 stream2
  obtain ⟨rfl, unread3⟩ := List.append_inj (show [65] ++ [10, 66] = b2 ++ _ from stream2) count2.symm
  have h3 := h2.read (hidle _) map2 n3 done2
  rw [uart2, acc2] at h3
  -- the second read finds the line feed
  replace s3 : Shows k3 ⟨0, 0, [{ listening p va 1 with state := .running }]⟩ :=
    s3.enters 0 0 [.ready] rfl rfl (by decide)
  have asks3 (r : Request) (hr : Asks (.trap (callTrap 63 0 va 1)) k3 r) : r = ⟨0, va, 1⟩ :=
    s3.asks_one hlt (by simp) hr rfl
  have some3 : k3.rx.unread ≠ [] := by
    rw [← unread3]
    decide
  obtain ⟨k4, n4⟩ := s3.take r3 hc rfl rfl (show (1 : ℕ) ≠ 0 by decide) some3
  have due3 := Due.call (hcall k3 s3.current) (.inr some3)
  rw [harg, show k3.current = 0 from s3.current] at due3
  have map3 := s3.buffersMapped r3 ready3 asks3
  obtain ⟨b3, done3, count3, stream3⟩ := n4.completes (h3.reaches.tree hs) hread
    (h3.asksSome hs) map3 due3
  rw [← unread3, accepted_nil (hcall k3 s3.current).uartInput] at count3 stream3
  obtain ⟨rfl, -⟩ := List.append_inj (show [10] ++ [66] = b3 ++ _ from stream3) count3.symm
  have h4 := h3.read hread map3 n4 done3
  rw [accepted_nil (hcall k3 s3.current).uartInput] at h4
  replace h4 : ConsoleRun k0 [65, 10, 66] [(⟨0, va, 1⟩, [65]), (⟨0, va, 1⟩, [10])] k4 := h4
  have empty0 : k0.rx.unread = [] := by
    have hstart := (console_fifo hs h1).1
    rw [List.append_nil, hf.rx] at hstart
    exact hstart
  have hstream := (console_fifo hs h4).1
  rw [empty0] at hstream
  change [65, 10] ++ [66] = [65, 10] ++ k4.rx.unread at hstream
  exact ⟨k0, k4, va, hs, (List.append_cancel_left hstream).symm, h4⟩

/-! ### Wake-ups -/

/-- Input that nobody has taken leaves no reader asleep. -/
def NoLostInput (k : Kernel) : Prop := k.rx.unread ≠ [] → ∀ i, k.reader i = none

/-- The first reader that waits takes all the input of the step, or it is the only one. -/
def DrainsInput (e : Event) (k : Kernel) : Prop :=
  ∀ slot buf len, firstReader k = some slot → k.reader slot = some (buf, len) →
    (k.rx.accepted (e.uartInput k)).length ≤ min len 128 ∨ ∀ i, i ≠ slot → k.reader i = none

theorem Calm.noLostInput (h : Calm k k') (hk : NoLostInput k) : NoLostInput k' := by
  intro hne i
  rw [h.reader]
  exact hk (h.rx ▸ hne) i

theorem DrainsInput.of_nil (h : e.uartInput k = []) : DrainsInput e k := by
  intro slot buf len _ _
  rw [accepted_nil h]
  exact .inl (Nat.zero_le _)

/-- What one step does to the wake-ups: none is lost exactly if the first reader drains
the input. -/
theorem Next.noLostInput (ht : Tree k) (ho : e.ordinary) (hk : NoLostInput k) (ha : AsksSome k)
    (hn : Next e k k') : NoLostInput k' ↔ DrainsInput e k := by
  by_cases hcall : ∃ t io, ConsoleCall e k t io
  · obtain ⟨t, io, h⟩ := hcall
    have hdrains : DrainsInput e k := .of_nil h.uartInput
    obtain ⟨hsame, n, hdrop⟩ | ⟨hlen, hempty, hjoin⟩ := h.after hn
    · refine ⟨fun _ => hdrains, fun _ hne i => ?_⟩
      rw [hsame]
      refine hk (fun hnil => hne ?_) i
      rw [hdrop, hnil, List.drop_nil]
    · exact ⟨fun _ => hdrains, fun _ hne => absurd hempty hne⟩
  push Not at hcall
  by_cases huart : e.uartInput k = []
  · have hcalm := hn.calm ht ho huart hcall
    exact ⟨fun _ => .of_nil huart, fun _ => hcalm.noLostInput hk⟩
  obtain ⟨k₀, k₁, hprocs, -, hrx, hrun, -, hcalm⟩ := hn.uart huart
  obtain ⟨hall, -⟩ := k.rx.receiveAll_unread (e.uartInput k)
  have hreader₀ : ∀ i, k₀.reader i = k.reader i := fun i => by rw [Kernel.reader, Kernel.reader, hprocs]
  have hfirst : firstReader k₀ = firstReader k := by rw [firstReader, firstReader, hprocs]
  suffices hwake : NoLostInput k₁ ↔ DrainsInput e k by
    rw [← hwake]
    refine ⟨fun h hne i => ?_, hcalm.noLostInput⟩
    rw [← hcalm.reader]
    exact h (hcalm.rx.symm ▸ hne) i
  rcases handleInterrupt_ok hrun with ⟨hnone, rfl⟩ | ⟨hgot, slot, p, bytes, rx, hslot, hp, hb, hways⟩
  · -- no byte was accepted, or nobody waits
    rw [hrx, hfirst] at hnone
    refine ⟨fun _ => ?_, fun _ hne i => ?_⟩
    · intro slot buf len hslot _
      rcases hnone with hnil | hno
      · rw [hnil]
        exact .inl (Nat.zero_le _)
      · rw [hno] at hslot
        cases hslot
    · change k₀.reader i = none
      rw [hreader₀]
      rcases hnone with hnil | hno
      · refine hk (fun hempty => hne ?_) i
        change (k₀.rx.receiveAll (e.uartInput k)).1.unread = []
        rw [hrx, hall, hempty, hnil]
        rfl
      · exact firstReader_none ht hno i
  rw [hrx] at hb hgot
  rw [hfirst] at hslot
  have hp' : k.procs.slots slot = some p := hprocs ▸ hp
  have hwait : k.reader slot = some (p.readBufUva, p.readLen) := firstReader_reads hslot hp'
  -- somebody waits, so all that is unread is what came now
  have hempty : k.rx.unread = [] := by
    by_contra hne
    rw [hk hne slot] at hwait
    cases hwait
  rw [hempty, List.nil_append] at hall
  obtain ⟨htake, hdrop⟩ := RxRing.readBytes_eq hb
  have hcount := length_taken hb
  rw [hall] at hcount hdrop
  have hpos := List.length_pos_of_ne_nil hgot
  have hlen := ha slot _ _ hwait
  rcases hways with ⟨hnil, -⟩ | ⟨hbytes, out, m, -, rfl⟩
  · rw [hnil, List.length_nil] at hcount
    omega
  have hreader : ∀ i, (woken k₀ slot p bytes rx out m).reader i =
      if i = slot then none else k.reader i := by
    intro i
    rw [← hreader₀, Kernel.reader, Kernel.reader, woken_slot]
    split_ifs <;> rfl
  have hleft : (woken k₀ slot p bytes rx out m).rx.unread =
      (k.rx.accepted (e.uartInput k)).drop (min p.readLen 128) := by
    exact hdrop
  refine ⟨fun h => ?_, fun h => ?_⟩
  · intro slot' buf len hslot' hw
    obtain rfl := Option.some.inj (hslot'.symm.trans hslot)
    obtain ⟨rfl, rfl⟩ := Prod.mk.inj (Option.some.inj (hw.symm.trans hwait))
    by_cases hle : (k.rx.accepted (e.uartInput k)).length ≤ min p.readLen 128
    · exact .inl hle
    · refine .inr fun i hi => ?_
      have hone := h (by rw [hleft, ne_eq, List.drop_eq_nil_iff]; exact hle) i
      rwa [hreader, if_neg hi] at hone
  · intro hne i
    rw [hreader]
    split_ifs with hi
    · rfl
    · rcases h slot _ _ hslot hwait with hle | hother
      · rw [hleft, ne_eq, List.drop_eq_nil_iff] at hne
        exact absurd hle hne
      · exact hother i hi

/-- Wake-ups of console readers are lost exactly where an interrupt brings more than the
first reader takes while a second one waits. -/
theorem noLostInput_iff (hs : Started k0) (hr : ReachesIf DrainsInput k0 k) :
    NoLostInput k ∧ ∀ e k', e.ordinary → Next e k k' → (NoLostInput k' ↔ DrainsInput e k) := by
  have hinv : Reaches k0 k ∧ NoLostInput k ∧ AsksSome k := by
    induction hr with
    | refl => exact ⟨.refl _, fun _ => hs.reader, fun i buf len hi => absurd hi (by simp [hs.reader i])⟩
    | tail _ hlast ih =>
      obtain ⟨e, ⟨ho, hdrains⟩, hn⟩ := hlast
      obtain ⟨hreach, hk, ha⟩ := ih
      exact ⟨hreach.snoc ho hn, (hn.noLostInput (hreach.tree hs) ho hk ha).mpr hdrains,
        hn.asksSome (hreach.tree hs) ho ha⟩
  obtain ⟨hreach, hk, ha⟩ := hinv
  exact ⟨hk, fun e k' ho hn => hn.noLostInput (hreach.tree hs) ho hk ha⟩

/-- A step that brings no input drains it. -/
theorem ReachesIf.quiet (h : ReachesIf DrainsInput k0 k) (ho : e.ordinary) (hn : Next e k k')
    (he : e.uartInput k = []) : ReachesIf DrainsInput k0 k' := h.snoc ⟨ho, .of_nil he⟩ hn

/-- Init and its child wait for one byte each, and nothing has come in. -/
structure TwoReaders (k0 k : Kernel) (p q : Process) : Prop where
  started : Started k0
  drains : ReachesIf DrainsInput k0 k
  reached : Reached k
  rx : k.rx = RxRing.empty
  shows_ : Shows k ⟨noProc, 1, [listening p 0x7fffe000 1, listening q 0x7fffe000 1]⟩

theorem exists_twoReaders : ∃ k0 k p q, TwoReaders k0 k p q := by
  obtain ⟨k1, p, hf⟩ := exists_firstRun
  obtain ⟨k0, hs, n1⟩ := hf.start
  have hord (t : UserTrap) : (Event.trap t).ordinary := trivial
  have hidle : (Event.idle none).ordinary := trivial
  have hread := callTrap_calls 63 0 0x7fffe000 1 rfl
  have h1 : ReachesIf DrainsInput k0 k1 := ReachesIf.quiet (.refl k0) hidle n1 rfl
  obtain ⟨k2, r, n2, r2, -, s2, -, a2⟩ := hf.shows_.fork hf.reached (callTrap_calls 220 0 0 0 rfl)
    rfl (show 1 < 8 by decide) hf.room
  have h2 := h1.quiet (hord _) n2 rfl
  obtain ⟨q, hq⟩ : ∃ q, q = freshProcess 2 0 r p.nextMmap p.brk p.name p.files := ⟨_, rfl⟩
  replace s2 : Shows k2 ⟨0, 0, [p, q]⟩ := hq ▸ s2
  have rx2 : k2.rx = RxRing.empty := a2.rx.trans hf.rx
  obtain ⟨k3, n3, r3, s3, -, a3⟩ := s2.read r2 hread rfl rfl (show (1 : ℕ) ≠ 0 by decide) (by rw [rx2]; rfl)
  have h3 := h2.quiet (hord _) n3 rfl
  replace s3 : Shows k3 ⟨1, 1, [listening p 0x7fffe000 1, { q with state := .running }]⟩ :=
    s3.enters 0 1 [.sleepConsole, .ready] (by rw [hq]; rfl) rfl (by decide)
  have rx3 : k3.rx = RxRing.empty := a3.rx.trans rx2
  obtain ⟨k4, n4, r4, s4, -, a4⟩ := s3.read r3 hread rfl rfl (show (1 : ℕ) ≠ 0 by decide) (by rw [rx3]; rfl)
  have h4 := h3.quiet (hord _) n4 rfl
  replace s4 := s4.idles 1 [.sleepConsole, .sleepConsole] rfl rfl (by decide)
  exact ⟨k0, k4, p, q, hs, h4, r4, a4.rx.trans rx3, s4⟩

section TwoReaders

variable {p q : Process}

theorem TwoReaders.first (h : TwoReaders k0 k p q) : firstReader k = some 0 := by
  refine List.find?_range_eq_some.mpr ⟨?_, by decide, fun j hj => absurd hj (by omega)⟩
  rw [h.shows_.slots]
  rfl

/-- What an interrupt brings to them. -/
theorem TwoReaders.accepted (h : TwoReaders k0 k p q) (input : List UInt8) :
    k.rx.accepted ((Event.idle (some (.external irqUart0 input))).uartInput k) =
      RxRing.empty.accepted input := by
  rw [Event.uartInput, if_pos ⟨h.shows_.current, rfl⟩, h.rx]

theorem TwoReaders.interrupt (h : TwoReaders k0 k p q) {input : List UInt8}
    (hgot : RxRing.empty.accepted input ≠ []) :
    ∃ k', Next (.idle (some (.external irqUart0 input))) k k' := by
  rw [← h.rx] at hgot
  obtain ⟨k', -, -, hn, -⟩ := h.shows_.input h.reached h.shows_.current h.first rfl
    (show (1 : ℕ) ≠ 0 by decide) hgot
  exact ⟨k', hn⟩

/-- They are served by one byte and not by more. -/
theorem TwoReaders.drains_iff (h : TwoReaders k0 k p q) (input : List UInt8) :
    DrainsInput (.idle (some (.external irqUart0 input))) k ↔
      (RxRing.empty.accepted input).length ≤ 1 := by
  have h0 : k.reader 0 = some (0x7fffe000, 1) := by
    rw [Kernel.reader, h.shows_.slots]
    rfl
  have h1 : k.reader 1 = some (0x7fffe000, 1) := by
    rw [Kernel.reader, h.shows_.slots]
    rfl
  rw [DrainsInput, h.accepted]
  refine ⟨fun hd => ?_, fun hle slot buf len hslot hw => .inl ?_⟩
  · rcases hd 0 _ _ h.first h0 with hle | hother
    · exact hle
    · cases (hother 1 (by decide)).symm.trans h1
  · obtain rfl := Option.some.inj (h.first.symm.trans hslot)
    cases h0.symm.trans hw
    exact hle

end TwoReaders

/-- Two processes read one byte each, and one interrupt brings two. -/
theorem noLostInput_twoReaders : ∃ k0 k, Started k0 ∧ Reaches k0 k ∧ ¬ NoLostInput k := by
  obtain ⟨k0, k, p, q, h⟩ := exists_twoReaders
  obtain ⟨k', hn⟩ := h.interrupt (show RxRing.empty.accepted [65, 66] ≠ [] by decide)
  have hidle : (Event.idle (some (.external irqUart0 [65, 66]))).ordinary := trivial
  have hreach : Reaches k0 k := h.drains.mono fun _ _ hc => hc.1
  have hempty : NoLostInput k := fun hne => absurd (by rw [h.rx]; rfl) hne
  have hasks : AsksSome k := by
    intro i buf len hi
    rw [Kernel.reader, h.shows_.slots] at hi
    rcases i with _ | _ | i <;> cases hi <;> exact one_ne_zero
  refine ⟨k0, k', h.started, hreach.snoc hidle hn, fun hkept => ?_⟩
  have hdrains := (hn.noLostInput (hreach.tree h.started) hidle hempty hasks).mp hkept
  exact absurd ((h.drains_iff _).mp hdrains) (by decide)

/-- An interrupt with one byte serves the first of two readers, and one with two bytes leaves
the second asleep. -/
theorem noLostInput_iff_twoReaders : ∃ k0 k k₁ k₂, Started k0 ∧ ReachesIf DrainsInput k0 k ∧
    k.reader 0 = some (0x7fffe000, 1) ∧ k.reader 1 = some (0x7fffe000, 1) ∧ NoLostInput k ∧
    Next (.idle (some (.external irqUart0 [65]))) k k₁ ∧ NoLostInput k₁ ∧
    Next (.idle (some (.external irqUart0 [65, 66]))) k k₂ ∧ ¬ NoLostInput k₂ := by
  obtain ⟨k0, k, p, q, h⟩ := exists_twoReaders
  obtain ⟨k₁, n₁⟩ := h.interrupt (show RxRing.empty.accepted [65] ≠ [] by decide)
  obtain ⟨k₂, n₂⟩ := h.interrupt (show RxRing.empty.accepted [65, 66] ≠ [] by decide)
  have hidle (i : Option Interrupt) : (Event.idle i).ordinary := trivial
  obtain ⟨hkept, hstep⟩ := noLostInput_iff h.started h.drains
  refine ⟨k0, k, k₁, k₂, h.started, h.drains, ?_, ?_, hkept, n₁, ?_, n₂, fun hkept₂ => ?_⟩
  · rw [Kernel.reader, h.shows_.slots]
    rfl
  · rw [Kernel.reader, h.shows_.slots]
    rfl
  · exact (hstep _ k₁ (hidle _) n₁).mpr ((h.drains_iff _).mpr (by decide))
  · exact absurd ((h.drains_iff _).mp ((hstep _ k₂ (hidle _) n₂).mp hkept₂)) (by decide)

end LightOS
