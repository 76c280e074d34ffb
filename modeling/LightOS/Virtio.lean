import LightOS.Lib.Bytes
import LightOS.Lib.Ring
import LightOS.Lib.Runs

/-!
# Virtqueues and the drivers on them

The legacy virtqueues of `kernel/drivers/virtio/mod.rs` and the two drivers that use
them. A driver call is a sequence of small steps, since the device works on the same
rings and buffers meanwhile; the steps of a conforming device stand beside those of the
driver. The ring indices are 16-bit counters that wrap. What has been transferred so far
is recorded as history, which no step reads.
-/
namespace LightOS.Virtio
open Lib

abbrev queueSize : ℕ := 8
abbrev u16Bound : ℕ := 65536

abbrev descFNext : ℕ := 1
abbrev descFWrite : ℕ := 2

structure Descriptor where
  addr : ℕ
  len : ℕ
  flags : ℕ
  next : ℕ
  deriving DecidableEq, Repr

structure AvailRing where
  idx : ℕ
  ring : Fin queueSize → ℕ

structure UsedElem where
  id : ℕ
  len : ℕ
  deriving DecidableEq, Repr

structure UsedRing where
  idx : ℕ
  ring : Fin queueSize → UsedElem

structure VirtQueue where
  desc : Fin queueSize → Descriptor
  avail : AvailRing
  used : UsedRing
  lastUsed : ℕ

/-- The ring cell of a counter. -/
def slot (i : ℕ) : Fin queueSize := Fin.ofNat queueSize i

/-- `wrapping_add(1)` on a `u16`. -/
def wrapSucc (n : ℕ) : ℕ := (n + 1) % u16Bound

namespace VirtQueue

/-- The pages behind a queue come zeroed from the page allocator. -/
def new : VirtQueue :=
  ⟨fun _ => ⟨0, 0, 0, 0⟩, ⟨0, fun _ => 0⟩, ⟨0, fun _ => ⟨0, 0⟩⟩, 0⟩

def setDesc (q : VirtQueue) (i : Fin queueSize) (d : Descriptor) : VirtQueue :=
  { q with desc := Function.update q.desc i d }

/-- `avail.ring[avail.idx % QUEUE_SIZE] = id as u16` -/
def putAvail (q : VirtQueue) (id : ℕ) : VirtQueue :=
  { q with avail.ring := Function.update q.avail.ring (slot q.avail.idx) (id % u16Bound) }

def bumpAvail (q : VirtQueue) : VirtQueue := { q with avail.idx := wrapSucc q.avail.idx }

def bumpLast (q : VirtQueue) : VirtQueue := { q with lastUsed := wrapSucc q.lastUsed }

/-- The device appends an element to the used ring. -/
def putUsed (q : VirtQueue) (e : UsedElem) : VirtQueue :=
  { q with used := ⟨wrapSucc q.used.idx, Function.update q.used.ring (slot q.used.idx) e⟩ }

end VirtQueue

/-! ## Receiving -/

abbrev netHdrLen : ℕ := 10
abbrev bufSize : ℕ := 2048

/-- Where a call of `poll_rx` stands; `idle` keeps what the last call returned. -/
inductive PollPc where
  | idle (returned : ℕ)
  /-- Compare the used index with `last_used`. -/
  | check (count : ℕ)
  /-- Read the next used element. -/
  | load (count : ℕ)
  /-- Hand the frame to the callback and count the element as consumed. -/
  | deliver (count : ℕ) (elem : UsedElem)
  /-- Write the id to the avail ring. -/
  | repost (count id : ℕ)
  /-- Advance the avail index. -/
  | publish (count id : ℕ)
  deriving DecidableEq, Repr

/-- The receive queue with the driver's and the device's position in it. -/
structure RxSystem where
  rx : VirtQueue
  rxBufs : Fin queueSize → ℕ
  mem : Mem
  pc : PollPc
  /-- The device's own counter into the avail ring. -/
  seen : ℕ
  /-- Descriptors that the device has taken and not yet used. -/
  held : List ℕ
  /-- The frames the device has written, in used-ring order. -/
  received : List (List UInt8)
  /-- The frames the callback has been called on. -/
  handed : List (List UInt8)

/-- Post one receive buffer, as the loop of `init` does. -/
def postBuffer (rxBufs : Fin queueSize → ℕ) (q : VirtQueue) (i : Fin queueSize) : VirtQueue :=
  { q.setDesc i ⟨rxBufs i, bufSize, descFWrite, 0⟩ with
    avail.ring := Function.update q.avail.ring i i }

/-- `init`: every receive buffer is posted. -/
def rxInit (rxMem : ℕ) (mem : Mem) : RxSystem :=
  let rxBufs := fun i : Fin queueSize => rxMem + i * bufSize
  let q := (List.finRange queueSize).foldl (postBuffer rxBufs) .new
  { rx := { q with avail.idx := queueSize }, rxBufs, mem, pc := .idle 0, seen := 0, held := [],
    received := [], handed := [] }

/-- One step of `poll_rx`; an idle driver starts a call. -/
def RxSystem.driver (s : RxSystem) : RxSystem :=
  match s.pc with
  | .idle _ => { s with pc := .check 0 }
  | .check count => { s with pc := if s.rx.used.idx = s.rx.lastUsed then .idle count else .load count }
  | .load count => { s with pc := .deliver count (s.rx.used.ring (slot s.rx.lastUsed)) }
  | .deliver count e =>
    if h : e.len > netHdrLen ∧ e.id < queueSize then
      { s with
        handed := s.handed ++ [readBytes s.mem (s.rxBufs ⟨e.id, h.2⟩ + netHdrLen) (e.len - netHdrLen)]
        rx := s.rx.bumpLast
        pc := .repost (count + 1) e.id }
    else { s with rx := s.rx.bumpLast, pc := .repost count e.id }
  | .repost count id => { s with rx := s.rx.putAvail id, pc := .publish count id }
  | .publish count _ => { s with rx := s.rx.bumpAvail, pc := .check count }

inductive RxEvent where
  | driver
  /-- The device takes the next available descriptor. -/
  | take
  /-- The device writes part of a buffer it holds. -/
  | scribble (id : Fin queueSize) (off : ℕ) (bs : List UInt8)
  /-- The device writes header and frame to a buffer it holds and returns the buffer. -/
  | fill (id : Fin queueSize) (hdr frame : List UInt8)

/-- One step of driver or device; `none` if a conforming device does not do this. -/
def rxStep (s : RxSystem) : RxEvent → Option RxSystem
  | .driver => some s.driver
  | .take =>
    if s.seen = s.rx.avail.idx then none
    else some { s with held := s.held ++ [s.rx.avail.ring (slot s.seen)], seen := wrapSucc s.seen }
  | .scribble id off bs =>
    if id.val ∈ s.held ∧ off + bs.length ≤ (s.rx.desc id).len then
      some { s with mem := writeBytes s.mem ((s.rx.desc id).addr + off) bs }
    else none
  | .fill id hdr frame =>
    if id.val ∈ s.held ∧ hdr.length = netHdrLen ∧ 1 ≤ frame.length ∧
        netHdrLen + frame.length ≤ (s.rx.desc id).len then
      some { s with
        mem := writeBytes s.mem (s.rx.desc id).addr (hdr ++ frame)
        rx := s.rx.putUsed ⟨id, netHdrLen + frame.length⟩
        held := s.held.erase id.val
        received := s.received ++ [frame] }
    else none

/-- The states of all interleavings of driver and device. -/
def RxReaches (rxMem : ℕ) (mem : Mem) : RxSystem → Prop :=
  Runs (fun e s t => rxStep s e = some t) (fun _ _ => True) (rxInit rxMem mem)

namespace RxSystem

/-- Descriptors in the avail ring that the device has not taken. -/
def available (s : RxSystem) : List ℕ :=
  ringRead s.rx.avail.ring s.seen ((s.rx.avail.idx + u16Bound - s.seen) % u16Bound)

/-- Elements of the used ring that the driver has not consumed. -/
def waiting (s : RxSystem) : List UsedElem :=
  ringRead s.rx.used.ring s.rx.lastUsed ((s.rx.used.idx + u16Bound - s.rx.lastUsed) % u16Bound)

/-- The frame that a used element describes. -/
def frameOf (s : RxSystem) (e : UsedElem) : List UInt8 :=
  readBytes s.mem (s.rxBufs (slot e.id) + netHdrLen) (e.len - netHdrLen)

end RxSystem

/-! ## Requests that wait for completion -/

/-- What is decided about a call before anything is written. -/
inductive Admission where
  | go
  | refuse (msg : String)
  | panic
  deriving DecidableEq, Repr

/-- The descriptor table of a queue. -/
abbrev DescTable := Fin queueSize → Descriptor

/-- A driver that posts descriptor 0, polls the used index and gives up after a number of
spins; `blk::transfer` and `net::send` differ in these parts only. The device reads a
request with `fetch` and carries it out with `perform`, at its own time. -/
structure Requester (σ C R O : Type) where
  accept : σ → C → Admission
  /-- Buffers, header and descriptors for a call. -/
  prepare : C → σ → DescTable → σ × DescTable
  spinLimit : ℕ
  timedOut : String
  /-- The result once the used index has moved. -/
  verdict : σ → Except String Unit
  fetch : σ → DescTable → ℕ → R
  perform : R → O → σ → σ

/-- Where a driver call stands. -/
inductive CallPc (C : Type) where
  | idle
  | post (c : C)
  | publish (c : C)
  | poll (c : C) (spins : ℕ)
  | finish (c : C)
  | done (c : C) (result : Except String Unit)
  | panicked

/-- A queue with one requester and its device. -/
structure ReqSystem (σ C R O : Type) where
  q : VirtQueue
  st : σ
  pc : CallPc C
  /-- The device's own counter into the avail ring. -/
  seen : ℕ
  /-- Requests that the device has read and not completed. -/
  inflight : List R
  /-- The calls that were posted, in order. -/
  posted : List C
  /-- The requests that the device has completed, in order. -/
  completed : List (R × O)

inductive ReqEvent (C O : Type) where
  | call (c : C)
  | driver
  | fetch
  | complete (o : O) (elem : UsedElem)

namespace Requester

variable {σ C R O : Type} (D : Requester σ C R O)

def start (st : σ) : ReqSystem σ C R O := ⟨.new, st, .idle, 0, [], [], []⟩

def callStep (s : ReqSystem σ C R O) (c : C) : ReqSystem σ C R O :=
  match D.accept s.st c with
  | .go =>
    let (st, desc) := D.prepare c s.st s.q.desc
    { s with st, q.desc := desc, pc := .post c }
  | .refuse msg => { s with pc := .done c (.error msg) }
  | .panic => { s with pc := .panicked }

def driverStep (s : ReqSystem σ C R O) : Option (ReqSystem σ C R O) :=
  match s.pc with
  | .post c => some { s with q := s.q.putAvail 0, pc := .publish c }
  | .publish c => some { s with q := s.q.bumpAvail, posted := s.posted ++ [c], pc := .poll c 0 }
  | .poll c spins =>
    if s.q.used.idx = s.q.lastUsed then
      if spins + 1 > D.spinLimit then some { s with pc := .done c (.error D.timedOut) }
      else some { s with pc := .poll c (spins + 1) }
    else some { s with q := s.q.bumpLast, pc := .finish c }
  | .finish c => some { s with pc := .done c (D.verdict s.st) }
  | _ => none

/-- One step of the caller, the driver or the device, which works in order. -/
def step (s : ReqSystem σ C R O) : ReqEvent C O → Option (ReqSystem σ C R O)
  | .call c =>
    match s.pc with
    | .idle | .done _ _ => some (D.callStep s c)
    | _ => none
  | .driver => D.driverStep s
  | .fetch =>
    if s.seen = s.q.avail.idx then none
    else some { s with
      inflight := s.inflight ++ [D.fetch s.st s.q.desc (s.q.avail.ring (slot s.seen))]
      seen := wrapSucc s.seen }
  | .complete o elem =>
    match s.inflight with
    | [] => none
    | r :: rest => some { s with
        st := D.perform r o s.st
        q := s.q.putUsed elem
        inflight := rest
        completed := s.completed ++ [(r, o)] }

end Requester

/-- The driver has consumed every completion and the device every request. -/
def ReqSystem.Quiet {σ C R O : Type} (s : ReqSystem σ C R O) : Prop :=
  s.q.used.idx = s.q.lastUsed ∧ s.inflight = [] ∧ s.seen = s.q.avail.idx

/-- Calls are made on a quiet queue only. -/
def QuietCalls {σ C R O : Type} : ReqEvent C O → ReqSystem σ C R O → Prop
  | .call _, s => s.Quiet
  | _, _ => True

namespace Requester

variable {σ C R O : Type} (D : Requester σ C R O)

/-- Runs whose steps meet a condition. -/
def Reaches (cond : ReqEvent C O → ReqSystem σ C R O → Prop) (st : σ) :
    ReqSystem σ C R O → Prop :=
  Runs (fun e s t => D.step s e = some t) cond (start st)

end Requester

/-! ### The block device -/

abbrev sectorSize : ℕ := 512
abbrev reqTypeIn : ℕ := 0
abbrev reqTypeOut : ℕ := 1

structure BlkReqHeader where
  reqType : ℕ
  reserved : ℕ
  sector : ℕ
  deriving DecidableEq, Repr

/-- The driver's static buffers, memory and the disk itself. -/
structure BlkSt where
  header : BlkReqHeader
  status : ℕ
  capacitySectors : ℕ
  headerAddr : ℕ
  statusAddr : ℕ
  mem : Mem
  disk : Mem

/-- The arguments of `transfer`; the buffer is given by address and length. -/
structure BlkCall where
  sector : ℕ
  buf : ℕ
  len : ℕ
  write : Bool
  deriving DecidableEq, Repr

/-- A chain as the device reads it. -/
structure BlkRequest where
  header : BlkReqHeader
  addr : ℕ
  len : ℕ
  deriving DecidableEq, Repr

/-- The status byte, and what a failed read leaves in the buffer. -/
structure BlkOutcome where
  status : ℕ
  junk : List UInt8

namespace Blk

def accept (st : BlkSt) (c : BlkCall) : Admission :=
  if c.len % sectorSize ≠ 0 then .panic
  else if 2 ^ 64 ≤ c.sector + c.len / sectorSize then .panic
  else if c.sector + c.len / sectorSize > st.capacitySectors then
    .refuse "virtio-blk: transfer beyond device capacity"
  else .go

def prepare (c : BlkCall) (st : BlkSt) (desc : DescTable) : BlkSt × DescTable :=
  let header := ⟨if c.write then reqTypeOut else reqTypeIn, 0, c.sector⟩
  let desc := Function.update desc 0 ⟨st.headerAddr, 16, descFNext, 1⟩
  let desc := Function.update desc 1
    ⟨c.buf, c.len, descFNext + (if c.write then 0 else descFWrite), 2⟩
  let desc := Function.update desc 2 ⟨st.statusAddr, 1, descFWrite, 0⟩
  ({ st with header, status := 0xff }, desc)

def verdict (st : BlkSt) : Except String Unit :=
  if st.status = 0 then .ok () else .error "virtio-blk: device reported I/O error"

/-- The header descriptor points to the driver's header. -/
def fetch (st : BlkSt) (desc : DescTable) (head : ℕ) : BlkRequest :=
  let data := desc (slot (desc (slot head)).next)
  ⟨st.header, data.addr, data.len⟩

def perform (r : BlkRequest) (o : BlkOutcome) (st : BlkSt) : BlkSt :=
  let pos := r.header.sector * sectorSize
  let st :=
    if r.header.reqType = reqTypeIn then
      let bytes := if o.status = 0 then readBytes st.disk pos r.len else o.junk.take r.len
      { st with mem := writeBytes st.mem r.addr bytes }
    else if o.status = 0 then
      { st with disk := writeBytes st.disk pos (readBytes st.mem r.addr r.len) }
    else st
  { st with status := o.status }

/-- `blk::transfer` and the device behind it. -/
def transfer : Requester BlkSt BlkCall BlkRequest BlkOutcome where
  accept := accept
  prepare := prepare
  spinLimit := 1000000000
  timedOut := "virtio-blk: request timed out"
  verdict := verdict
  fetch := fetch
  perform := perform

end Blk

/-! ### Sending frames -/

/-- Memory with the transmit buffer, and the buffers the device has consumed. -/
structure TxSt where
  mem : Mem
  txBuf : ℕ
  sent : List (List UInt8)

/-- A descriptor as the device reads it. -/
structure TxRequest where
  addr : ℕ
  len : ℕ
  deriving DecidableEq, Repr

namespace Tx

def accept (_ : TxSt) (frame : List UInt8) : Admission :=
  if frame.length > bufSize - netHdrLen then .refuse "virtio-net: frame too large" else .go

def prepare (frame : List UInt8) (st : TxSt) (desc : DescTable) : TxSt × DescTable :=
  let mem := writeBytes (fillZero st.mem st.txBuf netHdrLen) (st.txBuf + netHdrLen) frame
  ({ st with mem }, Function.update desc 0 ⟨st.txBuf, netHdrLen + frame.length, 0, 0⟩)

def fetch (_ : TxSt) (desc : DescTable) (head : ℕ) : TxRequest :=
  ⟨(desc (slot head)).addr, (desc (slot head)).len⟩

def perform (r : TxRequest) (_ : Unit) (st : TxSt) : TxSt :=
  { st with sent := st.sent ++ [readBytes st.mem r.addr r.len] }

/-- `net::send` and the device behind it. -/
def send : Requester TxSt (List UInt8) TxRequest Unit where
  accept := accept
  prepare := prepare
  spinLimit := 100000000
  timedOut := "virtio-net: TX timed out"
  verdict _ := .ok ()
  fetch := fetch
  perform := perform

end Tx

end LightOS.Virtio
