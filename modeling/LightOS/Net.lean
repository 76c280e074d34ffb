import LightOS.Elf
import LightOS.Socket

/-!
# The network stack

Ethernet, ARP, IPv4, ICMP and UDP as far as the socket system calls reach them.
Parsers index their input by checked reads and checked slices; the checksum adds
in checked 32-bit arithmetic. What the device does is an input: the frames each
poll drains and whether it consumes a transmitted frame in time.
-/
namespace LightOS
open Lib

/-- `b[i..j]`. -/
def slice (b : List UInt8) (i j : ℕ) : Except Fault (List UInt8) :=
  if i ≤ j ∧ j ≤ b.length then .ok ((b.drop i).take (j - i))
  else .error (.panic .indexOutOfRange)

/-- `u16::from_be_bytes([b[i], b[i + 1]])`. -/
def readBe16 (b : List UInt8) (i : ℕ) : Except Fault ℕ := do
  let hi ← Elf.byteAt b i
  let lo ← Elf.byteAt b (i + 1)
  return hi * 256 + lo

/-- `v.to_be_bytes()` of a `u16`. -/
def be16 (v : ℕ) : List UInt8 := [UInt8.ofNat (v / 256), UInt8.ofNat v]

/-- Checked 32-bit addition. -/
def checkedAdd32 (a b : ℕ) : Except Fault ℕ :=
  if a + b < 2 ^ 32 then .ok (a + b) else .error (.panic .overflow)

namespace Ipv4

abbrev protoIcmp : ℕ := 1
abbrev protoUdp : ℕ := 17
abbrev hdrLen : ℕ := 20

/-- The word loop of the internet checksum. -/
def sumWords : List UInt8 → ℕ → Except Fault ℕ
  | [], sum => .ok sum
  | [a], sum => checkedAdd32 sum (a.toNat * 256)
  | a :: b :: rest, sum => do
    let sum ← checkedAdd32 sum (a.toNat * 256 + b.toNat)
    sumWords rest sum

/-- The folding loop; a 32-bit sum folds in at most two rounds. -/
def fold : ℕ → ℕ → ℕ
  | 0, sum => sum
  | n + 1, sum => if sum / 65536 ≠ 0 then fold n (sum % 65536 + sum / 65536) else sum

/-- Internet checksum: `!(sum as u16)`. -/
def checksum (data : List UInt8) : Except Fault ℕ := do
  let sum ← sumWords data 0
  return 65535 - fold 3 sum % 65536

/-- Header and payload; the length field is the low 16 bits of the total. -/
def build (src dst : List UInt8) (proto : ℕ) (payload : List UInt8) (ident : ℕ) :
    Except Fault (List UInt8) := do
  let total := (hdrLen + payload.length) % 65536
  let front := [0x45, 0x00] ++ be16 total ++ be16 ident ++ be16 0x4000 ++ [64, UInt8.ofNat proto]
  let csum ← checksum (front ++ [0, 0] ++ src ++ dst)
  return front ++ be16 csum ++ src ++ dst ++ payload

structure Packet where
  src : List UInt8
  dst : List UInt8
  proto : ℕ
  payload : List UInt8

def parse (pkt : List UInt8) : Except Fault (Option Packet) := do
  if pkt.length < hdrLen then return none
  let b0 ← Elf.byteAt pkt 0
  if b0 / 16 ≠ 4 then return none
  let ihl := b0 % 16 * 4
  if ihl < hdrLen ∨ pkt.length < ihl then return none
  let total ← readBe16 pkt 2
  let stop := min total pkt.length
  if stop < ihl then return none
  let src ← slice pkt 12 16
  let dst ← slice pkt 16 20
  let proto ← Elf.byteAt pkt 9
  let payload ← slice pkt ihl stop
  return some ⟨src, dst, proto, payload⟩

end Ipv4

namespace Udp

abbrev hdrLen : ℕ := 8

def build (srcIp dstIp : List UInt8) (srcPort dstPort : ℕ) (payload : List UInt8) :
    Except Fault (List UInt8) := do
  let len := (hdrLen + payload.length) % 65536
  let front := be16 srcPort ++ be16 dstPort ++ be16 len
  let csum ← Ipv4.checksum (srcIp ++ dstIp ++ [0, UInt8.ofNat Ipv4.protoUdp] ++ be16 len ++
    (front ++ [0, 0] ++ payload))
  -- 0 would mean "no checksum"
  return front ++ be16 (if csum = 0 then 0xffff else csum) ++ payload

structure Message where
  srcPort : ℕ
  dstPort : ℕ
  payload : List UInt8

def parse (data : List UInt8) : Except Fault (Option Message) := do
  if data.length < hdrLen then return none
  let len ← readBe16 data 4
  let stop := min (max len hdrLen) data.length
  let srcPort ← readBe16 data 0
  let dstPort ← readBe16 data 2
  let payload ← slice data hdrLen stop
  return some ⟨srcPort, dstPort, payload⟩

end Udp

namespace Icmp

abbrev typeEchoRequest : ℕ := 8
abbrev typeEchoReply : ℕ := 0

def build (msgType id seq : ℕ) (payload : List UInt8) : Except Fault (List UInt8) := do
  let tail := be16 id ++ be16 seq ++ payload
  let csum ← Ipv4.checksum ([UInt8.ofNat msgType, 0, 0, 0] ++ tail)
  return [UInt8.ofNat msgType, 0] ++ be16 csum ++ tail

structure Message where
  msgType : ℕ
  id : ℕ
  seq : ℕ
  payload : List UInt8

def parse (data : List UInt8) : Except Fault (Option Message) := do
  if data.length < 8 then return none
  let msgType ← Elf.byteAt data 0
  let id ← readBe16 data 4
  let seq ← readBe16 data 6
  let payload ← slice data 8 data.length
  return some ⟨msgType, id, seq, payload⟩

end Icmp

namespace Arp

abbrev opRequest : ℕ := 1
abbrev opReply : ℕ := 2

structure Packet where
  op : ℕ
  senderMac : List UInt8
  senderIp : List UInt8
  targetIp : List UInt8

def build (op : ℕ) (senderMac senderIp targetMac targetIp : List UInt8) : List UInt8 :=
  be16 1 ++ be16 0x0800 ++ [6, 4] ++ be16 op ++ senderMac ++ senderIp ++ targetMac ++ targetIp

/-- Only Ethernet/IPv4 ARP is accepted. -/
def parse (payload : List UInt8) : Except Fault (Option Packet) := do
  if payload.length < 28 then return none
  if (← readBe16 payload 0) ≠ 1 then return none
  if (← readBe16 payload 2) ≠ 0x0800 then return none
  let op ← readBe16 payload 6
  let senderMac ← slice payload 8 14
  let senderIp ← slice payload 14 18
  let targetIp ← slice payload 24 28
  return some ⟨op, senderMac, senderIp, targetIp⟩

end Arp

namespace Ethernet

abbrev ethertypeIpv4 : ℕ := 0x0800
abbrev ethertypeArp : ℕ := 0x0806
abbrev hdrLen : ℕ := 14

def build (dst src : List UInt8) (ethertype : ℕ) (payload : List UInt8) : List UInt8 :=
  dst ++ src ++ be16 ethertype ++ payload

structure Frame where
  dst : List UInt8
  src : List UInt8
  ethertype : ℕ
  payload : List UInt8

def parse (frame : List UInt8) : Except Fault (Option Frame) := do
  if frame.length < hdrLen then return none
  let dst ← slice frame 0 6
  let src ← slice frame 6 12
  let ethertype ← readBe16 frame 12
  let payload ← slice frame hdrLen frame.length
  return some ⟨dst, src, ethertype, payload⟩

end Ethernet

abbrev arpCacheLen : ℕ := 8

structure Iface where
  mac : List UInt8
  ip : List UInt8
  gateway : List UInt8
  /-- The first `arp_len` cache entries. -/
  arpCache : List (List UInt8 × List UInt8)
  gatewayMac : Option (List UInt8)
  pingReplies : ℕ

/-- Update the entry of `ip`, or append one while there is room. -/
def Iface.arpInsert (i : Iface) (ip mac : List UInt8) : Iface :=
  if i.arpCache.any (·.1 = ip) then
    { i with arpCache :=
        let (before, after) := i.arpCache.span (·.1 ≠ ip)
        before ++ (ip, mac) :: after.tail }
  else if i.arpCache.length < arpCacheLen then
    { i with arpCache := i.arpCache ++ [(ip, mac)] }
  else i

/-- Interface, IP identification counter and socket table. -/
structure NetState where
  iface : Option Iface
  ipIdent : ℕ
  sockets : SocketTable
  /-- The frames that the driver has handed to the device so far; nothing reads this record. -/
  transmitted : List (List UInt8)

abbrev NetM := Prog NetState Fault

/-- What the network device does during one system call: the frames the `i`-th
poll drains, and whether it is present and consumes a transmitted frame. -/
structure NetIo where
  rx : ℕ → List (List UInt8)
  sent : Bool

/-- `IP_IDENT.fetch_add(1)`, wrapping in 16 bits. -/
def nextIdent : NetM ℕ := do
  let s ← get
  set { s with ipIdent := (s.ipIdent + 1) % 65536 }
  return s.ipIdent

def handleArp (iface : Iface) (payload : List UInt8) : NetM (Option (List UInt8)) := do
  match ← Prog.ofExcept (Arp.parse payload) with
  | none => return none
  | some a =>
    let iface := iface.arpInsert a.senderIp a.senderMac
    modify fun s => { s with iface := some iface }
    if a.op = Arp.opRequest ∧ a.targetIp = iface.ip then
      let reply := Arp.build Arp.opReply iface.mac iface.ip a.senderMac a.senderIp
      return some (Ethernet.build a.senderMac iface.mac Ethernet.ethertypeArp reply)
    else if a.op = Arp.opReply then
      if a.senderIp = iface.gateway then
        modify fun s => { s with iface := some { iface with gatewayMac := some a.senderMac } }
      return none
    else return none

def handleIcmp (iface : Iface) (ethSrc : List UInt8) (pkt : Ipv4.Packet) :
    NetM (Option (List UInt8)) := do
  match ← Prog.ofExcept (Icmp.parse pkt.payload) with
  | none => return none
  | some msg =>
    if msg.msgType = Icmp.typeEchoRequest then
      let reply ← Prog.ofExcept (Icmp.build Icmp.typeEchoReply msg.id msg.seq msg.payload)
      let ident ← nextIdent
      let ip ← Prog.ofExcept (Ipv4.build iface.ip pkt.src Ipv4.protoIcmp reply ident)
      return some (Ethernet.build ethSrc iface.mac Ethernet.ethertypeIpv4 ip)
    else if msg.msgType = Icmp.typeEchoReply then
      if pkt.src = iface.gateway then
        let n ← Prog.ofExcept (checkedAdd iface.pingReplies 1)
        modify fun s => { s with iface := some { iface with pingReplies := n } }
      return none
    else return none

def handleUdp (pkt : Ipv4.Packet) : NetM (Option (List UInt8)) := do
  match ← Prog.ofExcept (Udp.parse pkt.payload) with
  | none => return none
  | some d =>
    modify fun s =>
      { s with sockets := s.sockets.deliver d.dstPort ⟨pkt.src, d.srcPort, d.payload⟩ }
    return none

/-- Process one received frame; returns the frame to transmit in response. -/
def handleFrame (frame : List UInt8) : NetM (Option (List UInt8)) := do
  match ← Prog.ofExcept (Ethernet.parse frame) with
  | none => return none
  | some eth =>
    match (← get).iface with
    | none => return none
    | some iface =>
      if eth.ethertype = Ethernet.ethertypeArp then handleArp iface eth.payload
      else if eth.ethertype = Ethernet.ethertypeIpv4 then
        match ← Prog.ofExcept (Ipv4.parse eth.payload) with
        | none => return none
        | some pkt =>
          if pkt.dst ≠ iface.ip then return none
          else if pkt.proto = Ipv4.protoIcmp then handleIcmp iface eth.src pkt
          else if pkt.proto = Ipv4.protoUdp then handleUdp pkt
          else return none
      else return none

abbrev bufSize : ℕ := 2048
abbrev netHdrLen : ℕ := 10

/-- `driver::send`: the size check, then whatever the device does with the frame. -/
def driverSend (io : NetIo) (frame : List UInt8) : NetM (Except String Unit) := do
  if bufSize - netHdrLen < frame.length then return .error "virtio-net: frame too large"
  else
    modify fun s => { s with transmitted := s.transmitted ++ [frame] }
    return if io.sent then .ok () else .error "virtio-net: TX timed out"

/-- Drain received frames; the outcome of sending a reply is ignored. -/
def poll (io : NetIo) (i : ℕ) : NetM Unit :=
  Prog.each (fun f => do
    match ← handleFrame f with
    | none => pure ()
    | some reply =>
      let _ ← driverSend io reply
      pure ()) (io.rx i)

/-- Send a datagram through the resolved gateway. -/
def sendUdp (io : NetIo) (dstIp : List UInt8) (dstPort srcPort : ℕ) (payload : List UInt8) :
    NetM (Except String Unit) := do
  match (← get).iface with
  | none => return .error "net: interface down"
  | some iface =>
    match iface.gatewayMac with
    | none => return .error "net: gateway not resolved"
    | some gwMac =>
      let dgram ← Prog.ofExcept (Udp.build iface.ip dstIp srcPort dstPort payload)
      let ident ← nextIdent
      let pkt ← Prog.ofExcept (Ipv4.build iface.ip dstIp Ipv4.protoUdp dgram ident)
      driverSend io (Ethernet.build gwMac iface.mac Ethernet.ethertypeIpv4 pkt)

/-- The bounded busy-poll of `sys_recvfrom`: drain the ring, look at the queue. -/
def pollRecv (io : NetIo) (idx : ℕ) : ℕ → ℕ → NetM (Option Datagram)
  | 0, _ => return none
  | left + 1, i => do
    poll io i
    let s ← get
    match s.sockets.recv idx with
    | (some d, t) =>
      set { s with sockets := t }
      return some d
    | (none, _) => pollRecv io idx left (i + 1)

end LightOS
