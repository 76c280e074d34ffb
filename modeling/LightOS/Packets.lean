import LightOS.Net
import LightOS.Lib.Checksum

/-!
# Encoding and decoding of packets

What the builders of the network stack write, the parsers read back: a datagram
sent through UDP, IPv4 and Ethernet is recovered from the frame whatever padding
follows it, and both checksums verify. On the receiving side no frame makes the
handler fault, and a reply is never longer than the frame that caused it.
-/
namespace LightOS
open Lib

@[simp] theorem be16_length (v : ℕ) : (be16 v).length = 2 := rfl

theorem wordSum_be16 {v : ℕ} (hv : v < 65536) : wordSum (be16 v) = v := by
  simp only [be16, wordSum, UInt8.toNat_ofNat']
  omega

/-! Reads of a byte string whose layout is known. -/

theorem slice_at {l a b c : List UInt8} {i j : ℕ} (hl : l = a ++ b ++ c) (hi : a.length = i)
    (hj : i + b.length = j) : slice l i j = .ok b := by
  subst hl hi hj
  have hle : a.length ≤ a.length + b.length ∧
      a.length + b.length ≤ (a ++ b ++ c).length := by
    simp only [List.length_append]
    omega
  rw [slice, if_pos hle]
  simp [List.append_assoc]

theorem byteAt_at {l a c : List UInt8} {x : UInt8} {i : ℕ} (hl : l = a ++ x :: c)
    (hi : a.length = i) : Elf.byteAt l i = .ok x.toNat := by
  subst hl hi
  simp [Elf.byteAt]

theorem readBe16_at {l a c : List UInt8} {i v : ℕ} (hl : l = a ++ be16 v ++ c)
    (hi : a.length = i) (hv : v < 65536) : readBe16 l i = .ok v := by
  have h0 : Elf.byteAt l i = .ok (UInt8.ofNat (v / 256)).toNat :=
    byteAt_at (c := UInt8.ofNat v :: c) (by rw [hl]; simp [be16]) hi
  have h1 : Elf.byteAt l (i + 1) = .ok (UInt8.ofNat v).toNat :=
    byteAt_at (a := a ++ [UInt8.ofNat (v / 256)]) (c := c) (by rw [hl]; simp [be16])
      (by simp [hi])
  have hval : (UInt8.ofNat (v / 256)).toNat * 256 + (UInt8.ofNat v).toNat = v := by
    simp only [UInt8.toNat_ofNat']
    omega
  simp only [readBe16, h0, h1, bind, Except.bind, pure, Except.pure, hval]

namespace Ipv4

theorem sumWords_ok (l : List UInt8) (s : ℕ) (h : s + wordSum l < 2 ^ 32) :
    sumWords l s = .ok (s + wordSum l) := by
  induction l, s using sumWords.induct with
  | case1 s => simp [sumWords, wordSum]
  | case2 a s =>
      simp only [wordSum] at h
      simp only [sumWords, checkedAdd32, wordSum, if_pos h]
  | case3 a b rest s ih =>
      simp only [wordSum] at h
      have hadd : s + (a.toNat * 256 + b.toNat) < 2 ^ 32 := by
        refine lt_of_le_of_lt ?_ h
        omega
      simp only [sumWords, checkedAdd32, if_pos hadd, bind, Except.bind]
      rw [ih (s + (a.toNat * 256 + b.toNat)) (by omega), wordSum]
      congr 1
      omega

/-- Three rounds fold any 32-bit sum. -/
theorem fold_eq {n : ℕ} (hn : n < 2 ^ 32) : fold 3 n = endAround n := by
  simp only [fold, endAround]
  split_ifs <;> omega

/-- The one's-complement sum that a receiver checks against `0xffff`. -/
def onesSum (data : List UInt8) : Except Fault ℕ := do
  let sum ← sumWords data 0
  return fold 3 sum

/-- Data short enough for its word sum to fit in 32 bits. -/
theorem wordSum_lt {l : List UInt8} (hl : l.length ≤ 65536) : wordSum l < 2 ^ 32 := by
  have := wordSum_le l
  omega

theorem onesSum_ok {l : List UInt8} (hl : l.length ≤ 65536) :
    onesSum l = .ok (endAround (wordSum l)) := by
  have hlt := wordSum_lt hl
  simp only [onesSum, sumWords_ok l 0 (by omega), bind, Except.bind, pure, Except.pure, zero_add,
    fold_eq hlt]

theorem checksum_ok {l : List UInt8} (hl : l.length ≤ 65536) :
    checksum l = .ok (65535 - endAround (wordSum l)) := by
  have hlt := wordSum_lt hl
  have hle := endAround_le (wordSum l)
  simp only [checksum, sumWords_ok l 0 (by omega), bind, Except.bind, pure, Except.pure, zero_add,
    fold_eq hlt]
  rw [Nat.mod_eq_of_lt (by omega)]

/-- A checksum field in the middle of the data adds itself to the word sum. -/
theorem wordSum_field {a c : List UInt8} {v : ℕ} (ha : a.length % 2 = 0) (hv : v < 65536) :
    wordSum (a ++ be16 v ++ c) = wordSum (a ++ [0, 0] ++ c) + v := by
  rw [List.append_assoc, List.append_assoc, wordSum_append a _ ha, wordSum_append a _ ha,
    wordSum_append (be16 v) c (by simp), wordSum_append [0, 0] c (by simp), wordSum_be16 hv]
  simp only [wordSum, UInt8.toNat_zero]
  omega

theorem length_field {a c : List UInt8} (v : ℕ) :
    (a ++ be16 v ++ c).length = (a ++ [0, 0] ++ c).length := by
  simp only [List.length_append, be16_length, List.length_cons, List.length_nil]

/-- Data with its checksum filled in sums to `0xffff`. -/
theorem onesSum_checksum {a c : List UInt8} {v : ℕ} (ha : a.length % 2 = 0)
    (hl : (a ++ [0, 0] ++ c).length ≤ 65536) (hpos : 0 < wordSum (a ++ [0, 0] ++ c))
    (hv : v = 65535 - endAround (wordSum (a ++ [0, 0] ++ c)) ∨
      v = 65535 ∧ endAround (wordSum (a ++ [0, 0] ++ c)) = 65535) :
    onesSum (a ++ be16 v ++ c) = .ok 65535 := by
  have hlt : v < 65536 := by omega
  rw [onesSum_ok (by rw [length_field]; exact hl), wordSum_field ha hlt]
  obtain hv | ⟨rfl, hones⟩ := hv
  · rw [hv, endAround_complement hpos]
  · rw [endAround_ones hones]

/-- A built packet carries its checksum and its length, and parses back to its
parts in front of any padding. -/
theorem build_spec {src dst : List UInt8} (proto ident : ℕ) (payload : List UInt8)
    (hsrc : src.length = 4) (hdst : dst.length = 4) (hproto : proto < 256)
    (hlen : hdrLen + payload.length < 65536) :
    ∃ hdr, build src dst proto payload ident = .ok (hdr ++ payload) ∧ hdr.length = hdrLen ∧
      onesSum hdr = .ok 0xffff ∧
      (∀ rest, readBe16 (hdr ++ rest) 2 = .ok (hdrLen + payload.length)) ∧
      ∀ pad, parse (hdr ++ payload ++ pad) = .ok (some ⟨src, dst, proto, payload⟩) := by
  obtain ⟨total, htotal⟩ : ∃ t, t = 20 + payload.length := ⟨_, rfl⟩
  obtain ⟨front, hfront⟩ : ∃ f : List UInt8, f = [0x45, 0x00] ++ be16 total ++ be16 ident ++
      be16 0x4000 ++ [64, UInt8.ofNat proto] := ⟨_, rfl⟩
  obtain ⟨sum, hsum⟩ : ∃ n, n = wordSum (front ++ [0, 0] ++ (src ++ dst)) := ⟨_, rfl⟩
  have hflen : front.length = 10 := by simp [hfront]
  have hzero : (front ++ [0, 0] ++ (src ++ dst)).length ≤ 65536 := by
    simp only [List.length_append, hflen, hsrc, hdst, List.length_cons, List.length_nil]
    omega
  have hpos : 0 < sum := by
    rw [hsum, hfront]
    simp only [List.cons_append, wordSum, List.nil_append, List.append_assoc]
    have : (0x45 : UInt8).toNat = 69 := rfl
    omega
  have hle := endAround_le sum
  obtain ⟨hdr, hhdr⟩ : ∃ h, h = front ++ be16 (65535 - endAround sum) ++ (src ++ dst) := ⟨_, rfl⟩
  have hcsum : checksum (front ++ [0, 0] ++ src ++ dst) = .ok (65535 - endAround sum) := by
    rw [List.append_assoc, checksum_ok hzero, hsum]
  have hread (rest : List UInt8) : readBe16 (hdr ++ rest) 2 = .ok total := by
    refine readBe16_at (a := [0x45, 0x00]) (c := be16 ident ++ be16 0x4000 ++
      [64, UInt8.ofNat proto] ++ be16 (65535 - endAround sum) ++ (src ++ dst) ++ rest) ?_ rfl
      (htotal ▸ hlen)
    rw [hhdr, hfront]
    simp only [List.append_assoc]
  have hhlen : hdr.length = 20 := by
    simp only [hhdr, List.length_append, hflen, hsrc, hdst, be16_length]
  refine ⟨hdr, ?_, hhlen, ?_, fun rest => htotal ▸ hread rest, fun pad => ?_⟩
  · simp only [build]
    rw [Nat.mod_eq_of_lt hlen, ← htotal, ← hfront, hcsum, hhdr]
    simp only [bind, Except.bind, pure, Except.pure, List.append_assoc]
  · rw [hhdr]
    exact onesSum_checksum (by omega) hzero (hsum ▸ hpos) (.inl (by rw [hsum]))
  · obtain ⟨all, hall⟩ : ∃ l, l = hdr ++ payload ++ pad := ⟨_, rfl⟩
    have hlong : all.length = total + pad.length := by
      simp only [hall, List.length_append, hhlen, htotal]
    have hb0 : Elf.byteAt all 0 = .ok 0x45 := by
      refine byteAt_at (a := []) (x := 0x45) (c := all.tail) ?_ rfl
      rw [hall, hhdr, hfront]
      rfl
    have h2 : readBe16 all 2 = .ok total := by rw [hall, List.append_assoc, hread]
    have h12 : slice all 12 16 = .ok src := by
      refine slice_at (a := front ++ be16 (65535 - endAround sum)) (c := dst ++ payload ++ pad) ?_
        ?_ (by omega)
      · rw [hall, hhdr]
        simp only [List.append_assoc]
      · simp only [List.length_append, hflen, be16_length]
    have h16 : slice all 16 20 = .ok dst := by
      refine slice_at (a := front ++ be16 (65535 - endAround sum) ++ src) (c := payload ++ pad) ?_
        ?_ (by omega)
      · rw [hall, hhdr]
        simp only [List.append_assoc]
      · simp only [List.length_append, hflen, be16_length, hsrc]
    have h9 : Elf.byteAt all 9 = .ok proto := by
      have hx : (UInt8.ofNat proto).toNat = proto := by
        rw [UInt8.toNat_ofNat', Nat.mod_eq_of_lt hproto]
      rw [← hx]
      refine byteAt_at (a := [0x45, 0x00] ++ be16 total ++ be16 ident ++ be16 0x4000 ++ [64])
        (c := be16 (65535 - endAround sum) ++ (src ++ dst) ++ payload ++ pad) ?_ rfl
      rw [hall, hhdr, hfront]
      simp only [List.append_assoc, List.cons_append, List.nil_append]
    have hpay : slice all 20 total = .ok payload :=
      slice_at (a := hdr) (c := pad) hall hhlen (by omega)
    have hmin : min total all.length = total := by omega
    rw [← hall]
    unfold parse
    rw [if_neg (by simp only [hdrLen]; omega)]
    simp only [hb0, h2, h12, h16, h9, bind, Except.bind, pure, Except.pure]
    rw [if_neg (by decide), if_neg (by simp only [hdrLen]; omega), hmin, if_neg (by omega)]
    simp only [hpay]

end Ipv4

namespace Udp

/-- The bytes in front of the datagram over which its checksum runs. -/
def pseudoHeader (srcIp dstIp : List UInt8) (len : ℕ) : List UInt8 :=
  srcIp ++ dstIp ++ [0, UInt8.ofNat Ipv4.protoUdp] ++ be16 len

/-- A built datagram carries a nonzero checksum that verifies over its pseudo
header, and parses back to ports and payload. -/
theorem build_spec {srcIp dstIp : List UInt8} {srcPort dstPort : ℕ} (payload : List UInt8)
    (hsrc : srcIp.length = 4) (hdst : dstIp.length = 4) (hsp : srcPort < 65536)
    (hdp : dstPort < 65536) (hlen : payload.length ≤ 65000) :
    ∃ seg csum, build srcIp dstIp srcPort dstPort payload = .ok seg ∧
      seg.length = hdrLen + payload.length ∧
      Ipv4.onesSum (pseudoHeader srcIp dstIp seg.length ++ seg) = .ok 0xffff ∧
      readBe16 seg 6 = .ok csum ∧ csum ≠ 0 ∧
      parse seg = .ok (some ⟨srcPort, dstPort, payload⟩) := by
  obtain ⟨len, hl⟩ : ∃ n, n = 8 + payload.length := ⟨_, rfl⟩
  obtain ⟨front, hfront⟩ : ∃ f : List UInt8, f = be16 srcPort ++ be16 dstPort ++ be16 len :=
    ⟨_, rfl⟩
  obtain ⟨pre, hpre⟩ : ∃ f : List UInt8, f = pseudoHeader srcIp dstIp len ++ front := ⟨_, rfl⟩
  obtain ⟨sum, hsum⟩ : ∃ n, n = wordSum (pre ++ [0, 0] ++ payload) := ⟨_, rfl⟩
  have hflen : front.length = 6 := by simp [hfront]
  have hplen : pre.length = 18 := by
    simp only [hpre, pseudoHeader, List.length_append, hsrc, hdst, be16_length, hflen,
      List.length_cons, List.length_nil]
  have hzero : (pre ++ [0, 0] ++ payload).length ≤ 65536 := by
    simp only [List.length_append, hplen, List.length_cons, List.length_nil]
    omega
  -- the protocol number alone makes the sum positive
  have hpos : 0 < sum := by
    simp only [hsum, hpre, pseudoHeader, List.append_assoc]
    rw [wordSum_append srcIp _ (by rw [hsrc]), wordSum_append dstIp _ (by rw [hdst])]
    simp only [List.cons_append, List.nil_append, wordSum]
    have : (UInt8.ofNat Ipv4.protoUdp).toNat = 17 := rfl
    omega
  have hle := endAround_le sum
  obtain ⟨csum, hc⟩ : ∃ c, c = if 65535 - endAround sum = 0 then 0xffff
      else 65535 - endAround sum := ⟨_, rfl⟩
  have hcpos := endAround_pos hpos
  have hcne : csum ≠ 0 := by
    rw [hc]
    split_ifs <;> omega
  have hclt : csum < 65536 := by
    rw [hc]
    split_ifs <;> omega
  have hcv : csum = 65535 - endAround sum ∨ csum = 65535 ∧ endAround sum = 65535 := by
    rw [hc]
    split_ifs <;> omega
  obtain ⟨seg, hseg⟩ : ∃ s, s = front ++ be16 csum ++ payload := ⟨_, rfl⟩
  have hslen : seg.length = len := by
    simp only [hseg, List.length_append, hflen, be16_length, hl]
  have hcsum : Ipv4.checksum (srcIp ++ dstIp ++ [0, UInt8.ofNat Ipv4.protoUdp] ++ be16 len ++
      (front ++ [0, 0] ++ payload)) = .ok (65535 - endAround sum) := by
    have : srcIp ++ dstIp ++ [0, UInt8.ofNat Ipv4.protoUdp] ++ be16 len ++
        (front ++ [0, 0] ++ payload) = pre ++ [0, 0] ++ payload := by
      simp only [hpre, pseudoHeader, List.append_assoc]
    rw [this, Ipv4.checksum_ok hzero, hsum]
  refine ⟨seg, csum, ?_, hslen.trans hl, ?_, ?_, hcne, ?_⟩
  · simp only [build]
    have hmod : (hdrLen + payload.length) % 65536 = len := by
      simp only [hdrLen]
      omega
    rw [hmod, ← hfront, hcsum]
    simp only [bind, Except.bind, pure, Except.pure]
    rw [← hc, hseg]
  · have hwhole : pseudoHeader srcIp dstIp seg.length ++ seg = pre ++ be16 csum ++ payload := by
      rw [hslen, hpre, hseg]
      simp only [List.append_assoc]
    rw [hwhole]
    exact Ipv4.onesSum_checksum (by omega) hzero (hsum ▸ hpos) (hsum ▸ hcv)
  · exact readBe16_at hseg hflen hclt
  · have h4 : readBe16 seg 4 = .ok len := by
      refine readBe16_at (a := be16 srcPort ++ be16 dstPort) (c := be16 csum ++ payload) ?_ rfl
        (by omega)
      simp only [hseg, hfront, List.append_assoc]
    have h0 : readBe16 seg 0 = .ok srcPort := by
      refine readBe16_at (a := []) (c := be16 dstPort ++ be16 len ++ be16 csum ++ payload) ?_ rfl
        hsp
      simp only [hseg, hfront, List.append_assoc, List.nil_append]
    have h2 : readBe16 seg 2 = .ok dstPort := by
      refine readBe16_at (a := be16 srcPort) (c := be16 len ++ be16 csum ++ payload) ?_ rfl hdp
      simp only [hseg, hfront, List.append_assoc]
    have hpay : slice seg 8 len = .ok payload := by
      refine slice_at (a := front ++ be16 csum) (c := []) ?_ ?_ hl.symm
      · rw [hseg, List.append_nil]
      · simp only [List.length_append, hflen, be16_length]
    have hstop : min (max len hdrLen) seg.length = len := by
      simp only [hdrLen]
      omega
    unfold parse
    rw [if_neg (by simp only [hdrLen]; omega)]
    simp only [h4, h0, h2, bind, Except.bind, pure, Except.pure, hstop, hpay]

end Udp

namespace Ethernet

theorem parse_build {dst src payload : List UInt8} {ethertype : ℕ} (hd : dst.length = 6)
    (hs : src.length = 6) (he : ethertype < 65536) (pad : List UInt8) :
    parse (build dst src ethertype payload ++ pad) =
      .ok (some ⟨dst, src, ethertype, payload ++ pad⟩) := by
  obtain ⟨all, hall⟩ : ∃ l, l = build dst src ethertype payload ++ pad := ⟨_, rfl⟩
  have hlay : all = dst ++ src ++ be16 ethertype ++ (payload ++ pad) := by
    simp only [hall, build, List.append_assoc]
  have hlen : all.length = 14 + (payload ++ pad).length := by
    simp only [hlay, List.length_append, hd, hs, be16_length]
  have h0 : slice all 0 6 = .ok dst := by
    refine slice_at (a := []) (c := src ++ be16 ethertype ++ (payload ++ pad)) ?_ rfl
      (by omega)
    simp only [hlay, List.append_assoc, List.nil_append]
  have h6 : slice all 6 12 = .ok src := by
    refine slice_at (a := dst) (c := be16 ethertype ++ (payload ++ pad)) ?_ hd (by omega)
    simp only [hlay, List.append_assoc]
  have h12 : readBe16 all 12 = .ok ethertype :=
    readBe16_at hlay (by simp only [List.length_append, hd, hs]) he
  have hrest : slice all 14 all.length = .ok (payload ++ pad) := by
    refine slice_at (a := dst ++ src ++ be16 ethertype) (c := []) ?_ ?_ hlen.symm
    · rw [hlay, List.append_nil]
    · simp only [List.length_append, hd, hs, be16_length]
  rw [← hall]
  unfold parse
  rw [if_neg (by simp only [hdrLen]; omega)]
  simp only [h0, h6, h12, hrest, bind, Except.bind, pure, Except.pure]

end Ethernet

/-- The driver hands the frame to the device, which may or may not take it in time. -/
def Sends (io : NetIo) (frame : List UInt8) (s : NetState) : Prop :=
  driverSend io frame s = .ok (if io.sent then .ok () else .error "virtio-net: TX timed out",
    { s with transmitted := s.transmitted ++ [frame] })

theorem driverSend_fits {io : NetIo} {frame : List UInt8} {s : NetState} (h : frame.length ≤ 2038) :
    Sends io frame s := by
  rw [Sends, driverSend, if_neg (by simp only [bufSize, netHdrLen]; omega)]
  rfl

/-- What a receiver makes of the frame of a datagram, padding included. -/
def Recovers (frame dstMac srcMac srcIp dstIp : List UInt8) (srcPort dstPort : ℕ)
    (payload pad : List UInt8) : Prop :=
  ∃ pkt seg csum,
    Ethernet.parse (frame ++ pad) =
      .ok (some ⟨dstMac, srcMac, Ethernet.ethertypeIpv4, pkt⟩) ∧
    Ipv4.parse pkt = .ok (some ⟨srcIp, dstIp, Ipv4.protoUdp, seg⟩) ∧
    Udp.parse seg = .ok (some ⟨srcPort, dstPort, payload⟩) ∧
    Ipv4.onesSum (pkt.take Ipv4.hdrLen) = .ok 0xffff ∧
    Ipv4.onesSum (Udp.pseudoHeader srcIp dstIp seg.length ++ seg) = .ok 0xffff ∧
    readBe16 seg 6 = .ok csum ∧ csum ≠ 0

/-- `sendUdp` transmits one frame, which passes the size check of the driver, and any
receiver recovers addresses, ports and payload from it. -/
theorem sendUdp_recovers (iface : Iface) (sockets : SocketTable) (mac gw : Vector UInt8 6)
    (ip dst : Vector UInt8 4) (ident srcPort dstPort : UInt16) (payload : List UInt8)
    (hlen : payload.length ≤ 1472) :
    ∃ frame,
      (∀ io sent, sendUdp io dst.toList dstPort.toNat srcPort.toNat payload
        ⟨some { iface with mac := mac.toList, ip := ip.toList, gatewayMac := some gw.toList },
          ident.toNat, sockets, sent⟩ =
        .ok (if io.sent then .ok () else .error "virtio-net: TX timed out",
        ⟨some { iface with mac := mac.toList, ip := ip.toList, gatewayMac := some gw.toList },
          (ident.toNat + 1) % 65536, sockets, sent ++ [frame]⟩)) ∧
      frame.length ≤ 1514 ∧
      ∀ pad, Recovers frame gw.toList mac.toList ip.toList dst.toList srcPort.toNat
        dstPort.toNat payload pad := by
  have hip : ip.toList.length = 4 := ip.length_toList
  have hdst : dst.toList.length = 4 := dst.length_toList
  have hmac : mac.toList.length = 6 := mac.length_toList
  have hgw : gw.toList.length = 6 := gw.length_toList
  obtain ⟨seg, csum, hseg, hslen, hsum, hread, hne, hudp⟩ :=
    Udp.build_spec payload hip hdst srcPort.toNat_lt dstPort.toNat_lt (by omega)
  simp only [Udp.hdrLen] at hslen
  obtain ⟨hdr, hpkt, hhlen, hhsum, -, hparse⟩ :=
    Ipv4.build_spec Ipv4.protoUdp ident.toNat seg hip hdst (by decide)
      (by simp only [Ipv4.hdrLen]; omega)
  simp only [Ipv4.hdrLen] at hhlen
  obtain ⟨frame, hframe⟩ : ∃ f, f = Ethernet.build gw.toList mac.toList Ethernet.ethertypeIpv4
      (hdr ++ seg) := ⟨_, rfl⟩
  have hflen : frame.length = 42 + payload.length := by
    simp only [hframe, Ethernet.build, List.length_append, hgw, hmac, be16_length, hhlen, hslen]
    omega
  refine ⟨frame, fun io sent => ?_, by omega, fun pad => ?_⟩
  · simp only [sendUdp, nextIdent, Prog.bind_apply, Prog.get_apply, Prog.set_apply,
      Prog.pure_apply, Prog.ofExcept_apply, hseg, hpkt]
    rw [← hframe]
    exact driverSend_fits (by omega)
  · refine ⟨hdr ++ seg ++ pad, seg, csum, ?_, hparse pad, hudp, ?_, hsum, hread, hne⟩
    · rw [hframe]
      exact Ethernet.parse_build hgw hmac (by decide) pad
    · have htake : (hdr ++ seg ++ pad).take Ipv4.hdrLen = hdr := by
        rw [List.append_assoc, List.take_left' hhlen]
      rw [htake, hhsum]

/-- The guest says hi to the echo port of its gateway; the device takes the frame in time. -/
theorem sendUdp_recovers_hi : ∃ iface frame,
    sendUdp ⟨fun _ => [], true⟩ [10, 0, 2, 2] 7 49152 [0x68, 0x69] ⟨some iface, 1, .empty, []⟩ =
      .ok (.ok (), ⟨some iface, 2, .empty, [frame]⟩) ∧ frame.length ≤ 1514 ∧
    ∀ pad, Recovers frame (List.replicate 6 0x52) (List.replicate 6 0x54) [10, 0, 2, 15]
      [10, 0, 2, 2] 49152 7 [0x68, 0x69] pad := by
  obtain ⟨frame, hsend, hlen, hrec⟩ :=
    sendUdp_recovers ⟨[], [], [10, 0, 2, 2], [], none, 0⟩ .empty #v[0x54, 0x54, 0x54, 0x54, 0x54,
      0x54] #v[0x52, 0x52, 0x52, 0x52, 0x52, 0x52] #v[10, 0, 2, 15] #v[10, 0, 2, 2] 1 49152 7
      [0x68, 0x69] (by decide)
  exact ⟨_, frame, hsend _ [], hlen, hrec⟩

/-! The receiving side: reads behind the length checks succeed. -/

theorem slice_ok {l : List UInt8} {i j : ℕ} (hij : i ≤ j) (hj : j ≤ l.length) :
    ∃ b, slice l i j = .ok b ∧ b.length = j - i := by
  refine ⟨(l.drop i).take (j - i), ?_, ?_⟩
  · rw [slice, if_pos ⟨hij, hj⟩]
  · simp only [List.length_take, List.length_drop]
    omega

theorem byteAt_ok {l : List UInt8} {i : ℕ} (hi : i < l.length) :
    ∃ v, Elf.byteAt l i = .ok v ∧ v < 256 := by
  refine ⟨l[i].toNat, ?_, l[i].toNat_lt⟩
  simp [Elf.byteAt, hi]

theorem readBe16_ok {l : List UInt8} {i : ℕ} (hi : i + 1 < l.length) :
    ∃ v, readBe16 l i = .ok v ∧ v < 65536 := by
  obtain ⟨a, ha, halt⟩ := byteAt_ok (l := l) (i := i) (by omega)
  obtain ⟨b, hb, hblt⟩ := byteAt_ok hi
  refine ⟨a * 256 + b, ?_, by omega⟩
  simp only [readBe16, ha, hb, bind, Except.bind, pure, Except.pure]

theorem readBe16_append (a l : List UInt8) (i : ℕ) :
    readBe16 (a ++ l) (a.length + i) = readBe16 l i := by
  simp [readBe16, Elf.byteAt, List.getElem?_append_right, Nat.add_assoc]

theorem Ethernet.parse_total (frame : List UInt8) :
    ∃ r, Ethernet.parse frame = .ok r ∧
      ∀ eth, r = some eth → eth.src.length = 6 ∧ eth.payload.length + 14 = frame.length := by
  by_cases h : frame.length < 14
  · exact ⟨none, by rw [Ethernet.parse, if_pos h]; rfl, nofun⟩
  · obtain ⟨dst, hdst, -⟩ := slice_ok (l := frame) (i := 0) (j := 6) (by omega) (by omega)
    obtain ⟨src, hsrc, hslen⟩ := slice_ok (l := frame) (i := 6) (j := 12) (by omega) (by omega)
    obtain ⟨ty, hty, -⟩ := readBe16_ok (l := frame) (i := 12) (by omega)
    obtain ⟨pay, hpay, hplen⟩ := slice_ok (l := frame) (i := 14) (j := frame.length) (by omega)
      le_rfl
    refine ⟨some ⟨dst, src, ty, pay⟩, ?_, ?_⟩
    · unfold Ethernet.parse
      rw [if_neg h]
      simp only [hdst, hsrc, hty, hpay, bind, Except.bind, pure, Except.pure]
    · rintro eth ⟨⟩
      exact ⟨hslen, by simp only; omega⟩

theorem Arp.parse_total (l : List UInt8) :
    ∃ r, Arp.parse l = .ok r ∧ ∀ a, r = some a →
      a.senderMac.length = 6 ∧ a.senderIp.length = 4 ∧ 28 ≤ l.length := by
  by_cases h : l.length < 28
  · exact ⟨none, by rw [Arp.parse, if_pos h]; rfl, nofun⟩
  · obtain ⟨ht, hht, -⟩ := readBe16_ok (l := l) (i := 0) (by omega)
    obtain ⟨pt, hpt, -⟩ := readBe16_ok (l := l) (i := 2) (by omega)
    obtain ⟨op, hop, -⟩ := readBe16_ok (l := l) (i := 6) (by omega)
    obtain ⟨sm, hsm, hsmlen⟩ := slice_ok (l := l) (i := 8) (j := 14) (by omega) (by omega)
    obtain ⟨si, hsi, hsilen⟩ := slice_ok (l := l) (i := 14) (j := 18) (by omega) (by omega)
    obtain ⟨ti, hti, -⟩ := slice_ok (l := l) (i := 24) (j := 28) (by omega) (by omega)
    unfold Arp.parse
    rw [if_neg h]
    simp only [hht, hpt, hop, hsm, hsi, hti, bind, Except.bind, pure, Except.pure]
    by_cases h1 : ht ≠ 1
    · exact ⟨none, by rw [if_pos h1], nofun⟩
    · by_cases h2 : pt ≠ 0x0800
      · exact ⟨none, by rw [if_neg h1, if_pos h2], nofun⟩
      · refine ⟨some ⟨op, sm, si, ti⟩, by rw [if_neg h1, if_neg h2], ?_⟩
        rintro a ⟨⟩
        exact ⟨hsmlen, hsilen, by omega⟩

/-- Header length, total length and frame length may disagree in any way: the
payload lies inside the packet and behind 20 bytes of it. -/
theorem Ipv4.parse_total (l : List UInt8) :
    ∃ r, Ipv4.parse l = .ok r ∧ ∀ pkt, r = some pkt →
      pkt.src.length = 4 ∧ pkt.payload.length + 20 ≤ l.length ∧
      pkt.payload.length + 20 < 65536 := by
  by_cases h : l.length < 20
  · exact ⟨none, by rw [Ipv4.parse, if_pos h]; rfl, nofun⟩
  · obtain ⟨b0, hb0, -⟩ := byteAt_ok (l := l) (i := 0) (by omega)
    obtain ⟨total, htotal, htlt⟩ := readBe16_ok (l := l) (i := 2) (by omega)
    obtain ⟨src, hsrc, hslen⟩ := slice_ok (l := l) (i := 12) (j := 16) (by omega) (by omega)
    obtain ⟨dst, hdst, -⟩ := slice_ok (l := l) (i := 16) (j := 20) (by omega) (by omega)
    obtain ⟨proto, hproto, -⟩ := byteAt_ok (l := l) (i := 9) (by omega)
    unfold Ipv4.parse
    rw [if_neg h]
    simp only [hb0, htotal, hsrc, hdst, hproto, bind, Except.bind, pure, Except.pure]
    by_cases h1 : b0 / 16 ≠ 4
    · exact ⟨none, by rw [if_pos h1], nofun⟩
    · by_cases h2 : b0 % 16 * 4 < 20 ∨ l.length < b0 % 16 * 4
      · exact ⟨none, by rw [if_neg h1, if_pos h2], nofun⟩
      · by_cases h3 : min total l.length < b0 % 16 * 4
        · exact ⟨none, by rw [if_neg h1, if_neg h2, if_pos h3], nofun⟩
        · obtain ⟨pay, hpay, hplen⟩ := slice_ok (l := l) (i := b0 % 16 * 4)
            (j := min total l.length) (by omega) (by omega)
          refine ⟨some ⟨src, dst, proto, pay⟩, ?_, ?_⟩
          · rw [if_neg h1, if_neg h2, if_neg h3]
            simp only [hpay]
          · rintro pkt ⟨⟩
            refine ⟨hslen, ?_, ?_⟩ <;> simp only <;> omega

theorem Icmp.parse_total (l : List UInt8) :
    ∃ r, Icmp.parse l = .ok r ∧ ∀ msg, r = some msg → msg.payload.length + 8 = l.length := by
  by_cases h : l.length < 8
  · exact ⟨none, by rw [Icmp.parse, if_pos h]; rfl, nofun⟩
  · obtain ⟨ty, hty, -⟩ := byteAt_ok (l := l) (i := 0) (by omega)
    obtain ⟨id, hid, -⟩ := readBe16_ok (l := l) (i := 4) (by omega)
    obtain ⟨sq, hsq, -⟩ := readBe16_ok (l := l) (i := 6) (by omega)
    obtain ⟨pay, hpay, hplen⟩ := slice_ok (l := l) (i := 8) (j := l.length) (by omega) le_rfl
    refine ⟨some ⟨ty, id, sq, pay⟩, ?_, ?_⟩
    · unfold Icmp.parse
      rw [if_neg h]
      simp only [hty, hid, hsq, hpay, bind, Except.bind, pure, Except.pure]
    · rintro msg ⟨⟩
      simp only
      omega

theorem Udp.parse_total (l : List UInt8) : ∃ r, Udp.parse l = .ok r := by
  by_cases h : l.length < 8
  · exact ⟨none, by rw [Udp.parse, if_pos h]; rfl⟩
  · obtain ⟨len, hlen, -⟩ := readBe16_ok (l := l) (i := 4) (by omega)
    obtain ⟨sp, hsp, -⟩ := readBe16_ok (l := l) (i := 0) (by omega)
    obtain ⟨dp, hdp, -⟩ := readBe16_ok (l := l) (i := 2) (by omega)
    obtain ⟨pay, hpay, -⟩ := slice_ok (l := l) (i := 8) (j := min (max len 8) l.length) (by omega)
      (by omega)
    refine ⟨some ⟨sp, dp, pay⟩, ?_⟩
    unfold Udp.parse
    rw [if_neg h]
    simp only [hlen, hsp, hdp, hpay, bind, Except.bind, pure, Except.pure]

theorem Icmp.build_ok (msgType id seq : ℕ) (payload : List UInt8)
    (hlen : payload.length + 8 ≤ 65536) :
    ∃ m, Icmp.build msgType id seq payload = .ok m ∧ m.length = payload.length + 8 := by
  obtain ⟨tail, htail⟩ : ∃ t, t = be16 id ++ be16 seq ++ payload := ⟨_, rfl⟩
  have htl : tail.length = payload.length + 4 := by
    simp only [htail, List.length_append, be16_length]
    omega
  have hsum := Ipv4.checksum_ok (l := [UInt8.ofNat msgType, 0, 0, 0] ++ tail)
    (by simp only [List.length_append, List.length_cons, List.length_nil, htl]; omega)
  simp only [Icmp.build, ← htail, hsum, bind, Except.bind, pure, Except.pure]
  refine ⟨_, rfl, ?_⟩
  simp only [List.length_append, be16_length, List.length_cons, List.length_nil, htl]
  omega

@[simp] theorem Iface.arpInsert_mac (i : Iface) (ip mac : List UInt8) :
    (i.arpInsert ip mac).mac = i.mac := by
  unfold Iface.arpInsert
  split_ifs <;> rfl

@[simp] theorem Iface.arpInsert_ip (i : Iface) (ip mac : List UInt8) :
    (i.arpInsert ip mac).ip = i.ip := by
  unfold Iface.arpInsert
  split_ifs <;> rfl

/-- The widths that the source's array and counter types fix. -/
structure Iface.Sized (i : Iface) : Prop where
  mac : i.mac.length = 6
  ip : i.ip.length = 4
  pings : i.pingReplies < usizeBound

/-- What is promised of a reply frame: it is no longer than the received one, so
the driver takes it whenever the received one fits its buffers, and the length
field of an IPv4 packet in it is the packet's length, untruncated. -/
structure ReplyOk (frame reply : List UInt8) : Prop where
  shorter : reply.length ≤ frame.length
  total : readBe16 reply 12 = .ok Ethernet.ethertypeIpv4 →
    readBe16 reply 16 = .ok (reply.length - 14)
  sends : frame.length ≤ 2038 → ∀ io s, Sends io reply s

theorem ReplyOk.of_shorter {frame reply : List UInt8} (h : reply.length ≤ frame.length)
    (ht : readBe16 reply 12 = .ok Ethernet.ethertypeIpv4 →
      readBe16 reply 16 = .ok (reply.length - 14)) : ReplyOk frame reply :=
  ⟨h, ht, fun hf _ _ => driverSend_fits (h.trans hf)⟩

/-- The handler returns, and a reply is as promised. -/
def Answers (frame : List UInt8) (x : NetM (Option (List UInt8))) (s : NetState) : Prop :=
  ∃ r s', x s = .ok (r, s') ∧ ∀ reply, r = some reply → ReplyOk frame reply

theorem Answers.silent {frame : List UInt8} {x : NetM (Option (List UInt8))} {s : NetState}
    (s' : NetState) (h : x s = .ok (none, s')) : Answers frame x s := ⟨none, s', h, nofun⟩

theorem Ethernet.build_length {dst src payload : List UInt8} {ethertype : ℕ}
    (hd : dst.length = 6) (hs : src.length = 6) :
    (Ethernet.build dst src ethertype payload).length = 14 + payload.length := by
  simp only [Ethernet.build, List.length_append, hd, hs, be16_length]

theorem Ethernet.readBe16_build {dst src payload : List UInt8} {ethertype : ℕ}
    (hd : dst.length = 6) (hs : src.length = 6) (i : ℕ) :
    readBe16 (Ethernet.build dst src ethertype payload) (14 + i) = readBe16 payload i := by
  have hlen : (dst ++ src ++ be16 ethertype).length = 14 := by
    simp only [List.length_append, hd, hs, be16_length]
  rw [Ethernet.build, ← hlen, readBe16_append]

/-- A reply to an ARP request is as long as the shortest request. -/
theorem handleArp_answers {iface : Iface} (hi : iface.Sized) {frame payload : List UInt8}
    (hlen : payload.length + 14 = frame.length) (s : NetState) :
    Answers frame (handleArp iface payload) s := by
  obtain ⟨r, hr, hparts⟩ := Arp.parse_total payload
  unfold handleArp
  cases r with
  | none =>
    refine .silent s ?_
    simp only [Prog.bind_apply, hr, Prog.ofExcept_apply, Prog.pure_apply]
  | some a =>
    obtain ⟨hmac, hip, hlong⟩ := hparts a rfl
    by_cases hreq : a.op = Arp.opRequest ∧ a.targetIp = iface.ip
    · obtain ⟨reply, hreply⟩ : ∃ f, f = Ethernet.build a.senderMac iface.mac
          Ethernet.ethertypeArp (Arp.build Arp.opReply iface.mac iface.ip a.senderMac
            a.senderIp) := ⟨_, rfl⟩
      have hrlen : reply.length = 42 := by
        rw [hreply, Ethernet.build_length hmac hi.mac]
        simp only [Arp.build, List.length_append, be16_length, List.length_cons,
          List.length_nil, hmac, hip, hi.mac, hi.ip]
      have hty : readBe16 reply 12 = .ok Ethernet.ethertypeArp := by
        refine readBe16_at (a := a.senderMac ++ iface.mac) hreply ?_ (by decide)
        simp only [List.length_append, hmac, hi.mac]
      refine ⟨some reply, { s with iface := some (iface.arpInsert a.senderIp a.senderMac) },
        ?_, ?_⟩
      · simp only [Prog.bind_apply, hr, Prog.ofExcept_apply, Prog.modify_apply,
          Iface.arpInsert_ip, Iface.arpInsert_mac, if_pos hreq, Prog.pure_apply, hreply]
      · rintro f ⟨⟩
        refine .of_shorter (by omega) fun h => ?_
        rw [hty] at h
        exact absurd h (by decide)
    · by_cases hrep : a.op = Arp.opReply
      · by_cases hg : a.senderIp = (iface.arpInsert a.senderIp a.senderMac).gateway
        · refine .silent { s with iface := some { iface.arpInsert a.senderIp a.senderMac with
            gatewayMac := some a.senderMac } } ?_
          simp only [Prog.bind_apply, hr, Prog.ofExcept_apply, Prog.modify_apply,
            Iface.arpInsert_ip, if_neg hreq, if_pos hrep, if_pos hg, Prog.pure_apply]
        · refine .silent { s with iface := some (iface.arpInsert a.senderIp a.senderMac) } ?_
          simp only [Prog.bind_apply, hr, Prog.ofExcept_apply, Prog.modify_apply,
            Iface.arpInsert_ip, if_neg hreq, if_pos hrep, if_neg hg, Prog.pure_apply]
      · refine .silent { s with iface := some (iface.arpInsert a.senderIp a.senderMac) } ?_
        simp only [Prog.bind_apply, hr, Prog.ofExcept_apply, Prog.modify_apply,
          Iface.arpInsert_ip, if_neg hreq, if_neg hrep, Prog.pure_apply]

/-- An echo reply of the gateway meets the counter at its maximum. -/
def PingOverflow (iface : Iface) (pkt : Ipv4.Packet) : Prop :=
  ∃ msg, Icmp.parse pkt.payload = .ok (some msg) ∧ msg.msgType = Icmp.typeEchoReply ∧
    pkt.src = iface.gateway ∧ iface.pingReplies = usizeBound - 1

/-- An echo reply repeats the payload behind a header of the shortest kind, so it
is no longer than the request. Only the counter of replies can overflow. -/
theorem handleIcmp_answers {iface : Iface} (hi : iface.Sized) {frame ethSrc : List UInt8}
    {pkt : Ipv4.Packet} (heth : ethSrc.length = 6) (hsrc : pkt.src.length = 4)
    (hlen : pkt.payload.length + 34 ≤ frame.length) (hfit : pkt.payload.length + 20 < 65536)
    (s : NetState) :
    Answers frame (handleIcmp iface ethSrc pkt) s ↔ ¬ PingOverflow iface pkt := by
  obtain ⟨r, hr, hparts⟩ := Icmp.parse_total pkt.payload
  cases r with
  | none =>
    refine iff_of_true (.silent s ?_) ?_
    · simp only [handleIcmp, Prog.bind_apply, hr, Prog.ofExcept_apply, Prog.pure_apply]
    · rintro ⟨msg, hmsg, -⟩
      rw [hr] at hmsg
      cases hmsg
  | some msg =>
    have hmlen := hparts msg rfl
    by_cases hreq : msg.msgType = Icmp.typeEchoRequest
    · refine iff_of_true ?_ ?_
      · obtain ⟨echo, hecho, helen⟩ :=
          Icmp.build_ok Icmp.typeEchoReply msg.id msg.seq msg.payload (by omega)
        obtain ⟨hdr, hip, hhlen, -, hread, -⟩ :=
          Ipv4.build_spec Ipv4.protoIcmp s.ipIdent echo hi.ip hsrc (by decide)
            (by simp only [Ipv4.hdrLen]; omega)
        simp only [Ipv4.hdrLen] at hhlen hread
        obtain ⟨reply, hreply⟩ : ∃ f, f = Ethernet.build ethSrc iface.mac
          Ethernet.ethertypeIpv4 (hdr ++ echo) := ⟨_, rfl⟩
        have hrlen : reply.length = 34 + echo.length := by
          rw [hreply, Ethernet.build_length heth hi.mac, List.length_append, hhlen]
          omega
        refine ⟨some reply, { s with ipIdent := (s.ipIdent + 1) % 65536 }, ?_, ?_⟩
        · simp only [handleIcmp, nextIdent, Prog.bind_apply, hr, Prog.ofExcept_apply, if_pos hreq,
            hecho, Prog.get_apply, Prog.set_apply, Prog.pure_apply, hip, hreply]
        · rintro f ⟨⟩
          have htotal : 34 + echo.length - 14 = 20 + echo.length := by omega
          refine .of_shorter (by omega) fun _ => ?_
          rw [hrlen, htotal, hreply, Ethernet.readBe16_build heth hi.mac 2, hread]
      · rintro ⟨msg', hmsg', hty, -⟩
        rw [hr, Except.ok.injEq, Option.some.injEq] at hmsg'
        rw [← hmsg', hreq] at hty
        exact absurd hty (by decide)
    · by_cases hrep : msg.msgType = Icmp.typeEchoReply ∧ pkt.src = iface.gateway
      · by_cases hfull : iface.pingReplies = usizeBound - 1
        · refine iff_of_false ?_ (not_not.mpr ⟨msg, hr, hrep.1, hrep.2, hfull⟩)
          rintro ⟨r, s', h, -⟩
          have hmax : ¬ iface.pingReplies + 1 < usizeBound := by
            simp only [usizeBound] at hfull ⊢
            omega
          have hadd : checkedAdd iface.pingReplies 1 = .error (.panic .overflow) := by
            rw [checkedAdd, if_neg hmax]
          simp only [handleIcmp, Prog.bind_apply, hr, Prog.ofExcept_apply, if_neg hreq,
            if_pos hrep.1, if_pos hrep.2, hadd] at h
          cases h
        · refine iff_of_true (.silent { s with iface := some { iface with
            pingReplies := iface.pingReplies + 1 } } ?_) ?_
          · have hadd : checkedAdd iface.pingReplies 1 = .ok (iface.pingReplies + 1) :=
              checkedAdd_ok.mpr ⟨by have := hi.pings; omega, rfl⟩
            simp only [handleIcmp, Prog.bind_apply, hr, Prog.ofExcept_apply, if_neg hreq,
              if_pos hrep.1, if_pos hrep.2, hadd, Prog.modify_apply, Prog.pure_apply]
          · rintro ⟨-, -, -, -, h⟩
            exact hfull h
      · refine iff_of_true (.silent s ?_) ?_
        · by_cases hty : msg.msgType = Icmp.typeEchoReply
          · have hg : pkt.src ≠ iface.gateway := fun h => hrep ⟨hty, h⟩
            simp only [handleIcmp, Prog.bind_apply, hr, Prog.ofExcept_apply, if_neg hreq,
              if_pos hty, if_neg hg, Prog.pure_apply]
          · simp only [handleIcmp, Prog.bind_apply, hr, Prog.ofExcept_apply, if_neg hreq,
              if_neg hty, Prog.pure_apply]
        · rintro ⟨msg', hmsg', hty, hg, -⟩
          rw [hr, Except.ok.injEq, Option.some.injEq] at hmsg'
          exact hrep ⟨hmsg' ▸ hty, hg⟩

theorem handleUdp_answers (frame : List UInt8) (pkt : Ipv4.Packet) (s : NetState) :
    Answers frame (handleUdp pkt) s := by
  obtain ⟨r, hr⟩ := Udp.parse_total pkt.payload
  cases r with
  | none =>
    refine .silent s ?_
    simp only [handleUdp, Prog.bind_apply, hr, Prog.ofExcept_apply, Prog.pure_apply]
  | some d =>
    refine .silent
      { s with sockets := s.sockets.deliver d.dstPort ⟨pkt.src, d.srcPort, d.payload⟩ } ?_
    simp only [handleUdp, Prog.bind_apply, hr, Prog.ofExcept_apply, Prog.modify_apply,
      Prog.pure_apply]

/-- The frame is an echo reply to us from the gateway, and the interface has
already counted as many replies as its counter can hold. -/
def CounterFull (s : NetState) (frame : List UInt8) : Prop :=
  ∃ iface eth pkt, s.iface = some iface ∧ Ethernet.parse frame = .ok (some eth) ∧
    eth.ethertype = Ethernet.ethertypeIpv4 ∧ Ipv4.parse eth.payload = .ok (some pkt) ∧
    pkt.dst = iface.ip ∧ pkt.proto = Ipv4.protoIcmp ∧ PingOverflow iface pkt

/-- A frame that is not an IPv4 packet for us carrying ICMP cannot meet the
counter. -/
theorem not_counterFull {s : NetState} {frame : List UInt8} {eth : Ethernet.Frame}
    {iface : Iface} (heth : Ethernet.parse frame = .ok (some eth)) (hif : s.iface = some iface)
    (h : ∀ pkt, eth.ethertype = Ethernet.ethertypeIpv4 →
      Ipv4.parse eth.payload = .ok (some pkt) → pkt.dst = iface.ip →
      pkt.proto = Ipv4.protoIcmp → ¬ PingOverflow iface pkt) : ¬ CounterFull s frame := by
  rintro ⟨iface', eth', pkt, hif', heth', hty, hpkt, hdst, hproto, hping⟩
  rw [hif, Option.some.injEq] at hif'
  rw [heth, Except.ok.injEq, Option.some.injEq] at heth'
  subst hif' heth'
  exact h pkt hty hpkt hdst hproto hping

theorem handleFrame_ipv4 {s : NetState} {frame : List UInt8} {eth : Ethernet.Frame}
    {iface : Iface} {pkt : Ipv4.Packet} (heth : Ethernet.parse frame = .ok (some eth))
    (hif : s.iface = some iface) (hip : eth.ethertype = Ethernet.ethertypeIpv4)
    (hpkt : Ipv4.parse eth.payload = .ok (some pkt)) :
    handleFrame frame s =
      (if pkt.dst ≠ iface.ip then pure none
      else if pkt.proto = Ipv4.protoIcmp then handleIcmp iface eth.src pkt
      else if pkt.proto = Ipv4.protoUdp then handleUdp pkt
      else pure none : NetM (Option (List UInt8))) s := by
  have harp : eth.ethertype ≠ Ethernet.ethertypeArp := by
    rw [hip]
    decide
  simp only [handleFrame, Prog.bind_apply, heth, Prog.ofExcept_apply, Prog.get_apply, hif,
    if_neg harp, if_pos hip, hpkt]

/-- Receiving any frame in any state ends without a fault, with a reply no longer
than the frame or none, except that the counter of echo replies can be full. -/
theorem handleFrame_answers (frame : List UInt8) (s : NetState)
    (hs : ∀ iface, s.iface = some iface → iface.Sized) :
    Answers frame (handleFrame frame) s ↔ ¬ CounterFull s frame := by
  obtain ⟨r, hr, hparts⟩ := Ethernet.parse_total frame
  cases r with
  | none =>
    refine iff_of_true (.silent s ?_) ?_
    · simp only [handleFrame, Prog.bind_apply, hr, Prog.ofExcept_apply, Prog.pure_apply]
    · rintro ⟨-, eth, -, -, heth, -⟩
      rw [hr] at heth
      cases heth
  | some eth =>
    obtain ⟨hsrc6, hplen⟩ := hparts eth rfl
    cases hif : s.iface with
    | none =>
      refine iff_of_true (.silent s ?_) ?_
      · simp only [handleFrame, Prog.bind_apply, hr, Prog.ofExcept_apply, Prog.get_apply, hif,
          Prog.pure_apply]
      · rintro ⟨iface, -, -, hif', -⟩
        rw [hif] at hif'
        cases hif'
    | some iface =>
      have hi := hs iface hif
      by_cases harp : eth.ethertype = Ethernet.ethertypeArp
      · have hrun : handleFrame frame s = handleArp iface eth.payload s := by
          simp only [handleFrame, Prog.bind_apply, hr, Prog.ofExcept_apply, Prog.get_apply, hif,
            if_pos harp]
        refine iff_of_true ?_ (not_counterFull hr hif fun pkt hty => ?_)
        · rw [Answers, hrun]
          exact handleArp_answers hi hplen s
        · rw [harp] at hty
          exact absurd hty (by decide)
      · by_cases hip : eth.ethertype = Ethernet.ethertypeIpv4
        · obtain ⟨q, hq, hqparts⟩ := Ipv4.parse_total eth.payload
          cases q with
          | none =>
            refine iff_of_true (.silent s ?_) (not_counterFull hr hif fun pkt _ hpkt => ?_)
            · simp only [handleFrame, Prog.bind_apply, hr, Prog.ofExcept_apply, Prog.get_apply,
                hif, if_neg harp, if_pos hip, hq, Prog.pure_apply]
            · rw [hq] at hpkt
              cases hpkt
          | some pkt =>
            obtain ⟨hsrc, hlen, hfit⟩ := hqparts pkt rfl
            rw [Answers, handleFrame_ipv4 hr hif hip hq]
            have hsame {pkt' : Ipv4.Packet} (h : Ipv4.parse eth.payload = .ok (some pkt')) :
                pkt' = pkt := by
              rw [hq, Except.ok.injEq, Option.some.injEq] at h
              exact h.symm
            by_cases hdst : pkt.dst ≠ iface.ip
            · rw [if_pos hdst]
              refine iff_of_true (Answers.silent (x := pure none) s rfl)
                (not_counterFull hr hif fun pkt' _ hpkt hdst' => ?_)
              exact absurd (hsame hpkt ▸ hdst') hdst
            · rw [if_neg hdst]
              rw [not_not] at hdst
              by_cases hicmp : pkt.proto = Ipv4.protoIcmp
              · rw [if_pos hicmp]
                refine (handleIcmp_answers hi hsrc6 hsrc (by omega) hfit s).trans
                  (not_congr ⟨fun h => ?_, fun h => ?_⟩)
                · exact ⟨iface, eth, pkt, hif, hr, hip, hq, hdst, hicmp, h⟩
                · by_contra hping
                  refine not_counterFull hr hif (fun pkt' _ hpkt _ _ => ?_) h
                  rw [hsame hpkt]
                  exact hping
              · rw [if_neg hicmp]
                refine iff_of_true ?_ (not_counterFull hr hif fun pkt' _ hpkt _ hproto => ?_)
                · by_cases hudp : pkt.proto = Ipv4.protoUdp
                  · rw [if_pos hudp]
                    exact handleUdp_answers frame pkt s
                  · rw [if_neg hudp]
                    exact Answers.silent (x := pure none) s rfl
                · exact absurd (hsame hpkt ▸ hproto) hicmp
        · refine iff_of_true (.silent s ?_) (not_counterFull hr hif fun pkt hty => ?_)
          · simp only [handleFrame, Prog.bind_apply, hr, Prog.ofExcept_apply, Prog.get_apply, hif,
              if_neg harp, if_neg hip, Prog.pure_apply]
          · exact absurd hty hip

/-- The interface of the QEMU guest after `pings` echo replies. -/
def guestNet (pings : ℕ) : NetState :=
  ⟨some ⟨[0x52, 0x54, 0, 0x12, 0x34, 0x56], [10, 0, 2, 15], [10, 0, 2, 2], [], none, pings⟩, 1,
    .empty, []⟩

/-- An echo reply of the gateway without data. -/
def gatewayPong : List UInt8 :=
  [0x52, 0x54, 0, 0x12, 0x34, 0x56, 0x52, 0x55, 10, 0, 2, 2, 0x08, 0x00,
    0x45, 0, 0, 28, 0, 1, 0x40, 0, 64, 1, 0x22, 0xcf, 10, 0, 2, 2, 10, 0, 2, 15,
    0, 0, 0xff, 0xfd, 0, 1, 0, 1]

theorem guestNet_sized {pings : ℕ} (h : pings < usizeBound) :
    ∀ iface, (guestNet pings).iface = some iface → iface.Sized := by
  rintro iface ⟨⟩
  exact ⟨rfl, rfl, h⟩

/-- With room in the counter the pong is handled. -/
theorem handleFrame_answers_pong :
    Answers gatewayPong (handleFrame gatewayPong) (guestNet 0) := by
  refine (handleFrame_answers gatewayPong (guestNet 0) (guestNet_sized (by decide))).mpr ?_
  rintro ⟨iface, eth, pkt, hif, -, -, -, -, -, -, -, -, -, hfull⟩
  cases hif
  exact absurd hfull (by decide)

set_option maxRecDepth 4096 in
/-- The reply after the last one that the counter has room for is a panic. -/
theorem handleFrame_counter_overflow :
    handleFrame gatewayPong (guestNet (usizeBound - 1)) = .error (.panic .overflow) ∧
      ¬ Answers gatewayPong (handleFrame gatewayPong) (guestNet (usizeBound - 1)) := by
  have heth : Ethernet.parse gatewayPong = .ok (some ⟨gatewayPong.take 6,
      (gatewayPong.drop 6).take 6, 0x0800, gatewayPong.drop 14⟩) := rfl
  have hpkt : Ipv4.parse (gatewayPong.drop 14) =
      .ok (some ⟨[10, 0, 2, 2], [10, 0, 2, 15], 1, gatewayPong.drop 34⟩) := rfl
  have hmsg : Icmp.parse (gatewayPong.drop 34) = .ok (some ⟨0, 1, 1, []⟩) := rfl
  have hadd : checkedAdd (usizeBound - 1) 1 = .error (.panic .overflow) := by decide
  have h : handleFrame gatewayPong (guestNet (usizeBound - 1)) = .error (.panic .overflow) := by
    rw [handleFrame_ipv4 heth (s := guestNet (usizeBound - 1)) rfl rfl hpkt]
    simp only [ne_eq, not_true_eq_false, if_false, if_true, handleIcmp, Prog.bind_apply, hmsg,
      Prog.ofExcept_apply, hadd]
    rfl
  refine ⟨h, ?_⟩
  rintro ⟨r, s', hr, -⟩
  rw [h] at hr
  cases hr

end LightOS
