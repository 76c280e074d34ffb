import LightOS.Packets

/-!
# Echo replies

An echo request on the wire: an Ethernet frame with an IPv4 packet for the interface, with
or without IP options and padding, around an ICMP message. What comes back from the handler
is a reply to the sender that repeats identifier, sequence number and payload, and in which
both checksums verify.
-/
namespace LightOS
open Lib

namespace Icmp

/-- A message is read by its layout; code and checksum are skipped. -/
theorem parse_layout {l payload : List UInt8} {ty code : UInt8} {sum id seq : ℕ}
    (hl : l = [ty, code] ++ be16 sum ++ be16 id ++ be16 seq ++ payload) (hid : id < 65536)
    (hseq : seq < 65536) : parse l = .ok (some ⟨ty.toNat, id, seq, payload⟩) := by
  have hlen : l.length = 8 + payload.length := by
    simp only [hl, List.length_append, be16_length, List.length_cons, List.length_nil]
  have h0 : Elf.byteAt l 0 = .ok ty.toNat := byteAt_at (a := []) (c := l.tail) (by rw [hl]; rfl) rfl
  have h4 : readBe16 l 4 = .ok id := by
    refine readBe16_at (a := [ty, code] ++ be16 sum) (c := be16 seq ++ payload) ?_ rfl hid
    rw [hl, List.append_assoc _ (be16 seq)]
  have h6 : readBe16 l 6 = .ok seq :=
    readBe16_at (a := [ty, code] ++ be16 sum ++ be16 id) (c := payload) hl rfl hseq
  have hpay : slice l 8 l.length = .ok payload :=
    slice_at (a := [ty, code] ++ be16 sum ++ be16 id ++ be16 seq) (c := [])
      (by rw [hl, List.append_nil]) rfl hlen.symm
  unfold parse
  rw [if_neg (by omega)]
  simp only [h0, h4, h6, hpay, bind, Except.bind, pure, Except.pure]

/-- A built message verifies and parses back to its parts. Even if all of it is zero its
checksum is not: the complement of an empty sum is all ones. -/
theorem build_spec (msgType id seq : ℕ) (payload : List UInt8) (hty : msgType < 256)
    (hid : id < 65536) (hseq : seq < 65536) (hlen : 8 + payload.length ≤ 65536) :
    ∃ m, build msgType id seq payload = .ok m ∧ m.length = 8 + payload.length ∧
      Ipv4.onesSum m = .ok 0xffff ∧ parse m = .ok (some ⟨msgType, id, seq, payload⟩) := by
  obtain ⟨tail, htail⟩ : ∃ t, t = be16 id ++ be16 seq ++ payload := ⟨_, rfl⟩
  obtain ⟨sum, hsum⟩ : ∃ n, n = wordSum ([UInt8.ofNat msgType, 0] ++ [0, 0] ++ tail) := ⟨_, rfl⟩
  have hzero : ([UInt8.ofNat msgType, 0] ++ [0, 0] ++ tail).length ≤ 65536 := by
    simp only [htail, List.length_append, be16_length, List.length_cons, List.length_nil]
    omega
  have hle := endAround_le sum
  obtain ⟨csum, hc⟩ : ∃ c, c = 65535 - endAround sum := ⟨_, rfl⟩
  obtain ⟨m, hm⟩ : ∃ m, m = [UInt8.ofNat msgType, 0] ++ be16 csum ++ tail := ⟨_, rfl⟩
  have hlay : m = [UInt8.ofNat msgType, 0] ++ be16 csum ++ be16 id ++ be16 seq ++ payload := by
    rw [hm, htail]
    simp only [List.append_assoc]
  have hx : (UInt8.ofNat msgType).toNat = msgType := by
    rw [UInt8.toNat_ofNat', Nat.mod_eq_of_lt hty]
  refine ⟨m, ?_, ?_, ?_, ?_⟩
  · have hsum' : Ipv4.checksum ([UInt8.ofNat msgType, 0, 0, 0] ++ tail) = .ok csum := by
      have := Ipv4.checksum_ok hzero
      rw [← hsum, ← hc] at this
      exact this
    simp only [build, ← htail, hsum', bind, Except.bind, pure, Except.pure, hm]
  · simp only [hlay, List.length_append, be16_length, List.length_cons, List.length_nil]
  · have heven : [UInt8.ofNat msgType, 0].length % 2 = 0 := by simp
    rw [hm]
    by_cases hpos : 0 < sum
    · exact Ipv4.onesSum_checksum heven hzero (hsum ▸ hpos) (.inl (hsum ▸ hc))
    · have hones : csum = 65535 := by
        rw [hc, endAround, if_pos (by omega)]
      rw [Ipv4.onesSum_ok (by rw [Ipv4.length_field]; exact hzero),
        Ipv4.wordSum_field heven (by omega), ← hsum, hones]
      obtain rfl : sum = 0 := by omega
      rfl
  · rw [parse_layout hlay hid hseq, hx]

end Icmp

/-- The fields of an echo request in a frame, with those that the handler does not read. -/
structure EchoRequest where
  dstMac : Vector UInt8 6
  srcMac : Vector UInt8 6
  service : UInt8
  ident : UInt16
  fragment : UInt16
  ttl : UInt8
  headerSum : UInt16
  srcIp : Vector UInt8 4
  options : List UInt8
  code : UInt8
  messageSum : UInt16
  id : UInt16
  seq : UInt16
  payload : List UInt8
  padding : List UInt8
  options_words : options.length % 4 = 0
  options_le : options.length ≤ 40
  total_lt : 28 + options.length + payload.length < 65536

namespace EchoRequest

/-- The ICMP message. -/
def message (r : EchoRequest) : List UInt8 :=
  [8, r.code] ++ be16 r.messageSum.toNat ++ be16 r.id.toNat ++ be16 r.seq.toNat ++ r.payload

/-- The IPv4 header in front of the message, options included. -/
def header (r : EchoRequest) (dstIp : List UInt8) : List UInt8 :=
  [UInt8.ofNat (0x45 + r.options.length / 4), r.service] ++
    be16 (28 + r.options.length + r.payload.length) ++ be16 r.ident.toNat ++
    be16 r.fragment.toNat ++ [r.ttl, 1] ++ be16 r.headerSum.toNat ++ r.srcIp.toList ++ dstIp ++
    r.options

def frame (r : EchoRequest) (dstIp : List UInt8) : List UInt8 :=
  r.dstMac.toList ++ r.srcMac.toList ++ [0x08, 0x00] ++
    (r.header dstIp ++ r.message ++ r.padding)

variable (r : EchoRequest) {ip : List UInt8}

theorem message_length : r.message.length = 8 + r.payload.length := by
  simp only [message, List.length_append, be16_length, List.length_cons, List.length_nil]

theorem header_length (hip : ip.length = 4) :
    (r.header ip).length = 20 + r.options.length := by
  simp only [header, List.length_append, be16_length, List.length_cons, List.length_nil,
    Vector.length_toList, hip]

theorem parse_frame (ip : List UInt8) : Ethernet.parse (r.frame ip) =
    .ok (some ⟨r.dstMac.toList, r.srcMac.toList, Ethernet.ethertypeIpv4,
      r.header ip ++ r.message ++ r.padding⟩) := by
  have hframe : r.frame ip = Ethernet.build r.dstMac.toList r.srcMac.toList
      Ethernet.ethertypeIpv4 (r.header ip ++ r.message) ++ r.padding := by
    rw [frame, Ethernet.build]
    simp only [List.append_assoc]
    rfl
  rw [hframe]
  exact Ethernet.parse_build r.dstMac.length_toList r.srcMac.length_toList (by decide) r.padding

/-- The header length skips the options, the total length cuts the padding off. -/
theorem parse_packet (hip : ip.length = 4) :
    Ipv4.parse (r.header ip ++ r.message ++ r.padding) =
      .ok (some ⟨r.srcIp.toList, ip, Ipv4.protoIcmp, r.message⟩) := by
  obtain ⟨ihl, hihl⟩ : ∃ n, n = 0x45 + r.options.length / 4 := ⟨_, rfl⟩
  obtain ⟨total, htotal⟩ : ∃ n, n = 28 + r.options.length + r.payload.length := ⟨_, rfl⟩
  obtain ⟨all, hall⟩ : ∃ l, l = r.header ip ++ r.message ++ r.padding := ⟨_, rfl⟩
  have hwords := r.options_words
  have hopts := r.options_le
  have hlt := r.total_lt
  have hmlen := r.message_length
  have hhlen := r.header_length hip
  have hsrc : r.srcIp.toList.length = 4 := r.srcIp.length_toList
  have hlong : all.length = total + r.padding.length := by
    rw [hall, List.length_append, List.length_append, hmlen, hhlen]
    omega
  have h0 : Elf.byteAt all 0 = .ok ihl := by
    have hx : (UInt8.ofNat ihl).toNat = ihl := by
      rw [UInt8.toNat_ofNat', Nat.mod_eq_of_lt (by omega)]
    rw [← hx]
    refine byteAt_at (a := []) (c := all.tail) ?_ rfl
    rw [hall, header, ← hihl]
    rfl
  have h2 : readBe16 all 2 = .ok total := by
    refine readBe16_at (a := [UInt8.ofNat ihl, r.service]) (c := be16 r.ident.toNat ++
      be16 r.fragment.toNat ++ [r.ttl, 1] ++ be16 r.headerSum.toNat ++ r.srcIp.toList ++ ip ++
      r.options ++ r.message ++ r.padding) ?_ rfl (by omega)
    rw [hall, header, ← hihl, ← htotal]
    simp only [List.append_assoc]
  have h9 : Elf.byteAt all 9 = .ok Ipv4.protoIcmp := by
    refine byteAt_at (a := [UInt8.ofNat ihl, r.service] ++ be16 total ++ be16 r.ident.toNat ++
      be16 r.fragment.toNat ++ [r.ttl]) (x := 1) (c := be16 r.headerSum.toNat ++
      r.srcIp.toList ++ ip ++ r.options ++ r.message ++ r.padding) ?_ rfl
    rw [hall, header, ← hihl, ← htotal]
    simp only [List.append_assoc, List.cons_append, List.nil_append]
  have h12 : slice all 12 16 = .ok r.srcIp.toList := by
    refine slice_at (a := [UInt8.ofNat ihl, r.service] ++ be16 total ++ be16 r.ident.toNat ++
      be16 r.fragment.toNat ++ [r.ttl, 1] ++ be16 r.headerSum.toNat) (c := ip ++ r.options ++
      r.message ++ r.padding) ?_ rfl (by omega)
    rw [hall, header, ← hihl, ← htotal]
    simp only [List.append_assoc]
  have h16 : slice all 16 20 = .ok ip := by
    refine slice_at (a := [UInt8.ofNat ihl, r.service] ++ be16 total ++ be16 r.ident.toNat ++
      be16 r.fragment.toNat ++ [r.ttl, 1] ++ be16 r.headerSum.toNat ++ r.srcIp.toList)
      (c := r.options ++ r.message ++ r.padding) ?_ ?_ (by omega)
    · rw [hall, header, ← hihl, ← htotal]
      simp only [List.append_assoc]
    · rw [List.length_append, hsrc]
      rfl
  have hpay : slice all (20 + r.options.length) total = .ok r.message :=
    slice_at hall hhlen (by omega)
  have hskip : ihl % 16 * 4 = 20 + r.options.length := by omega
  have hver : ihl / 16 = 4 := by omega
  have hstop : min total all.length = total := by omega
  rw [← hall]
  unfold Ipv4.parse
  rw [if_neg (by simp only [Ipv4.hdrLen]; omega)]
  simp only [h0, h2, h9, h12, h16, bind, Except.bind, pure, Except.pure, hver, hskip, hstop]
  rw [if_neg (by decide), if_neg (by simp only [Ipv4.hdrLen]; omega), if_neg (by omega)]
  simp only [hpay]

theorem parse_message : Icmp.parse r.message =
    .ok (some ⟨Icmp.typeEchoRequest, r.id.toNat, r.seq.toNat, r.payload⟩) :=
  Icmp.parse_layout rfl r.id.toNat_lt r.seq.toNat_lt

end EchoRequest

/-- The first byte of a built packet gives its header length. -/
theorem Ipv4.build_first {src dst payload p : List UInt8} {proto ident : ℕ}
    (h : Ipv4.build src dst proto payload ident = .ok p) : Elf.byteAt p 0 = .ok 0x45 := by
  unfold Ipv4.build at h
  dsimp only at h
  generalize Ipv4.checksum _ = c at h
  cases c with
  | error e => cases h
  | ok csum =>
    obtain rfl := Except.ok.inj h
    rfl

/-- What the sender of a request makes of the reply. -/
def Repeats (reply ourMac ourIp : List UInt8) (r : EchoRequest) : Prop :=
  ∃ pkt msg,
    Ethernet.parse reply = .ok (some ⟨r.srcMac.toList, ourMac, Ethernet.ethertypeIpv4, pkt⟩) ∧
    Ipv4.parse pkt = .ok (some ⟨ourIp, r.srcIp.toList, Ipv4.protoIcmp, msg⟩) ∧
    Icmp.parse msg =
      .ok (some ⟨Icmp.typeEchoReply, r.id.toNat, r.seq.toNat, r.payload⟩) ∧
    Elf.byteAt pkt 0 = .ok 0x45 ∧ Ipv4.onesSum (pkt.take Ipv4.hdrLen) = .ok 0xffff ∧
    Ipv4.onesSum msg = .ok 0xffff

/-- Every echo request for the interface is answered, and the answer goes back to the sender
with what the request carried. -/
theorem handleFrame_echo (iface : Iface) (sockets : SocketTable) (sent : List (List UInt8))
    (mac : Vector UInt8 6) (ip : Vector UInt8 4) (ident : UInt16) (r : EchoRequest) :
    ∃ reply,
      handleFrame (r.frame ip.toList)
        ⟨some { iface with mac := mac.toList, ip := ip.toList }, ident.toNat, sockets, sent⟩ =
        .ok (some reply, ⟨some { iface with mac := mac.toList, ip := ip.toList },
          (ident.toNat + 1) % 65536, sockets, sent⟩) ∧
      Repeats reply mac.toList ip.toList r := by
  have hip : ip.toList.length = 4 := ip.length_toList
  have hlt := r.total_lt
  obtain ⟨msg, hmsg, hmlen, hmsum, hmparse⟩ := Icmp.build_spec Icmp.typeEchoReply
    r.id.toNat r.seq.toNat r.payload (by decide) r.id.toNat_lt r.seq.toNat_lt (by omega)
  obtain ⟨hdr, hpkt, hhlen, hhsum, -, hparse⟩ :=
    Ipv4.build_spec Ipv4.protoIcmp ident.toNat msg hip r.srcIp.length_toList (by decide)
      (by simp only [Ipv4.hdrLen]; omega)
  have hempty := hparse []
  rw [List.append_nil] at hempty
  refine ⟨Ethernet.build r.srcMac.toList mac.toList Ethernet.ethertypeIpv4 (hdr ++ msg), ?_,
    hdr ++ msg, msg, ?_, hempty, hmparse, Ipv4.build_first hpkt, ?_, hmsum⟩
  · rw [handleFrame_ipv4 (r.parse_frame _) rfl rfl (r.parse_packet hip),
      if_neg (not_not.mpr rfl), if_pos rfl]
    simp only [handleIcmp, nextIdent, Prog.bind_apply, r.parse_message, Prog.ofExcept_apply,
      if_true, hmsg, Prog.get_apply, Prog.set_apply, Prog.pure_apply, hpkt]
  · have hback : Ethernet.parse (Ethernet.build r.srcMac.toList mac.toList
        Ethernet.ethertypeIpv4 (hdr ++ msg) ++ []) = _ :=
      Ethernet.parse_build r.srcMac.length_toList mac.length_toList (by decide) []
    rw [List.append_nil, List.append_nil] at hback
    exact hback
  · rw [List.take_left' hhlen, hhsum]

end LightOS
