import LightOS.Lib.Avoids
import LightOS.Trap

/-!
# Operations that return no frame

The assertion against returning a frame twice can fail only where frames are
returned. Everything else, in the memory subsystem, the file system, the network stack
and the system calls, is sequenced from operations that do not know of it.
-/
namespace LightOS
open Lib

/-- The panic of the allocator on a frame that is already free. -/
abbrev doubleFree : Fault := .panic .doubleFree

/-- The program never returns a free frame. -/
abbrev Careful {σ α : Type} (x : Prog σ Fault α) : Prop := Avoids doubleFree x

/-! ### Arithmetic, images and the file system -/

theorem checkedAdd_clear (a b : ℕ) : Clear doubleFree (checkedAdd a b) := by
  unfold checkedAdd
  split_ifs
  · exact .ok _
  · exact .error (by decide)

theorem checkedAdd32_clear (a b : ℕ) : Clear doubleFree (checkedAdd32 a b) := by
  unfold checkedAdd32
  split_ifs
  · exact .ok _
  · exact .error (by decide)

theorem checkedMul_clear (a b : ℕ) : Clear doubleFree (checkedMul a b) := by
  unfold checkedMul
  split_ifs
  · exact .ok _
  · exact .error (by decide)

theorem pageUp_clear (a : ℕ) : Clear doubleFree (pageUp a) := (checkedAdd_clear _ _).bind fun _ => .pure _

namespace Elf

theorem byteAt_clear (b : List UInt8) (off : ℕ) : Clear doubleFree (byteAt b off) := by
  unfold byteAt
  cases b[off]? with
  | none => exact .error (by decide)
  | some x => exact .ok _

theorem readLe_clear (b : List UInt8) (n : ℕ) : ∀ off, Clear doubleFree (readLe b off n) := by
  induction n with
  | zero => exact fun off => .ok _
  | succ n ih => exact fun off => (byteAt_clear b off).bind fun _ => (ih _).bind fun _ => .pure _

theorem readSegment_clear (image : List UInt8) (phoff phentsize i : ℕ) :
    Clear doubleFree (readSegment image phoff phentsize i) := by
  unfold readSegment
  refine (checkedAdd_clear _ _).bind fun ph => (checkedAdd_clear _ _).bind fun phEnd => ?_
  split_ifs
  · exact .pure _
  refine (readLe_clear _ _ _).bind fun ty => ?_
  split_ifs
  · exact .pure _
  refine (readLe_clear _ _ _).bind fun flags => (readLe_clear _ _ _).bind fun offset =>
    (readLe_clear _ _ _).bind fun vaddr => (readLe_clear _ _ _).bind fun filesz =>
      (readLe_clear _ _ _).bind fun memsz => ?_
  split
  · exact .pure _
  · refine (checkedAdd_clear _ _).bind fun fileEnd => ?_
    split_ifs
    · exact .pure _
    · exact .pure _
    · exact .pure _

theorem endVa_clear (seg : Segment) : Clear doubleFree seg.endVa :=
  (checkedAdd_clear _ _).bind fun _ => pageUp_clear _

theorem readHeader_clear (image : List UInt8) : Clear doubleFree (readHeader image) := by
  unfold readHeader
  split_ifs
  · exact .pure _
  · exact .pure _
  refine (readLe_clear _ _ _).bind fun machine => ?_
  split_ifs
  · exact .pure _
  refine (readLe_clear _ _ _).bind fun type => ?_
  split_ifs
  · exact .pure _
  exact (readLe_clear _ _ _).bind fun _ => (readLe_clear _ _ _).bind fun _ =>
    (readLe_clear _ _ _).bind fun _ => (readLe_clear _ _ _).bind fun _ => .pure _

end Elf

theorem readBlock_clear (disk : Disk) (block : ℕ) : ClearT doubleFree (readBlock disk block) := by
  unfold readBlock
  cases disk block with
  | ok b => exact .pure _
  | error e => exact .throw _

theorem le16_clear (b : List UInt8) (off : ℕ) : ClearT doubleFree (le16 b off) :=
  .lift (Elf.readLe_clear _ _ _)

theorem le32_clear (b : List UInt8) (off : ℕ) : ClearT doubleFree (le32 b off) :=
  .lift (Elf.readLe_clear _ _ _)

namespace MinixFs

variable {disk : Disk} {fs : MinixFs}

theorem inode_clear (ino : ℕ) : ClearT doubleFree (fs.inode disk ino) := by
  unfold inode
  split_ifs
  · exact .throw _
  · exact (ClearT.lift (checkedAdd32_clear _ _)).bind fun _ => (readBlock_clear _ _).bind fun _ =>
      (ClearT.mapM (fun _ => le32_clear _ _) _).bind fun _ => (le16_clear _ _).bind fun _ =>
        (le16_clear _ _).bind fun _ => (le32_clear _ _).bind fun _ => .pure _

theorem fileZone_clear (inode : Inode) (n : ℕ) : ClearT doubleFree (fileZone disk inode n) := by
  unfold fileZone
  split_ifs
  · split
    · exact .pure _
    · exact .lift (.error (by decide))
  · split
    · exact .lift (.error (by decide))
    · exact .pure _
    · exact (readBlock_clear _ _).bind fun _ => le32_clear _ _
  · exact .throw _

theorem readAtLoop_clear (inode : Inode) (fuel : ℕ) : ∀ pos left acc,
    ClearT doubleFree (readAtLoop disk inode fuel pos left acc) := by
  induction fuel with
  | zero => exact fun _ _ _ => .pure _
  | succ fuel ih =>
    intro pos left acc
    unfold readAtLoop
    split_ifs
    · exact .pure _
    · refine (fileZone_clear _ _).bind fun zone => ?_
      dsimp only
      split_ifs
      · exact ih _ _ _
      · exact (readBlock_clear _ _).bind fun _ => ih _ _ _

theorem readAt_clear (inode : Inode) (offset len : ℕ) :
    ClearT doubleFree (readAt disk inode offset len) := by
  unfold readAt
  split_ifs
  · exact .pure _
  · exact readAtLoop_clear _ _ _ _ _

theorem readdirLoop_clear (dir : Inode) (fuel : ℕ) : ∀ offset,
    ClearT doubleFree (readdirLoop disk dir fuel offset) := by
  induction fuel with
  | zero => exact fun _ => .pure _
  | succ fuel ih =>
    intro offset
    unfold readdirLoop
    split_ifs
    · exact .pure _
    · refine (readAt_clear _ _ _).bind fun entry => ?_
      split_ifs
      · exact .pure _
      · refine (le32_clear _ _).bind fun ino => (ih _).bind fun rest => ?_
        split_ifs
        · exact .pure _
        · exact .pure _

theorem readdir_clear (dir : Inode) : ClearT doubleFree (readdir disk dir) := by
  unfold readdir
  split_ifs
  · exact readdirLoop_clear _ _ _
  · exact .throw _

theorem lookupFrom_clear (path : List (List UInt8)) : ∀ inode,
    ClearT doubleFree (lookupFrom fs disk inode path) := by
  induction path with
  | nil => exact fun _ => .pure _
  | cons comp rest ih =>
    intro inode
    unfold lookupFrom
    split_ifs
    · exact .pure _
    · refine ((readdir_clear _).bind fun _ => .pure _).bind fun found => ?_
      cases found with
      | none => exact .pure _
      | some ino => exact (inode_clear _).bind fun _ => ih _

theorem lookup_clear (path : List UInt8) : ClearT doubleFree (fs.lookup disk path) :=
  (inode_clear _).bind fun _ => lookupFrom_clear _ _

end MinixFs

namespace Fs

variable {disk : Disk} {fs : Fs}

theorem withRoot_clear {α : Type} {g : MinixFs → FsM α} (hg : ∀ r, ClearT doubleFree (g r)) :
    ClearT doubleFree (fs.withRoot g) := by
  unfold withRoot
  cases fs.root with
  | none => exact .throw _
  | some r => exact hg r

theorem lookup_clear (path : List UInt8) : ClearT doubleFree (fs.lookup disk path) :=
  withRoot_clear fun _ => MinixFs.lookup_clear _

theorem inode_clear (ino : ℕ) : ClearT doubleFree (fs.inode disk ino) :=
  withRoot_clear fun _ => MinixFs.inode_clear _

theorem readAt_clear (inode : Inode) (offset len : ℕ) :
    ClearT doubleFree (fs.readAt disk inode offset len) :=
  withRoot_clear fun _ => MinixFs.readAt_clear _ _ _

theorem readdir_clear (dir : Inode) : ClearT doubleFree (fs.readdir disk dir) :=
  withRoot_clear fun _ => MinixFs.readdir_clear _

theorem loadProgram_clear (path : List UInt8) : Clear doubleFree (fs.loadProgram disk path) := by
  unfold loadProgram
  refine Clear.bind (lookup_clear path) fun found => ?_
  split
  · split_ifs
    · refine Clear.bind (withRoot_clear fun _ => MinixFs.readAt_clear _ _ _) fun bytes => ?_
      cases bytes with
      | ok b => exact .pure _
      | error e => exact .pure _
    · exact .pure _
  · exact .pure _

end Fs

/-! ### The network stack -/

theorem slice_clear (b : List UInt8) (i j : ℕ) : Clear doubleFree (slice b i j) := by
  unfold slice
  split_ifs
  · exact .ok _
  · exact .error (by decide)

theorem readBe16_clear (b : List UInt8) (i : ℕ) : Clear doubleFree (readBe16 b i) :=
  (Elf.byteAt_clear _ _).bind fun _ => (Elf.byteAt_clear _ _).bind fun _ => .pure _

namespace Ipv4

theorem sumWords_clear (data : List UInt8) (sum : ℕ) : Clear doubleFree (sumWords data sum) := by
  induction data, sum using sumWords.induct with
  | case1 sum => exact .ok _
  | case2 a sum => exact checkedAdd32_clear _ _
  | case3 a b rest sum ih => exact (checkedAdd32_clear _ _).bind fun s => ih s

theorem checksum_clear (data : List UInt8) : Clear doubleFree (checksum data) :=
  (sumWords_clear _ _).bind fun _ => .pure _

theorem build_clear (src dst : List UInt8) (proto : ℕ) (payload : List UInt8) (ident : ℕ) :
    Clear doubleFree (build src dst proto payload ident) := (checksum_clear _).bind fun _ => .pure _

theorem parse_clear (pkt : List UInt8) : Clear doubleFree (parse pkt) := by
  unfold parse
  split
  · exact .pure _
  refine (Elf.byteAt_clear _ _).bind fun b0 => ?_
  dsimp only
  split
  · exact .pure _
  split
  · exact .pure _
  refine (readBe16_clear _ _).bind fun total => ?_
  split
  · exact .pure _
  exact (slice_clear _ _ _).bind fun _ => (slice_clear _ _ _).bind fun _ =>
    (Elf.byteAt_clear _ _).bind fun _ => (slice_clear _ _ _).bind fun _ => .pure _

end Ipv4

theorem Udp.build_clear (srcIp dstIp : List UInt8) (srcPort dstPort : ℕ) (payload : List UInt8) :
    Clear doubleFree (Udp.build srcIp dstIp srcPort dstPort payload) :=
  (Ipv4.checksum_clear _).bind fun _ => .pure _

theorem Udp.parse_clear (data : List UInt8) : Clear doubleFree (Udp.parse data) := by
  unfold Udp.parse
  split
  · exact .pure _
  · exact (readBe16_clear _ _).bind fun _ => (readBe16_clear _ _).bind fun _ =>
      (readBe16_clear _ _).bind fun _ => (slice_clear _ _ _).bind fun _ => .pure _

theorem Icmp.build_clear (msgType id seq : ℕ) (payload : List UInt8) :
    Clear doubleFree (Icmp.build msgType id seq payload) := (Ipv4.checksum_clear _).bind fun _ => .pure _

theorem Icmp.parse_clear (data : List UInt8) : Clear doubleFree (Icmp.parse data) := by
  unfold Icmp.parse
  split
  · exact .pure _
  · exact (Elf.byteAt_clear _ _).bind fun _ => (readBe16_clear _ _).bind fun _ =>
      (readBe16_clear _ _).bind fun _ => (slice_clear _ _ _).bind fun _ => .pure _

theorem Arp.parse_clear (payload : List UInt8) : Clear doubleFree (Arp.parse payload) := by
  unfold Arp.parse
  split
  · exact .pure _
  refine (readBe16_clear _ _).bind fun hw => ?_
  split
  · exact .pure _
  refine (readBe16_clear _ _).bind fun proto => ?_
  split
  · exact .pure _
  exact (readBe16_clear _ _).bind fun _ => (slice_clear _ _ _).bind fun _ =>
    (slice_clear _ _ _).bind fun _ => (slice_clear _ _ _).bind fun _ => .pure _

theorem Ethernet.parse_clear (frame : List UInt8) : Clear doubleFree (Ethernet.parse frame) := by
  unfold Ethernet.parse
  split
  · exact .pure _
  · exact (slice_clear _ _ _).bind fun _ => (slice_clear _ _ _).bind fun _ =>
      (readBe16_clear _ _).bind fun _ => (slice_clear _ _ _).bind fun _ => .pure _

theorem nextIdent_careful : Careful nextIdent :=
  Avoids.get.bind fun _ => (Avoids.set _).bind fun _ => .pure _

theorem handleArp_careful (iface : Iface) (payload : List UInt8) : Careful (handleArp iface payload) := by
  unfold handleArp
  refine (Avoids.ofExcept (Arp.parse_clear _)).bind fun o => ?_
  cases o with
  | none => exact .pure _
  | some a =>
    refine (Avoids.modify _).bind fun _ => ?_
    split_ifs
    · exact .pure _
    · exact (Avoids.modify _).bind fun _ => .pure _
    · exact .pure _
    · exact .pure _

theorem handleIcmp_careful (iface : Iface) (src : List UInt8) (pkt : Ipv4.Packet) :
    Careful (handleIcmp iface src pkt) := by
  unfold handleIcmp
  refine (Avoids.ofExcept (Icmp.parse_clear _)).bind fun o => ?_
  cases o with
  | none => exact .pure _
  | some msg =>
    dsimp only
    split_ifs
    · exact (Avoids.ofExcept (Icmp.build_clear _ _ _ _)).bind fun _ => nextIdent_careful.bind fun _ =>
        (Avoids.ofExcept (Ipv4.build_clear _ _ _ _ _)).bind fun _ => .pure _
    · exact (Avoids.ofExcept (checkedAdd_clear _ _)).bind fun _ => (Avoids.modify _).bind fun _ => .pure _
    · exact .pure _
    · exact .pure _

theorem handleUdp_careful (pkt : Ipv4.Packet) : Careful (handleUdp pkt) := by
  unfold handleUdp
  refine (Avoids.ofExcept (Udp.parse_clear _)).bind fun o => ?_
  cases o with
  | none => exact .pure _
  | some d => exact (Avoids.modify _).bind fun _ => .pure _

theorem handleFrame_careful (frame : List UInt8) : Careful (handleFrame frame) := by
  unfold handleFrame
  refine (Avoids.ofExcept (Ethernet.parse_clear _)).bind fun o => ?_
  cases o with
  | none => exact .pure _
  | some eth =>
    refine Avoids.get.bind fun s => ?_
    cases s.iface with
    | none => exact .pure _
    | some iface =>
      dsimp only
      split
      · exact handleArp_careful _ _
      split
      · refine (Avoids.ofExcept (Ipv4.parse_clear _)).bind fun o => ?_
        cases o with
        | none => exact .pure _
        | some pkt =>
          dsimp only
          split_ifs
          · exact .pure _
          · exact handleIcmp_careful _ _ _
          · exact handleUdp_careful _
          · exact .pure _
      · exact .pure _

theorem driverSend_careful (io : NetIo) (frame : List UInt8) : Careful (driverSend io frame) := by
  unfold driverSend
  by_cases h : bufSize - netHdrLen < frame.length
  · rw [if_pos h]
    exact .pure _
  · rw [if_neg h]
    exact (Avoids.modify _).bind fun _ => .pure _

theorem poll_careful (io : NetIo) (i : ℕ) : Careful (poll io i) := by
  refine .each (fun f => (handleFrame_careful f).bind fun o => ?_) _
  cases o with
  | none => exact .pure _
  | some reply => exact (driverSend_careful _ _).bind fun _ => .pure _

theorem sendUdp_careful (io : NetIo) (dstIp : List UInt8) (dstPort srcPort : ℕ) (payload : List UInt8) :
    Careful (sendUdp io dstIp dstPort srcPort payload) := by
  unfold sendUdp
  refine Avoids.get.bind fun s => ?_
  cases s.iface with
  | none => exact .pure _
  | some iface =>
    dsimp only
    cases iface.gatewayMac with
    | none => exact .pure _
    | some mac =>
      exact (Avoids.ofExcept (Udp.build_clear _ _ _ _ _)).bind fun _ => nextIdent_careful.bind fun _ =>
        (Avoids.ofExcept (Ipv4.build_clear _ _ _ _ _)).bind fun _ => driverSend_careful _ _

theorem pollRecv_careful (io : NetIo) (idx left : ℕ) : ∀ i, Careful (pollRecv io idx left i) := by
  induction left with
  | zero => exact fun _ => .pure _
  | succ left ih =>
    intro i
    unfold pollRecv
    refine (poll_careful io i).bind fun _ => Avoids.get.bind fun s => ?_
    rcases s.sockets.recv idx with ⟨_ | d, t⟩
    · exact ih _
    · exact (Avoids.set _).bind fun _ => .pure _

/-! ### Memory -/

theorem pageAlloc_careful (n : ℕ) : Careful (pageAlloc n) := by
  unfold pageAlloc
  refine Avoids.get.bind fun m => ?_
  cases m.pages.alloc n with
  | none => exact .pure _
  | some r => exact (Avoids.set _).bind fun _ => .pure _

namespace PageTable

theorem walkLevel_careful (t va level : ℕ) (create : Bool) : Careful (walkLevel t va level create) := by
  unfold walkLevel
  refine Avoids.get.bind fun m => ?_
  dsimp only
  split_ifs
  · exact .pure _
  · refine (pageAlloc_careful 1).bind fun o => ?_
    cases o with
    | none => exact .pure _
    | some q => exact (Avoids.modify _).bind fun _ => .pure _
  · exact .stop (by decide)
  · exact .pure _

theorem walk_careful (root va : ℕ) (create : Bool) : Careful (walk root va create) := by
  unfold walk
  refine (walkLevel_careful _ _ _ _).bind fun o => ?_
  cases o with
  | none => exact .pure _
  | some l1 => exact walkLevel_careful _ _ _ _

theorem map_careful (root va pa flags : ℕ) : Careful (map root va pa flags) := by
  unfold map
  split_ifs
  · exact .stop (by decide)
  · exact .stop (by decide)
  · refine (walk_careful _ _ _).bind fun o => ?_
    cases o with
    | none => exact .pure _
    | some l0 =>
      refine Avoids.get.bind fun m => ?_
      split_ifs
      · exact .pure _
      · exact (Avoids.modify _).bind fun _ => .pure _

theorem virtToPhys_careful (root va : ℕ) : Careful (virtToPhys root va) := by
  unfold virtToPhys
  refine (walk_careful _ _ _).bind fun o => ?_
  cases o with
  | none => exact .pure _
  | some l0 =>
    refine Avoids.get.bind fun m => ?_
    dsimp only
    split_ifs
    · exact .pure _
    · exact .pure _

end PageTable

theorem newUserRoot_careful : Careful newUserRoot := by
  unfold newUserRoot
  refine (pageAlloc_careful 1).bind fun o => ?_
  cases o with
  | none => exact .pure _
  | some root =>
    refine (Avoids.each (fun i => ?_) _).bind fun _ => .pure _
    split_ifs
    · exact Avoids.get.bind fun _ => .modify _
    · exact .pure _

theorem cloneUserSpace_careful (src dst : ℕ) : Careful (cloneUserSpace src dst) := by
  unfold cloneUserSpace
  refine Avoids.get.bind fun m => ?_
  dsimp only
  split_ifs
  · exact .pure _
  refine Avoids.tryEach (fun i1 => Avoids.get.bind fun m1 => ?_) _
  split_ifs
  · exact .pure _
  refine Avoids.tryEach (fun i0 => Avoids.get.bind fun m0 => ?_) _
  split_ifs
  · exact .pure _
  refine (pageAlloc_careful 1).bind fun o => ?_
  cases o with
  | none => exact .pure _
  | some frame => exact (Avoids.modify _).bind fun _ => PageTable.map_careful _ _ _ _

theorem loadPage_careful (image : List UInt8) (root : ℕ) (seg : Elf.Segment) (va : ℕ) :
    Careful (Elf.loadPage image root seg va) := by
  unfold Elf.loadPage
  refine (pageAlloc_careful 1).bind fun o => ?_
  cases o with
  | none => exact .pure _
  | some frame => exact (Avoids.modify _).bind fun _ => PageTable.map_careful _ _ _ _

theorem loadSegments_careful (image : List UInt8) (root phoff phentsize : ℕ) (is : List ℕ) :
    ∀ brk, Careful (Elf.loadSegments image root phoff phentsize is brk) := by
  induction is with
  | nil => exact fun _ => .pure _
  | cons i rest ih =>
    intro brk
    unfold Elf.loadSegments
    refine (Avoids.ofExcept (Elf.readSegment_clear _ _ _ _)).bind fun r => ?_
    rcases r with e | _ | seg
    · exact .pure _
    · exact ih _
    · refine (Avoids.ofExcept (Elf.endVa_clear _)).bind fun stop =>
        (Avoids.tryEach (fun va => loadPage_careful _ _ _ va) _).bind fun res => ?_
      cases res with
      | error e => exact .pure _
      | ok u => exact ih _

theorem buildAddressSpace_careful (image : List UInt8) : Careful (buildAddressSpace image) := by
  unfold buildAddressSpace
  refine newUserRoot_careful.bind fun o => ?_
  cases o with
  | none => exact .pure _
  | some root =>
    have hload : Careful (Elf.load image root) := by
      unfold Elf.load
      refine (Avoids.ofExcept (Elf.readHeader_clear _)).bind fun r => ?_
      rcases r with e | ⟨entry, phoff, phentsize, phnum⟩
      · exact .pure _
      · refine (loadSegments_careful _ _ _ _ _ _).bind fun r => ?_
        cases r with
        | error e => exact .pure _
        | ok brk =>
          dsimp only
          split_ifs
          · exact .pure _
          · exact .pure _
    have hstack : Careful (mapStack root) := by
      refine .tryEach (fun i => (pageAlloc_careful 1).bind fun o => ?_) _
      cases o with
      | none => exact .pure _
      | some frame => exact PageTable.map_careful _ _ _ _
    refine hload.bind fun r => ?_
    cases r with
    | error e => exact .pure _
    | ok loaded =>
      refine hstack.bind fun r => ?_
      cases r with
      | error e => exact .pure _
      | ok u => exact .pure _

/-! User copies. -/

theorem copyOut_careful (root uva : ℕ) (src : List UInt8) : Careful (copyOut root uva src) := by
  have hloop : ∀ fuel va src, Careful (copyOutLoop root fuel va src) := by
    intro fuel
    induction fuel with
    | zero => exact fun _ _ => .pure _
    | succ fuel ih =>
      intro va src
      unfold copyOutLoop
      split_ifs
      · exact .pure _
      · refine (PageTable.virtToPhys_careful _ _).bind fun o => ?_
        cases o with
        | none => exact .pure _
        | some pa => exact (Avoids.modify _).bind fun _ => ih _ _
  unfold copyOut
  cases checkRange uva src.length with
  | error e => exact .pure _
  | ok u => exact hloop _ _ _

theorem copyIn_careful (root uva len : ℕ) : Careful (copyIn root uva len) := by
  have hloop : ∀ fuel va left acc, Careful (copyInLoop root fuel va left acc) := by
    intro fuel
    induction fuel with
    | zero => exact fun _ _ _ => .pure _
    | succ fuel ih =>
      intro va left acc
      unfold copyInLoop
      split_ifs
      · exact .pure _
      · refine (PageTable.virtToPhys_careful _ _).bind fun o => ?_
        cases o with
        | none => exact .pure _
        | some pa => exact Avoids.get.bind fun _ => ih _ _ _
  unfold copyIn
  cases checkRange uva len with
  | error e => exact .pure _
  | ok u => exact hloop _ _ _ _

theorem copyInCstr_careful (root uva bufLen : ℕ) : Careful (copyInCstr root uva bufLen) := by
  have hloop : ∀ left i acc, Careful (copyInCstrLoop root uva left i acc) := by
    intro left
    induction left with
    | zero => exact fun _ _ => .pure _
    | succ left ih =>
      intro i acc
      unfold copyInCstrLoop
      refine (Avoids.ofExcept (checkedAdd_clear _ _)).bind fun va =>
        (copyIn_careful _ _ _).bind fun r => ?_
      cases r with
      | error e => exact .pure _
      | ok byte =>
        dsimp only
        split_ifs
        · exact .pure _
        · exact .pure _
        · exact ih _ _
  exact hloop _ _ _

theorem mmapPages_careful (root va pages : ℕ) : Careful (mmapPages root va pages) := by
  refine .tryEach (fun i => (pageAlloc_careful 1).bind fun o => ?_) _
  cases o with
  | none => exact .pure _
  | some frame =>
    refine (PageTable.map_careful _ _ _ _).bind fun r => ?_
    cases r with
    | error e => exact .pure _
    | ok u => exact .pure _

theorem fileReadLoop_careful (fs : Fs) (disk : Disk) (inode : Inode) (root pos uva fuel : ℕ) :
    ∀ left done, Careful (fileReadLoop fs disk inode root pos uva fuel left done) := by
  induction fuel with
  | zero => exact fun _ _ => .pure _
  | succ fuel ih =>
    intro left done
    unfold fileReadLoop
    split_ifs
    · exact .pure _
    refine (Avoids.ofExcept (checkedAdd_clear _ _)).bind fun off =>
      (Avoids.ofExcept (Fs.readAt_clear _ _ _)).bind fun r => ?_
    cases r with
    | error e => exact .pure _
    | ok bytes =>
      dsimp only
      split
      · exact .pure _
      · refine (Avoids.ofExcept (checkedAdd_clear _ _)).bind fun va =>
          (copyOut_careful _ _ _).bind fun r => ?_
        cases r with
        | error e => exact .pure _
        | ok u =>
          dsimp only
          split
          · exact .pure _
          · exact ih _ _

/-! ### System calls -/

section Calls

variable {io : Io} {tf : TrapFrame}

theorem onMachine_careful {α : Type} {x : MachineM α} (hx : Careful x) : Careful (onMachine x) := hx.zoom

theorem onMachineFor_careful {α : Type} {x : MachineM α} (pid : ℕ) (hx : Careful x) :
    Careful (onMachineFor pid x) := (Avoids.zoom (.modify _)).bind fun _ => hx.zoom

theorem slotAt_careful (i : ℕ) : Careful (slotAt i) := by
  unfold slotAt
  split_ifs
  · exact Avoids.get.bind fun _ => .pure _
  · exact .stop (by decide)

theorem procAt_careful (i : ℕ) : Careful (procAt i) := by
  unfold procAt
  refine (slotAt_careful i).bind fun o => ?_
  cases o with
  | none => exact .stop (by decide)
  | some p => exact .pure _

theorem currentInfo_careful : Careful currentInfo :=
  Avoids.get.bind fun _ => (procAt_careful _).bind fun _ => .pure _

theorem setProc_careful (i : ℕ) (p : Option Process) : Careful (setProc i p) := .modify _

theorem setFrame_careful (i : ℕ) (tf : TrapFrame) : Careful (setFrame i tf) := .modify _

theorem setPos_careful (cur fd pos : ℕ) : Careful (setPos cur fd pos) := by
  unfold setPos
  refine (procAt_careful _).bind fun p => ?_
  cases p.file fd with
  | none => exact .pure _
  | some f => exact setProc_careful _ _

/-- A call that ends with one operation on memory. -/
theorem lastly_careful (x : MachineM (Except String Unit)) (a b : ℤ) (hx : Careful x) :
    Careful (do
      match ← onMachine x with
      | .error _ => return a
      | .ok _ => return b) := by
  refine (onMachine_careful hx).bind fun r => ?_
  cases r with
  | error e => exact .pure _
  | ok u => exact .pure _

theorem writeConsole_careful (root uva len : ℕ) : Careful (writeConsole root uva len) := by
  unfold writeConsole
  refine (onMachine_careful (.tryEach (fun i => (Avoids.ofExcept (checkedAdd_clear _ _)).bind
    fun va => (copyIn_careful _ _ _).bind fun r => ?_) _)).bind fun r => ?_
  · cases r with
    | error e => exact .pure _
    | ok b => exact .pure _
  · cases r with
    | error e => exact .pure _
    | ok u => exact .pure _

theorem nceWrite_careful (fd uva len : ℕ) : Careful (nceWrite fd uva len) := by
  unfold nceWrite
  refine Avoids.get.bind fun k => (procAt_careful _).bind fun p => ?_
  cases p.file fd with
  | none => exact .pure _
  | some f =>
    dsimp only
    split
    · refine currentInfo_careful.bind fun r => (onMachine_careful (copyIn_careful _ _ _)).bind fun text => ?_
      cases text with
      | error e => exact .pure _
      | ok text =>
        dsimp only
        split
        · exact .pure _
        · cases PowerState.parse text with
          | none => exact .pure _
          | some state =>
            dsimp only
            split
            · exact (Avoids.modify _).bind fun _ => .pure _
            · exact .pure _
    · exact .pure _

theorem sysWrite_careful : Careful (sysWrite tf) := by
  unfold sysWrite
  dsimp only
  split
  · exact currentInfo_careful.bind fun _ => writeConsole_careful _ _ _
  split
  · exact nceWrite_careful _ _ _
  · exact .pure _

theorem nceRead_careful (fd slot pos uva len : ℕ) : Careful (nceRead fd slot pos uva len) := by
  unfold nceRead
  refine Avoids.get.bind fun k => ?_
  cases Nce.describe k.nces slot with
  | none => exact .pure _
  | some bytes =>
    dsimp only
    split
    · exact .pure _
    · refine currentInfo_careful.bind fun r => (onMachine_careful (copyOut_careful _ _ _)).bind fun r => ?_
      cases r with
      | error e => exact .pure _
      | ok u => exact (Avoids.ofExcept (checkedAdd_clear _ _)).bind fun _ =>
          (setPos_careful _ _ _).bind fun _ => .pure _

theorem fileRead_careful (fd uva len : ℕ) : Careful (fileRead io fd uva len) := by
  unfold fileRead
  refine Avoids.get.bind fun k => (procAt_careful _).bind fun p => ?_
  cases p.file fd with
  | none => exact .pure _
  | some f =>
    dsimp only
    split
    · exact .pure _
    · exact nceRead_careful _ _ _ _ _
    · refine (Avoids.ofExcept (Fs.inode_clear _)).bind fun r => ?_
      cases r with
      | error e => exact .pure _
      | ok inode =>
        dsimp only
        split
        · exact .pure _
        · refine currentInfo_careful.bind fun r =>
            (onMachine_careful (fileReadLoop_careful _ _ _ _ _ _ _ _ _)).bind fun r => ?_
          cases r with
          | error e => exact .pure _
          | ok done => exact (Avoids.ofExcept (checkedAdd_clear _ _)).bind fun _ =>
              (setPos_careful _ _ _).bind fun _ => .pure _

theorem pickNext_careful : Careful pickNext := by
  unfold pickNext
  refine Avoids.get.bind fun k => ?_
  dsimp only
  split
  · exact .pure _
  · exact (procAt_careful _).bind fun _ => (setProc_careful _ _).bind fun _ =>
      (Avoids.modify _).bind fun _ => .pure _

theorem enterUser_careful (slot : ℕ) : Careful (enterUser slot) :=
  Avoids.get.bind fun _ => setFrame_careful _ _

theorem schedule_careful : Careful schedule := by
  unfold schedule
  refine pickNext_careful.bind fun o => ?_
  cases o with
  | none => exact .pure _
  | some slot => exact (Avoids.modify _).bind fun _ => enterUser_careful _

theorem park_careful : Careful park := (Avoids.modify _).bind fun _ => schedule_careful

theorem resumeCurrent_careful : Careful resumeCurrent :=
  Avoids.get.bind fun _ => (procAt_careful _).bind fun _ => enterUser_careful _

theorem sysRead_careful : Careful (sysRead io tf) := by
  unfold sysRead
  dsimp only
  split
  · exact (fileRead_careful _ _ _).bind fun _ => .pure _
  split
  · exact .pure _
  split
  · exact .pure _
  refine Avoids.get.bind fun k => ?_
  refine (Avoids.modify _).bind fun _ => ?_
  split
  · have hblock : Careful (blockOnConsole tf.a1 tf.a2) := Avoids.get.bind fun _ =>
      (procAt_careful _).bind fun _ => (setProc_careful _ _).bind fun _ => park_careful
    exact hblock.bind fun _ => .pure _
  · refine currentInfo_careful.bind fun r => (onMachine_careful (copyOut_careful _ _ _)).bind fun r => ?_
    cases r with
    | error e => exact .pure _
    | ok u => exact .pure _

theorem openKind_clear (k : Kernel) (disk : Disk) (path : List UInt8) (flags : ℕ) :
    Clear doubleFree (openKind k disk path flags) := by
  unfold openKind
  dsimp only
  split
  · split
    · exact .pure _
    · split_ifs
      · exact .pure _
      · exact .pure _
      · exact .pure _
  · refine Clear.bind (Fs.lookup_clear _) fun r => ?_
    split
    · split_ifs
      · exact .pure _
      · exact .pure _
    · exact .pure _

theorem sysOpenat_careful : Careful (sysOpenat io tf) := by
  unfold sysOpenat
  refine currentInfo_careful.bind fun r => (onMachine_careful (copyInCstr_careful _ _ _)).bind fun path => ?_
  cases path with
  | error e => exact .pure _
  | ok path =>
    refine Avoids.get.bind fun k => (Avoids.ofExcept (openKind_clear _ _ _ _)).bind fun kind => ?_
    cases kind with
    | error e => exact .pure _
    | ok kind => exact (procAt_careful _).bind fun _ => (setProc_careful _ _).bind fun _ => .pure _

theorem sysClose_careful : Careful (sysClose tf) := by
  unfold sysClose
  dsimp only
  split
  · exact .pure _
  refine Avoids.get.bind fun k => (procAt_careful _).bind fun p => ?_
  cases p.file (toIsize tf.a0).toNat with
  | none => exact .pure _
  | some f =>
    dsimp only
    split
    · exact (Avoids.modify _).bind fun _ => (setProc_careful _ _).bind fun _ => .pure _
    · exact (Avoids.pure _).bind fun _ => (setProc_careful _ _).bind fun _ => .pure _

theorem fillDirents_clear (fs : Fs) (disk : Disk) (room start : ℕ) (entries : List (List UInt8 × ℕ)) :
    ∀ out consumed, Clear doubleFree (fillDirents fs disk room start entries out consumed) := by
  induction entries with
  | nil => exact fun _ _ => .ok _
  | cons x rest ih =>
    obtain ⟨name, ino⟩ := x
    intro out consumed
    unfold fillDirents
    dsimp only
    split
    · exact .pure _
    · refine Clear.bind (Fs.inode_clear _) fun r => ?_
      cases r with
      | error e => exact (checkedAdd_clear _ _).bind fun _ => ih _ _
      | ok i => exact (checkedAdd_clear _ _).bind fun _ => ih _ _

theorem sysGetdents64_careful : Careful (sysGetdents64 io tf) := by
  unfold sysGetdents64
  dsimp only
  split
  · exact .pure _
  refine Avoids.get.bind fun k => (procAt_careful _).bind fun p => ?_
  cases p.file tf.a0 with
  | none => exact .pure _
  | some f =>
    dsimp only
    split
    · refine (Avoids.ofExcept (Fs.inode_clear _)).bind fun r => ?_
      cases r with
      | error e => exact .pure _
      | ok dir =>
        dsimp only
        split
        · exact .pure _
        · refine (Avoids.ofExcept (Fs.readdir_clear _)).bind fun r => ?_
          cases r with
          | error e => exact .pure _
          | ok entries =>
            refine (Avoids.ofExcept (fillDirents_clear _ _ _ _ _ _ _)).bind fun filled =>
              currentInfo_careful.bind fun r => ?_
            have hlast : ∀ sent : Except String Unit, Careful (match sent with
                | .error _ => (return efault : KernelM ℤ)
                | .ok _ => do
                  setPos k.current tf.a0 (f.pos + filled.2)
                  return filled.1.length) := by
              intro sent
              cases sent with
              | error e => exact .pure _
              | ok u => exact (setPos_careful _ _ _).bind fun _ => .pure _
            split
            · exact (Avoids.pure _).bind hlast
            · exact (onMachine_careful (copyOut_careful _ _ _)).bind hlast
    · exact .pure _

theorem sysSchedSetaffinity_careful : Careful (sysSchedSetaffinity tf) := by
  unfold sysSchedSetaffinity
  split
  · exact .pure _
  refine currentInfo_careful.bind fun r => (onMachine_careful (copyIn_careful _ _ _)).bind fun r => ?_
  cases r with
  | error e => exact .pure _
  | ok bytes =>
    refine Avoids.get.bind fun k => (slotAt_careful _).bind fun o => ?_
    cases o with
    | none => exact .pure _
    | some p => exact (setProc_careful _ _).bind fun _ => .pure _

theorem sysSchedGetaffinity_careful : Careful (sysSchedGetaffinity tf) := by
  unfold sysSchedGetaffinity
  split
  · exact .pure _
  · exact Avoids.get.bind fun _ => (slotAt_careful _).bind fun _ => currentInfo_careful.bind fun _ =>
      lastly_careful _ _ _ (copyOut_careful _ _ _)

theorem sysSysinfo_careful : Careful (sysSysinfo tf) :=
  Avoids.get.bind fun _ => (Avoids.ofExcept (checkedMul_clear _ _)).bind fun _ =>
    currentInfo_careful.bind fun _ => lastly_careful _ _ _ (copyOut_careful _ _ _)

theorem listing_clear (t : ProcTable) : Clear doubleFree (listing t) := by
  have hline : ∀ p, Clear doubleFree (listingLine t p) := by
    intro p
    have hbad : Clear doubleFree (.error (.panic .indexOutOfRange) : Except Fault ℕ) := .error (by decide)
    unfold listingLine
    dsimp only
    split_ifs
    · exact .pure _
    · exact .pure _
    · exact .pure _
    · exact .pure _
    · exact hbad.bind fun _ => .pure _
    · exact hbad.bind fun _ => .pure _
  have hlines : ∀ is, Clear doubleFree (listingLines t is) := by
    intro is
    induction is with
    | nil => exact .ok _
    | cons i rest ih =>
      unfold listingLines
      cases t.slots i with
      | none => exact (Clear.pure _).bind fun _ => ih.bind fun _ => .pure _
      | some p => exact (hline p).bind fun _ => ih.bind fun _ => .pure _
  exact (hlines _).bind fun _ => .pure _

theorem sysProclist_careful : Careful (sysProclist tf) :=
  Avoids.get.bind fun _ => (Avoids.ofExcept (listing_clear _)).bind fun _ =>
    currentInfo_careful.bind fun _ => lastly_careful _ _ _ (copyOut_careful _ _ _)

theorem sysMmap_careful : Careful (sysMmap tf) := by
  unfold sysMmap
  dsimp only
  split
  · exact .pure _
  refine Avoids.get.bind fun k => (procAt_careful _).bind fun p =>
    (Avoids.ofExcept (checkedMul_clear _ _)).bind fun _ =>
      (Avoids.ofExcept (checkedAdd_clear _ _)).bind fun _ => (setProc_careful _ _).bind fun _ =>
        (onMachineFor_careful _ (mmapPages_careful _ _ _)).bind fun r => ?_
  cases r with
  | error e => exact .pure _
  | ok u => exact .pure _

theorem socketIdx_careful (fd : ℕ) : Careful (socketIdx fd) := by
  unfold socketIdx
  split
  · exact .pure _
  refine Avoids.get.bind fun k => (slotAt_careful _).bind fun o => ?_
  cases o with
  | none => exact .pure _
  | some p =>
    dsimp only
    split
    · exact .pure _
    · exact .pure _

theorem sysSocket_careful : Careful (sysSocket tf) := by
  unfold sysSocket
  split
  · exact .pure _
  refine Avoids.get.bind fun k => ?_
  cases k.net.sockets.alloc with
  | none => exact .pure _
  | some r =>
    refine (Avoids.modify _).bind fun _ => Avoids.get.bind fun k => (slotAt_careful _).bind fun o => ?_
    cases o with
    | none => exact .pure _
    | some p => exact (setProc_careful _ _).bind fun _ => .pure _

theorem socketBind_careful (idx port : ℕ) : Careful (socketBind idx port) :=
  Avoids.get.bind fun _ => (Avoids.set _).bind fun _ => .pure _

theorem sysBind_careful : Careful (sysBind tf) := by
  unfold sysBind
  refine (socketIdx_careful _).bind fun o => ?_
  cases o with
  | none => exact .pure _
  | some idx =>
    dsimp only
    split
    · exact .pure _
    refine currentInfo_careful.bind fun r => (onMachine_careful (copyIn_careful _ _ _)).bind fun sa => ?_
    cases sa with
    | error e => exact .pure _
    | ok sa =>
      refine (socketBind_careful _ _).bind fun o => ?_
      cases o with
      | none => exact .pure _
      | some port => exact .pure _

theorem autoBind_careful (idx : ℕ) : Careful (autoBind idx) := by
  unfold autoBind
  refine Avoids.get.bind fun k => ?_
  dsimp only
  split
  · exact socketBind_careful _ _
  · exact .pure _

theorem sysSendto_careful : Careful (sysSendto io tf) := by
  unfold sysSendto
  refine (socketIdx_careful _).bind fun o => ?_
  cases o with
  | none => exact .pure _
  | some idx =>
    dsimp only
    split
    · exact .pure _
    split
    · exact .pure _
    refine currentInfo_careful.bind fun r => (onMachine_careful (copyIn_careful _ _ _)).bind fun sa => ?_
    cases sa with
    | error e => exact .pure _
    | ok sa =>
      refine (autoBind_careful idx).bind fun o => ?_
      cases o with
      | none => exact .pure _
      | some srcPort =>
        refine (onMachine_careful (copyIn_careful _ _ _)).bind fun payload => ?_
        cases payload with
        | error e => exact .pure _
        | ok payload =>
          refine (Avoids.zoom (sendUdp_careful _ _ _ _ _)).bind fun res => ?_
          cases res with
          | error e => exact .pure _
          | ok u => exact .pure _

theorem sysRecvfrom_careful : Careful (sysRecvfrom io tf) := by
  unfold sysRecvfrom
  refine (socketIdx_careful _).bind fun o => ?_
  cases o with
  | none => exact .pure _
  | some idx =>
    refine (Avoids.zoom (pollRecv_careful _ _ _ _)).bind fun o => ?_
    cases o with
    | none => exact .pure _
    | some d =>
      refine currentInfo_careful.bind fun r =>
        (onMachine_careful (copyOut_careful _ _ _)).bind fun res => ?_
      cases res with
      | error e => exact .pure _
      | ok u =>
        dsimp only
        split
        · exact (onMachine_careful (copyOut_careful _ _ _)).bind fun _ => .pure _
        · exact (Avoids.pure _).bind fun _ => .pure _

/-- Five calls may return frames. -/
def Sysno.frees : Sysno → Bool
  | .exit | .wait4 | .clone | .execve | .munmap => true
  | _ => false

theorem syscall_careful {no : Sysno} (hno : no.frees = false) : Careful (syscall io tf no) := by
  cases no with
  | write => exact sysWrite_careful.map some
  | read => exact sysRead_careful
  | openat => exact sysOpenat_careful.map some
  | close => exact sysClose_careful.map some
  | getdents64 => exact sysGetdents64_careful.map some
  | schedSetaffinity => exact sysSchedSetaffinity_careful.map some
  | schedGetaffinity => exact sysSchedGetaffinity_careful.map some
  | getpid => exact (currentInfo_careful.bind fun _ => .pure _).map some
  | mmap => exact sysMmap_careful.map some
  | sysinfo => exact sysSysinfo_careful.map some
  | reboot =>
    refine (Avoids.stop ?_).map some
    split_ifs <;> decide
  | proclist => exact sysProclist_careful.map some
  | socket => exact sysSocket_careful.map some
  | bind => exact sysBind_careful.map some
  | sendto => exact sysSendto_careful.map some
  | recvfrom => exact sysRecvfrom_careful.map some
  | unknown => exact .pure _
  | exit | wait4 | clone | execve | munmap => cases hno

end Calls

end LightOS
