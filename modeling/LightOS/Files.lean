import LightOS.Syscall

/-!
# Reading files of the Minix3 driver

What `read_at` returns, in terms of the blocks in which a file is stored: byte `k`
of a file is byte `k % 1024` of its block `k / 1024`, across the direct blocks, the
single-indirect ones and holes.
-/
namespace LightOS
open Lib

/-! Driver computations that succeed are equal to `pure` of their value. -/

theorem readBlock_eq {disk : Disk} {z : ℕ} {b : Vector UInt8 blockSize} (h : disk z = .ok b) :
    readBlock disk z = pure b.toList := by rw [readBlock, h]

theorem readLe_ok (b : List UInt8) {off n : ℕ} (h : off + n ≤ b.length) :
    Elf.readLe b off n = .ok (leValue ((b.drop off).take n)) := by
  induction n generalizing off with
  | zero => simp [Elf.readLe, leValue]
  | succ n ih =>
      have hlt : off < b.length := by omega
      have hbyte : Elf.byteAt b off = .ok b[off].toNat := by simp [Elf.byteAt, hlt]
      have hdrop : b.drop off = b[off] :: b.drop (off + 1) := List.drop_eq_getElem_cons hlt
      rw [Elf.readLe, hbyte, ih (by omega), hdrop, List.take_succ_cons, leValue]
      rfl

theorem le32_eq (b : List UInt8) {off : ℕ} (h : off + 4 ≤ b.length) :
    le32 b off = pure (leValue ((b.drop off).take 4)) := by
  rw [le32, Elf.readU32, readLe_ok b h]
  rfl

theorem le16_eq (b : List UInt8) {off : ℕ} (h : off + 2 ≤ b.length) :
    le16 b off = pure (leValue ((b.drop off).take 2)) := by
  rw [le16, Elf.readU16, readLe_ok b h]
  rfl

theorem lift_ok {α : Type} (a : α) : (ExceptT.lift (.ok a) : FsM α) = pure a := rfl

theorem mapM_eq_pure {α β : Type} {f : α → FsM β} {g : α → β} {l : List α}
    (h : ∀ a ∈ l, f a = pure (g a)) : l.mapM f = pure (l.map g) := by
  induction l with
  | nil => rfl
  | cons a l ih =>
      rw [List.mapM_cons, h a (by simp), pure_bind, ih fun b hb => h b (by simp [hb]), pure_bind,
        List.map_cons]

namespace MinixFs

/-- The widths of the superblock fields. -/
structure Sized (r : MinixFs) : Prop where
  imap : r.imapBlocks < 65536
  zmap : r.zmapBlocks < 65536
  ninodes : r.ninodes < 2 ^ 32

/-- The inode in the 64 bytes at `off` of a block. -/
def inodeAt (ino : ℕ) (b : List UInt8) (off : ℕ) : Inode where
  ino := ino
  mode := leValue ((b.drop off).take 2)
  nlinks := leValue ((b.drop (off + 2)).take 2)
  size := leValue ((b.drop (off + 8)).take 4)
  zones := (List.range 10).map fun i => leValue ((b.drop (off + 24 + i * 4)).take 4)

/-- Where inode `ino` lies in the inode table. -/
def inodeBlock (r : MinixFs) (ino : ℕ) : ℕ := r.inodeTableBlock + (ino - 1) / 16
def inodeOff (ino : ℕ) : ℕ := (ino - 1) % 16 * 64

/-- Loading an inode: out of range, not readable, or the table entry. -/
theorem inode_eq {r : MinixFs} (hr : r.Sized) (disk : Disk) (ino : ℕ) :
    r.inode disk ino =
      if ino = 0 ∨ r.ninodes < ino then throw "minix3: inode out of range"
      else match disk (r.inodeBlock ino) with
        | .error e => throw e
        | .ok b => pure (inodeAt ino b.toList (inodeOff ino)) := by
  unfold MinixFs.inode
  by_cases h0 : ino = 0 ∨ r.ninodes < ino
  · rw [if_pos h0, if_pos h0]
    rfl
  · rw [if_neg h0, if_neg h0]
    have hi := hr.imap
    have hz := hr.zmap
    have hn := hr.ninodes
    have hadd : checkedAdd32 r.inodeTableBlock ((ino - 1) / (blockSize / inodeSize)) =
        .ok (r.inodeBlock ino) := by
      rw [checkedAdd32, if_pos]
      · rfl
      · simp only [MinixFs.inodeTableBlock, blockSize, inodeSize]
        omega
    have hoff : (ino - 1) % (blockSize / inodeSize) * inodeSize = inodeOff ino := rfl
    dsimp only
    rw [hadd, lift_ok, hoff, pure_bind]
    cases hd : disk (r.inodeBlock ino) with
    | error e => rw [readBlock, hd]; rfl
    | ok b =>
      have hlen : b.toList.length = 1024 := b.length_toList
      have hle : inodeOff ino ≤ 960 := by
        unfold inodeOff
        omega
      have hzones : (List.range 10).mapM (fun i => le32 b.toList (inodeOff ino + 24 + i * 4)) =
          pure ((List.range 10).map fun i =>
            leValue ((b.toList.drop (inodeOff ino + 24 + i * 4)).take 4)) := by
        refine mapM_eq_pure fun i hi => le32_eq _ ?_
        have := List.mem_range.mp hi
        omega
      rw [readBlock_eq hd, pure_bind, hzones, pure_bind, le16_eq _ (by omega), pure_bind,
        le16_eq _ (by omega), pure_bind, le32_eq _ (by omega), pure_bind]
      rfl

/-- A loaded inode has ten zone numbers. -/
theorem inode_zones {r : MinixFs} (hr : r.Sized) {disk : Disk} {ino : ℕ} {i : Inode}
    (h : r.inode disk ino = pure i) : i.zones.length = 10 := by
  rw [inode_eq hr] at h
  split_ifs at h with h0
  · cases h
  · cases hd : disk (r.inodeBlock ino) with
    | error e => rw [hd] at h; cases h
    | ok b =>
      rw [hd] at h
      cases h
      simp [inodeAt]

/-- Loading an inode never panics. -/
theorem inode_total {r : MinixFs} (hr : r.Sized) (disk : Disk) (ino : ℕ) :
    ∃ x, (r.inode disk ino).run = .ok x := by
  rw [inode_eq hr]
  split_ifs
  · exact ⟨.error _, rfl⟩
  · split
    · exact ⟨.error _, rfl⟩
    · exact ⟨.ok _, rfl⟩

/-- The driver finds the bytes of block `i` of a file. -/
def Stored (disk : Disk) (inode : Inode) (i : ℕ) (data : List UInt8) : Prop :=
  ∃ z, fileZone disk inode i = pure z ∧
    (z = 0 ∧ data = List.replicate blockSize 0 ∨
      z ≠ 0 ∧ ∃ b, disk z = .ok b ∧ data = b.toList)

theorem Stored.length {disk : Disk} {inode : Inode} {i : ℕ} {data : List UInt8}
    (h : Stored disk inode i data) : data.length = blockSize := by
  obtain ⟨z, -, ⟨-, rfl⟩ | ⟨-, b, -, rfl⟩⟩ := h
  · exact List.length_replicate
  · exact b.length_toList

/-- Byte `k` of a file whose blocks are given. -/
def byteOf (blocks : ℕ → List UInt8) (k : ℕ) : UInt8 :=
  (blocks (k / blockSize)).getD (k % blockSize) 0

/-- The bytes of a file from `off` on. -/
def bytesOf (blocks : ℕ → List UInt8) (off n : ℕ) : List UInt8 :=
  (List.range n).map fun j => byteOf blocks (off + j)

@[simp] theorem bytesOf_length (blocks : ℕ → List UInt8) (off n : ℕ) :
    (bytesOf blocks off n).length = n := by simp [bytesOf]

theorem bytesOf_append (blocks : ℕ → List UInt8) (off a b : ℕ) :
    bytesOf blocks off a ++ bytesOf blocks (off + a) b = bytesOf blocks off (a + b) := by
  simp only [bytesOf, List.range_add, List.map_append, List.map_map]
  congr 1
  refine List.map_congr_left fun j _ => ?_
  simp only [Function.comp_apply, Nat.add_assoc]

/-- Inside one block the bytes are a slice of it. -/
theorem bytesOf_block {blocks : ℕ → List UInt8} {off n : ℕ}
    (hlen : (blocks (off / blockSize)).length = blockSize)
    (hn : off % blockSize + n ≤ blockSize) :
    bytesOf blocks off n = ((blocks (off / blockSize)).drop (off % blockSize)).take n := by
  refine List.ext_getElem ?_ fun j h1 h2 => ?_
  · simp only [bytesOf_length, List.length_take, List.length_drop, hlen]
    omega
  · rw [bytesOf_length] at h1
    have hdiv : (off + j) / blockSize = off / blockSize := by
      simp only [blockSize] at *
      omega
    have hmod : (off + j) % blockSize = off % blockSize + j := by
      simp only [blockSize] at *
      omega
    have hlt : off % blockSize + j < (blocks (off / blockSize)).length := by omega
    simp only [bytesOf, byteOf, List.getElem_map, List.getElem_range, hdiv, hmod,
      List.getElem_take, List.getElem_drop, List.getD_eq_getElem?_getD]
    rw [List.getElem?_eq_getElem hlt, Option.getD_some]

/-- The copy loop gathers the bytes block by block. -/
theorem readAtLoop_eq {disk : Disk} {inode : Inode} {blocks : ℕ → List UInt8} (fuel : ℕ) :
    ∀ {pos left : ℕ} {acc : List UInt8}, left ≤ fuel →
      (∀ i, pos / blockSize ≤ i → i * blockSize < pos + left → Stored disk inode i (blocks i)) →
      readAtLoop disk inode fuel pos left acc = pure (acc ++ bytesOf blocks pos left) := by
  induction fuel with
  | zero =>
      intro pos left acc hf _
      obtain rfl : left = 0 := by omega
      simp [readAtLoop, bytesOf]
  | succ fuel ih =>
      intro pos left acc hf hst
      by_cases h0 : left = 0
      · rw [readAtLoop, if_pos h0, h0]
        simp [bytesOf]
      · have hpos : pos / blockSize * blockSize ≤ pos := Nat.div_mul_le_self _ _
        have hstored := hst (pos / blockSize) le_rfl (by omega)
        have hlen := hstored.length
        obtain ⟨n, hn⟩ : ∃ n, n = min (blockSize - pos % blockSize) left := ⟨_, rfl⟩
        have hmod : pos % blockSize < blockSize := Nat.mod_lt _ (by decide)
        have hslice : bytesOf blocks pos n =
            ((blocks (pos / blockSize)).drop (pos % blockSize)).take n :=
          bytesOf_block hlen (by omega)
        have hrest {acc' : List UInt8} : readAtLoop disk inode fuel (pos + n) (left - n) acc' =
            pure (acc' ++ bytesOf blocks (pos + n) (left - n)) := by
          refine ih (by omega) fun i hi hlt => hst i ?_ (by omega)
          exact le_trans (Nat.div_le_div_right (by omega)) hi
        have hjoin : bytesOf blocks pos left =
            bytesOf blocks pos n ++ bytesOf blocks (pos + n) (left - n) := by
          rw [bytesOf_append]
          congr 1
          omega
        obtain ⟨z, hz, hzero | ⟨hzne, b, hb, hdata⟩⟩ := hstored
        · have hfill : bytesOf blocks pos n = List.replicate n 0 := by
            rw [hslice, hzero.2, List.drop_replicate, List.take_replicate]
            congr 1
            omega
          rw [readAtLoop, if_neg h0, hz, pure_bind, if_pos hzero.1, ← hn, hrest, hjoin, hfill,
            List.append_assoc]
        · rw [readAtLoop, if_neg h0, hz, pure_bind, if_neg hzne, readBlock_eq hb, pure_bind, ← hn,
            ← hdata, ← hslice, hrest, hjoin, List.append_assoc]

/-- `read_at` on a file whose blocks are stored. -/
theorem readAt_eq {disk : Disk} {inode : Inode} {blocks : ℕ → List UInt8} {off len : ℕ}
    (hst : ∀ i, i * blockSize < min (off + len) inode.size → Stored disk inode i (blocks i)) :
    readAt disk inode off len = pure (bytesOf blocks off (min len (inode.size - off))) := by
  unfold readAt
  by_cases h : inode.size ≤ off
  · rw [if_pos h, Nat.sub_eq_zero_of_le h, Nat.min_zero]
    rfl
  · rw [if_neg h]
    exact readAtLoop_eq _ le_rfl fun i _ hlt => hst i (by omega)

/-- The blocks that the inode's zone numbers name: seven directly, 256 more in the
indirect block. -/
def zoneOf (disk : Disk) (inode : Inode) (i : ℕ) : ℕ :=
  if i < 7 then inode.zones.getD i 0
  else if inode.zones.getD 7 0 = 0 then 0
  else match disk (inode.zones.getD 7 0) with
    | .ok b => leValue ((b.toList.drop ((i - 7) * 4)).take 4)
    | .error _ => 0

/-- The bytes of those blocks; zone 0 is a hole. -/
def fileBlocks (disk : Disk) (inode : Inode) (i : ℕ) : List UInt8 :=
  if zoneOf disk inode i = 0 then List.replicate blockSize 0
  else match disk (zoneOf disk inode i) with
    | .ok b => b.toList
    | .error _ => []

theorem fileZone_eq {disk : Disk} {inode : Inode} {i : ℕ} (hz : inode.zones.length = 10)
    (hi : i < 263) (hd : 7 ≤ i → inode.zones.getD 7 0 ≠ 0 →
      ∃ b, disk (inode.zones.getD 7 0) = .ok b) :
    fileZone disk inode i = pure (zoneOf disk inode i) := by
  have hget (j : ℕ) (hj : j < 10) : inode.zones[j]? = some (inode.zones.getD j 0) := by
    rw [List.getElem?_eq_getElem (by omega), List.getD_eq_getElem _ _ (by omega)]
  unfold fileZone zoneOf
  by_cases h7 : i < 7
  · rw [if_pos h7, if_pos h7, hget i (by omega)]
  · rw [if_neg h7, if_neg h7, if_pos (by simp only [zonesPerBlock, blockSize]; omega),
      hget 7 (by omega)]
    obtain ⟨z, hzz⟩ : ∃ z, z = inode.zones.getD 7 0 := ⟨_, rfl⟩
    rw [← hzz] at hd ⊢
    by_cases h0 : z = 0
    · rw [if_pos h0, h0]
      rfl
    · rw [if_neg h0]
      obtain ⟨b, hb⟩ := hd (by omega) h0
      have hlen : b.toList.length = 1024 := b.length_toList
      obtain ⟨y, rfl⟩ : ∃ y, z = y + 1 := ⟨z - 1, by omega⟩
      change (do
        let buf ← readBlock disk (y + 1)
        le32 buf ((i - 7) * 4)) = _
      rw [hb, readBlock_eq hb, pure_bind, le32_eq _ (by omega)]

/-- On a disk that answers every read, the first 263 blocks of a file are found. -/
theorem stored_of_readable {disk : Disk} (hd : ∀ z, ∃ b, disk z = .ok b) {inode : Inode}
    (hz : inode.zones.length = 10) {i : ℕ} (hi : i < 263) :
    Stored disk inode i (fileBlocks disk inode i) := by
  refine ⟨zoneOf disk inode i, fileZone_eq hz hi fun _ _ => hd _, ?_⟩
  unfold fileBlocks
  by_cases h0 : zoneOf disk inode i = 0
  · exact .inl ⟨h0, if_pos h0⟩
  · obtain ⟨b, hb⟩ := hd (zoneOf disk inode i)
    refine .inr ⟨h0, b, hb, ?_⟩
    rw [if_neg h0, hb]

end MinixFs

end LightOS
