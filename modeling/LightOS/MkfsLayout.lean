import Mathlib.Tactic

/-!
# How the image builder settles its layout

The number of zone bitmap blocks of `scripts/mkfs_minix3.py` depends on the number of data
zones, which depends on the number of zone bitmap blocks. The constructor iterates until
the two agree. Seen from the number it is looking for, a round divides the distance by
8192, so the loop ends; but for one image size in 8193 there is no such number, and the
loop alternates between two values forever.
-/
namespace LightOS.Mkfs

abbrev bs : ℕ := 1024
abbrev bitsPerBlock : ℕ := bs * 8
abbrev inodeSize : ℕ := 64

def imapBlocks (ninodes : ℕ) : ℕ := (ninodes + 1 + bs * 8 - 1) / (bs * 8)

def inodeBlocks (ninodes : ℕ) : ℕ := ninodes * inodeSize / bs

def firstData (ninodes : ℕ) (zmapBlocks : ℤ) : ℤ :=
  2 + imapBlocks ninodes + zmapBlocks + inodeBlocks ninodes

/-- The bitmap blocks that one round of the loop asks for; Python's `//` rounds down. -/
def needed (totalBlocks ninodes : ℕ) (zmapBlocks : ℤ) : ℤ :=
  (totalBlocks - firstData ninodes zmapBlocks + 1 + bs * 8 - 1) / (bs * 8)

/-- The `while True` loop of `Builder.__init__`; `none` if `fuel` rounds do not settle it. -/
def settle (totalBlocks ninodes : ℕ) : ℕ → ℤ → Option ℤ
  | 0, _ => none
  | fuel + 1, zmapBlocks =>
    if needed totalBlocks ninodes zmapBlocks = zmapBlocks then some zmapBlocks
    else settle totalBlocks ninodes fuel (needed totalBlocks ninodes zmapBlocks)

/-- Blocks in front of the zone bitmap's own: boot block, superblock, inode bitmap and
inode table. -/
def fixedBlocks (ninodes : ℕ) : ℕ := 2 + imapBlocks ninodes + inodeBlocks ninodes

/-- The bitmap has a bit for every data zone and the reserved bit, and the data zones start
inside the image. -/
structure Covering (totalBlocks ninodes : ℕ) (zmapBlocks : ℤ) : Prop where
  inside : firstData ninodes zmapBlocks ≤ totalBlocks
  bits : totalBlocks - firstData ninodes zmapBlocks + 1 ≤ zmapBlocks * bitsPerBlock

variable {totalBlocks ninodes : ℕ}

theorem needed_eq (z : ℤ) : needed totalBlocks ninodes z =
    ((totalBlocks : ℤ) - fixedBlocks ninodes - z) / 8192 + 1 := by
  have h : (totalBlocks : ℤ) - firstData ninodes z + 1 + (bs * 8 : ℕ) - 1 =
      (totalBlocks : ℤ) - fixedBlocks ninodes - z + 1 * 8192 := by
    simp only [firstData, fixedBlocks, bs]
    push_cast
    ring
  have hpos : (8192 : ℤ) ≠ 0 := by norm_num
  rw [needed, show ((bs : ℤ) * 8) = ((bs * 8 : ℕ) : ℤ) from rfl, h,
    show ((bs * 8 : ℕ) : ℤ) = 8192 by norm_num, Int.add_mul_ediv_right _ _ hpos]

/-- The loop can only stop at a number that asks for itself. -/
theorem settle_fixed {fuel : ℕ} {z y : ℤ} (h : settle totalBlocks ninodes fuel z = some y) :
    needed totalBlocks ninodes y = y := by
  induction fuel generalizing z with
  | zero => cases h
  | succ fuel ih =>
      rw [settle] at h
      split_ifs at h with hz
      · rw [← Option.some.inj h, hz]
      · exact ih h

/-- A number that asks for itself exists unless the blocks behind the fixed ones are a
multiple of 8193. -/
theorem fixed_iff (y : ℤ) : needed totalBlocks ninodes y = y ↔
    8193 * (y - 1) < (totalBlocks : ℤ) - fixedBlocks ninodes ∧
      (totalBlocks : ℤ) - fixedBlocks ninodes < 8193 * y := by
  rw [needed_eq]
  omega

/-- Two or more away from the number, a round comes closer to it. -/
theorem round_closer {d y z : ℤ} (hy : 8193 * (y - 1) < d ∧ d < 8193 * y)
    (hz : 2 ≤ z - y ∨ 2 ≤ y - z) : ((d - z) / 8192 + 1 - y).natAbs < (z - y).natAbs := by
  obtain ⟨q, hq⟩ : ∃ q, q = (d - z) / 8192 := ⟨_, rfl⟩
  have hq1 : 8192 * q ≤ d - z ∧ d - z < 8192 * q + 8192 := by omega
  rw [← hq]
  clear hq
  omega

/-- Next to the number, a round steps at most to the other side of it. -/
theorem round_twice {d y z : ℤ} (hy : 8193 * (y - 1) < d ∧ d < 8193 * y)
    (hz : -1 ≤ z - y ∧ z - y ≤ 1) : (d - ((d - z) / 8192 + 1)) / 8192 + 1 = y := by
  omega

/-- From any number, the loop finds the one that asks for itself. -/
theorem settle_converges {y : ℤ} (hy : needed totalBlocks ninodes y = y) (n : ℕ) :
    ∀ z : ℤ, (z - y).natAbs = n → ∃ fuel, settle totalBlocks ninodes fuel z = some y := by
  have hwindow := (fixed_iff y).mp hy
  have hround (z : ℤ) (h : ∃ fuel, settle totalBlocks ninodes fuel
      (needed totalBlocks ninodes z) = some y) :
      ∃ fuel, settle totalBlocks ninodes fuel z = some y := by
    obtain ⟨fuel, hfuel⟩ := h
    by_cases hz : needed totalBlocks ninodes z = z
    · rw [hz] at hfuel
      exact ⟨fuel, hfuel⟩
    · exact ⟨fuel + 1, by rw [settle, if_neg hz, hfuel]⟩
  induction n using Nat.strong_induction_on with
  | h n ih =>
      intro z hz
      by_cases hfar : 2 ≤ z - y ∨ 2 ≤ y - z
      · have hlt := round_closer hwindow hfar
        rw [← needed_eq, hz] at hlt
        exact hround z (ih _ hlt _ rfl)
      · have htwice := round_twice hwindow (z := z) (by omega)
        rw [← needed_eq, ← needed_eq] at htwice
        refine hround z (hround _ ?_)
        rw [htwice]
        exact ⟨1, by rw [settle, if_pos hy]⟩

/-- The constructor's loop ends, with a bitmap that covers all data zones, exactly for the
images whose blocks behind the fixed ones are no multiple of 8193. -/
theorem settle_iff (hmeta : fixedBlocks ninodes + 1 ≤ totalBlocks) :
    (∃ fuel z, settle totalBlocks ninodes fuel 1 = some z ∧ Covering totalBlocks ninodes z) ↔
      ¬ 8193 ∣ totalBlocks - fixedBlocks ninodes := by
  constructor
  · rintro ⟨fuel, z, hz, -⟩ hdvd
    have hfix := (fixed_iff z).mp (settle_fixed hz)
    omega
  · intro hdvd
    obtain ⟨d, hd⟩ : ∃ d, d = totalBlocks - fixedBlocks ninodes := ⟨_, rfl⟩
    have hy : needed totalBlocks ninodes (d / 8193 + 1 : ℕ) = (d / 8193 + 1 : ℕ) := by
      rw [fixed_iff]
      omega
    obtain ⟨fuel, hfuel⟩ := settle_converges hy _ 1 rfl
    rw [fixed_iff] at hy
    refine ⟨fuel, _, hfuel, ?_, ?_⟩
    · rw [firstData]
      rw [fixedBlocks] at hy hmeta hd hdvd
      omega
    · rw [firstData]
      rw [fixedBlocks] at hy hmeta hd hdvd
      simp only [bitsPerBlock, bs]
      push_cast at *
      omega

/-- The default size of the script. -/
theorem settle_iff_default :
    ∃ fuel z, settle 8192 1024 fuel 1 = some z ∧ Covering 8192 1024 z :=
  (settle_iff (by decide)).mpr (by decide)

/-- At 8260 blocks the loop alternates between one bitmap block and two. -/
theorem settle_alternates : fixedBlocks 1024 + 1 ≤ 8260 ∧
    ¬ ∃ fuel z, settle 8260 1024 fuel 1 = some z := by
  refine ⟨by decide, ?_⟩
  rintro ⟨fuel, z, hz⟩
  have hfix := (fixed_iff z).mp (settle_fixed hz)
  have hfixed : fixedBlocks 1024 = 67 := by decide
  omega

end LightOS.Mkfs
