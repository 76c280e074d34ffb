import Mathlib.Tactic

/-!
# Byte-addressed memory with little-endian words

A memory gives a byte to every address. Words of eight bytes are read and
written through it, and blocks of bytes are filled, copied and stored. The
lemmas say which reads a write can change: a word survives every write outside
its eight bytes.
-/
namespace LightOS.Lib

/-- A byte for every address. -/
abbrev Mem := ℕ → UInt8

/-- Little-endian word at `a`. -/
def readWord (m : Mem) (a : ℕ) : ℕ :=
  (m a).toNat + (m (a + 1)).toNat * 2 ^ 8 + (m (a + 2)).toNat * 2 ^ 16 +
    (m (a + 3)).toNat * 2 ^ 24 + (m (a + 4)).toNat * 2 ^ 32 + (m (a + 5)).toNat * 2 ^ 40 +
    (m (a + 6)).toNat * 2 ^ 48 + (m (a + 7)).toNat * 2 ^ 56

/-- Store the low eight bytes of `v` at `a`. -/
def writeWord (m : Mem) (a v : ℕ) : Mem := fun b =>
  if a ≤ b ∧ b < a + 8 then UInt8.ofNat (v / 2 ^ (8 * (b - a))) else m b

/-- Zero `n` bytes from `a`. -/
def fillZero (m : Mem) (a n : ℕ) : Mem := fun b =>
  if a ≤ b ∧ b < a + n then 0 else m b

/-- Copy `n` bytes from `src` to `dst`. -/
def copyBytes (m : Mem) (src dst n : ℕ) : Mem := fun b =>
  if dst ≤ b ∧ b < dst + n then m (src + (b - dst)) else m b

/-- Store a byte string at `a`. -/
def writeBytes (m : Mem) (a : ℕ) (bs : List UInt8) : Mem := fun b =>
  if a ≤ b ∧ b < a + bs.length then bs.getD (b - a) 0 else m b

/-- The `n` bytes from `a`. -/
def readBytes (m : Mem) (a n : ℕ) : List UInt8 := (List.range n).map fun i => m (a + i)

/-- Two memories agree on the `n` bytes from `a`. -/
def AgreeOn (m m' : Mem) (a n : ℕ) : Prop := ∀ b, a ≤ b → b < a + n → m' b = m b

theorem readWord_congr {m m' : Mem} {a : ℕ} (h : AgreeOn m m' a 8) :
    readWord m' a = readWord m a := by
  simp only [readWord, h a (by omega) (by omega), h (a + 1) (by omega) (by omega),
    h (a + 2) (by omega) (by omega), h (a + 3) (by omega) (by omega),
    h (a + 4) (by omega) (by omega), h (a + 5) (by omega) (by omega),
    h (a + 6) (by omega) (by omega), h (a + 7) (by omega) (by omega)]

theorem readWord_lt (m : Mem) (a : ℕ) : readWord m a < 2 ^ 64 := by
  have h (b : ℕ) : (m b).toNat < 2 ^ 8 := (m b).toNat_lt
  have h0 := h a
  have h1 := h (a + 1)
  have h2 := h (a + 2)
  have h3 := h (a + 3)
  have h4 := h (a + 4)
  have h5 := h (a + 5)
  have h6 := h (a + 6)
  have h7 := h (a + 7)
  simp only [readWord]
  omega

theorem readWord_writeWord_self (m : Mem) (a v : ℕ) (hv : v < 2 ^ 64) :
    readWord (writeWord m a v) a = v := by
  have h (k : ℕ) (hk : k < 8) :
      (writeWord m a v (a + k)).toNat = v / 2 ^ (8 * k) % 2 ^ 8 := by
    have ha : a ≤ a + k ∧ a + k < a + 8 := by omega
    simp [writeWord, ha, UInt8.toNat_ofNat']
  have h0 := h 0 (by omega)
  simp only [Nat.add_zero, Nat.mul_zero, pow_zero, Nat.div_one] at h0
  simp only [readWord, h0, h 1 (by omega), h 2 (by omega), h 3 (by omega), h 4 (by omega),
    h 5 (by omega), h 6 (by omega), h 7 (by omega)]
  norm_num
  omega

theorem writeWord_agreeOn (m : Mem) (a v b n : ℕ) (h : b + n ≤ a ∨ a + 8 ≤ b) :
    AgreeOn m (writeWord m a v) b n := by
  intro c hb hc
  have hn : ¬ (a ≤ c ∧ c < a + 8) := by omega
  simp only [writeWord, if_neg hn]

theorem fillZero_agreeOn (m : Mem) (a k b n : ℕ) (h : b + n ≤ a ∨ a + k ≤ b) :
    AgreeOn m (fillZero m a k) b n := by
  intro c hb hc
  have hn : ¬ (a ≤ c ∧ c < a + k) := by omega
  simp only [fillZero, if_neg hn]

theorem writeBytes_agreeOn (m : Mem) (a b n : ℕ) (bs : List UInt8)
    (h : b + n ≤ a ∨ a + bs.length ≤ b) : AgreeOn m (writeBytes m a bs) b n := by
  intro c hb hc
  have hn : ¬ (a ≤ c ∧ c < a + bs.length) := by omega
  simp only [writeBytes, if_neg hn]

theorem readWord_zero {m : Mem} {a : ℕ} (h : ∀ b, a ≤ b → b < a + 8 → m b = 0) :
    readWord m a = 0 := by
  have hz (k : ℕ) (hk : k < 8) : m (a + k) = 0 := h (a + k) (by omega) (by omega)
  have h0 := hz 0 (by omega)
  rw [Nat.add_zero] at h0
  simp [readWord, h0, hz]

theorem readBytes_congr {m m' : Mem} {a n : ℕ} (h : AgreeOn m m' a n) :
    readBytes m' a n = readBytes m a n := by
  simp only [readBytes]
  refine List.map_congr_left fun i hi => h _ (by omega) ?_
  have := List.mem_range.mp hi
  omega

/-- What was written behind the first part of a list reads back. -/
theorem readBytes_writeBytes_append (m : Mem) (a : ℕ) (xs ys : List UInt8) :
    readBytes (writeBytes m a (xs ++ ys)) (a + xs.length) ys.length = ys := by
  refine List.ext_getElem (by simp [readBytes]) fun i h1 h2 => ?_
  simp only [readBytes, List.getElem_map, List.getElem_range, writeBytes]
  rw [if_pos (by rw [List.length_append]; omega), show a + xs.length + i - a = xs.length + i by omega]
  simp [List.getD_eq_getElem?_getD, h2]

end LightOS.Lib
