import Mathlib.Tactic

/-!
# One's-complement sums of 16-bit words

The arithmetic behind the internet checksum, on natural numbers. `wordSum` adds
the big-endian words of a byte string, `endAround` is the 16-bit value that the
end-around carries leave of a sum. A sum and the complement of its end-around
value always fold to the all-ones word.
-/
namespace LightOS.Lib

/-- Sum of the big-endian words; an odd last byte is the high half of a word. -/
def wordSum : List UInt8 → ℕ
  | [] => 0
  | [a] => a.toNat * 256
  | a :: b :: rest => a.toNat * 256 + b.toNat + wordSum rest

/-- What is left of a sum when every carry out of 16 bits has been added back. -/
def endAround (n : ℕ) : ℕ := if n = 0 then 0 else (n - 1) % 65535 + 1

theorem wordSum_le (l : List UInt8) : 2 * wordSum l ≤ 65535 * (l.length + 1) := by
  induction l using wordSum.induct with
  | case1 => simp [wordSum]
  | case2 a =>
      have := a.toNat_lt
      simp only [wordSum, List.length_cons, List.length_nil]
      omega
  | case3 a b rest ih =>
      have := a.toNat_lt
      have := b.toNat_lt
      simp only [wordSum, List.length_cons]
      omega

/-- After a whole number of words the sum starts afresh. -/
theorem wordSum_append (l r : List UInt8) (hl : l.length % 2 = 0) :
    wordSum (l ++ r) = wordSum l + wordSum r := by
  induction l using wordSum.induct with
  | case1 => simp [wordSum]
  | case2 a => simp at hl
  | case3 a b rest ih =>
      simp only [List.length_cons] at hl
      simp only [List.cons_append, wordSum, ih (by omega)]
      omega

theorem endAround_le (n : ℕ) : endAround n ≤ 65535 := by
  unfold endAround
  split_ifs <;> omega

theorem endAround_pos {n : ℕ} (hn : 0 < n) : 0 < endAround n := by
  unfold endAround
  rw [if_neg (by omega)]
  omega

/-- Adding the complement of its end-around value completes a sum. -/
theorem endAround_complement {n : ℕ} (hn : 0 < n) :
    endAround (n + (65535 - endAround n)) = 65535 := by
  have hs : endAround n = (n - 1) % 65535 + 1 := by rw [endAround, if_neg (by omega)]
  rw [hs, endAround, if_neg (by omega)]
  omega

/-- The all-ones word may stand for the zero complement. -/
theorem endAround_ones {n : ℕ} (hn : endAround n = 65535) :
    endAround (n + 65535) = 65535 := by
  unfold endAround at *
  split_ifs at hn with h
  rw [if_neg (by omega)]
  omega

/-! ### The sum with its carries -/

/-- The big-endian words; an odd last byte is padded with zero. -/
def beWords : List UInt8 → List ℕ
  | [] => []
  | [a] => [a.toNat * 256]
  | a :: b :: rest => (a.toNat * 256 + b.toNat) :: beWords rest

/-- Addition of two words; a carry out of the top comes in again at the bottom. -/
def onesAdd (a b : ℕ) : ℕ := (a + b) % 65536 + (a + b) / 65536

/-- The one's-complement sum of the words. -/
def onesComplementSum (l : List UInt8) : ℕ := (beWords l).foldl onesAdd 0

theorem onesAdd_zero {w : ℕ} (hw : w < 65536) : onesAdd 0 w = w := by
  unfold onesAdd
  omega

theorem endAround_small {w : ℕ} (hw : w < 65536) : endAround w = w := by
  unfold endAround
  split_ifs <;> omega

/-- Adding a word to the end-around value of a sum. -/
theorem onesAdd_endAround {n w : ℕ} (hw : w < 65536) :
    onesAdd (endAround n) w = endAround (n + w) := by
  by_cases hn : n = 0
  · rw [hn, endAround_small (by omega), Nat.zero_add, onesAdd_zero hw, endAround_small hw]
  · have hpos := endAround_pos (Nat.pos_of_ne_zero hn)
    have hle := endAround_le n
    have hmod : n = (n - 1) / 65535 * 65535 + endAround n := by
      rw [endAround, if_neg hn]
      omega
    unfold onesAdd
    rw [endAround.eq_def (n + w), if_neg (by omega)]
    omega

theorem foldl_onesAdd (l : List UInt8) :
    ∀ n, (beWords l).foldl onesAdd (endAround n) = endAround (n + wordSum l) := by
  induction l using wordSum.induct with
  | case1 =>
      intro n
      simp [beWords, wordSum]
  | case2 a =>
      intro n
      have := a.toNat_lt
      simp only [beWords, wordSum, List.foldl_cons, List.foldl_nil]
      exact onesAdd_endAround (by omega)
  | case3 a b rest ih =>
      intro n
      have := a.toNat_lt
      have := b.toNat_lt
      simp only [beWords, wordSum, List.foldl_cons]
      rw [onesAdd_endAround (by omega), ih, Nat.add_assoc]

theorem onesComplementSum_eq (l : List UInt8) : onesComplementSum l = endAround (wordSum l) := by
  have h := foldl_onesAdd l 0
  rw [endAround_small (by omega), Nat.zero_add] at h
  exact h

end LightOS.Lib
