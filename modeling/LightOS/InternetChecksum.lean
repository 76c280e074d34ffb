import LightOS.Packets

/-!
# The law of the internet checksum

The running sum of `checksum` stays within 32 bits, two rounds of its loop fold every such
sum into 16 bits, and the result is the complement of the one's-complement sum of the words.
So data with its checksum filled in has the checksum 0, also when one of the two sums is
the other representation of zero.
-/
namespace LightOS.Ipv4
open Lib

/-- The loop condition is false after two rounds, so further rounds do nothing. -/
theorem fold_settled {n : ℕ} (hn : n < 2 ^ 32) (k : ℕ) :
    fold 2 n / 65536 = 0 ∧ fold (k + 2) n = fold 2 n := by
  have hdone : fold 2 n / 65536 = 0 := by
    simp only [fold]
    split_ifs <;> omega
  refine ⟨hdone, ?_⟩
  simp only [fold] at *
  split_ifs with h1 h2
  · rw [if_pos h1, if_pos h2] at hdone
    cases k with
    | zero => rfl
    | succ k => rw [fold, if_neg (not_not.mpr hdone)]
  · rfl
  · rfl

theorem checksum_eq (data : List UInt8) (hl : data.length ≤ 65536) :
    checksum data = .ok (65535 - onesComplementSum data) := by
  rw [checksum_ok hl, onesComplementSum_eq]

/-- Filling in the checksum adds it to the sum, which makes the sum all ones. -/
theorem checksum_filled {a c : List UInt8} {v : ℕ} (ha : a.length % 2 = 0)
    (hl : (a ++ [0, 0] ++ c).length ≤ 65536) (hv : checksum (a ++ [0, 0] ++ c) = .ok v) :
    checksum (a ++ be16 v ++ c) = .ok 0 := by
  obtain ⟨sum, hsum⟩ : ∃ n, n = wordSum (a ++ [0, 0] ++ c) := ⟨_, rfl⟩
  have hle := endAround_le sum
  rw [checksum_ok hl, ← hsum] at hv
  obtain rfl := Except.ok.inj hv
  rw [checksum_ok (by rw [length_field]; exact hl), wordSum_field ha (by omega), ← hsum]
  by_cases hpos : 0 < sum
  · rw [endAround_complement hpos]
  · obtain rfl : sum = 0 := by omega
    rfl

/-- The checksum of any string that a 16-bit length can describe. -/
theorem checksum_law (data : List UInt8) (hl : data.length ≤ 65535) :
    (∃ sum, sumWords data 0 = .ok sum ∧ sum < 2 ^ 32 ∧ fold 2 sum / 65536 = 0 ∧
      ∀ k, fold (k + 2) sum = fold 2 sum) ∧
    checksum data = .ok (65535 - onesComplementSum data) ∧
    ∀ a c, data = a ++ [0, 0] ++ c → a.length % 2 = 0 →
      ∃ v, checksum data = .ok v ∧ checksum (a ++ be16 v ++ c) = .ok 0 := by
  have hlt := wordSum_lt (l := data) (by omega)
  have heq := checksum_eq data (by omega)
  refine ⟨⟨wordSum data, ?_, hlt, (fold_settled hlt 0).1, fun k => (fold_settled hlt k).2⟩, heq,
    ?_⟩
  · rw [sumWords_ok data 0 (by omega), Nat.zero_add]
  · rintro a c rfl ha
    exact ⟨_, heq, checksum_filled ha (by omega) heq⟩

/-- Five bytes, with the checksum in the middle. -/
theorem checksum_law_odd : ([0x45, 0, 0, 0, 7] : List UInt8).length ≤ 65535 ∧
    ∃ v, checksum [0x45, 0, 0, 0, 7] = .ok v ∧
      checksum ([0x45, 0] ++ be16 v ++ [7]) = .ok 0 :=
  ⟨by decide, (checksum_law [0x45, 0, 0, 0, 7] (by decide)).2.2 [0x45, 0] [7] rfl rfl⟩

end LightOS.Ipv4
