import Mathlib.Tactic

/-!
# Bit maps packed in words

A row of `n` words of `w` bits read as one map of `w * n` bits, with the three
operations that programs use on it: test one bit by a mask, set it, clear it.
The lemmas say what each does to every bit of the map, so that no proof about
such a program has to look at a word again.
-/
namespace LightOS.Lib.Words

variable {w n : ℕ}

/-- Bit `i` of the map. The bits past the last word count as set. -/
def bit (ws : Vector (BitVec w) n) (i : ℕ) : Bool :=
  match ws[i / w]? with
  | some x => x.getLsbD (i % w)
  | none => true

theorem div_lt (hw : 0 < w) {i : ℕ} (hi : i < w * n) : i / w < n :=
  (Nat.div_lt_iff_lt_mul hw).mpr (by rwa [Nat.mul_comm])

/-- The word that holds a bit of the map. -/
theorem exists_word (hw : 0 < w) (ws : Vector (BitVec w) n) {i : ℕ} (hi : i < w * n) :
    ∃ x, ws[i / w]? = some x ∧ bit ws i = x.getLsbD (i % w) := by
  have hlt := div_lt hw hi
  have hx : ws[i / w]? = some (ws.get ⟨i / w, hlt⟩) := by
    rw [Vector.getElem?_eq_getElem hlt]
    rfl
  exact ⟨_, hx, by rw [bit, hx]⟩

theorem no_word (hw : 0 < w) (ws : Vector (BitVec w) n) {i : ℕ} (hi : w * n ≤ i) :
    ws[i / w]? = none := by
  refine Vector.getElem?_eq_none ?_
  exact (Nat.le_div_iff_mul_le hw).mpr (by rwa [Nat.mul_comm])

/-- Two places with the same word and the same place in it are the same bit. -/
theorem eq_of_place {i j : ℕ} (hd : j / w = i / w) (hm : j % w = i % w) : j = i := by
  rw [← Nat.div_add_mod j w, ← Nat.div_add_mod i w, hd, hm]

/-- Masking a word with one bit tests that bit. -/
theorem and_mask_ne_zero (x : BitVec w) {k : ℕ} (hk : k < w) :
    (x &&& 1#w <<< k != 0#w) = x.getLsbD k := by
  have hone : 1#w <<< k = BitVec.twoPow w k := (BitVec.twoPow_eq w k).symm
  rw [hone, BitVec.and_twoPow]
  have hne : BitVec.twoPow w k ≠ 0#w := by
    intro he
    have := congrArg (fun y => y.getLsbD k) he
    simp [hk] at this
  cases hb : x.getLsbD k with
  | true => simp [hne]
  | false => simp

/-- Replacing the word of one bit changes only bits of that word. -/
theorem bit_set (hw : 0 < w) {ws : Vector (BitVec w) n} {i : ℕ} (hi : i < w * n) (y : BitVec w)
    (j : ℕ) : bit (ws.set! (i / w) y) j = if j / w = i / w then y.getLsbD (j % w) else bit ws j := by
  have hlt := div_lt hw hi
  simp only [bit, Vector.set!_eq_setIfInBounds, Vector.getElem?_setIfInBounds]
  by_cases hd : i / w = j / w
  · rw [if_pos hd, if_pos hd.symm, if_pos (hd ▸ hlt)]
  · rw [if_neg hd, if_neg (fun h => hd h.symm)]

/-- Setting one bit by its mask. -/
theorem bit_or_mask (hw : 0 < w) {ws : Vector (BitVec w) n} {i : ℕ} {x : BitVec w}
    (hi : i < w * n) (hx : ws[i / w]? = some x) (j : ℕ) :
    bit (ws.set! (i / w) (x ||| 1#w <<< (i % w))) j = if j = i then true else bit ws j := by
  have hk := Nat.mod_lt i hw
  rw [bit_set hw hi]
  by_cases hd : j / w = i / w
  · have hj : bit ws j = x.getLsbD (j % w) := by rw [bit, hd, hx]
    rw [if_pos hd, hj, BitVec.getLsbD_or, ← BitVec.twoPow_eq, BitVec.getLsbD_twoPow]
    by_cases hm : j = i
    · simp [hm, hk]
    · have hmod : i % w ≠ j % w := fun h => hm (eq_of_place hd h.symm)
      simp [hm, hmod]
  · have hm : j ≠ i := fun h => hd (by rw [h])
    rw [if_neg hd, if_neg hm]

/-- Clearing one bit by the complement of its mask. -/
theorem bit_and_not_mask (hw : 0 < w) {ws : Vector (BitVec w) n} {i : ℕ} {x : BitVec w}
    (hi : i < w * n) (hx : ws[i / w]? = some x) (j : ℕ) :
    bit (ws.set! (i / w) (x &&& ~~~ (1#w <<< (i % w)))) j = if j = i then false else bit ws j := by
  have hk := Nat.mod_lt i hw
  have hkj := Nat.mod_lt j hw
  rw [bit_set hw hi]
  by_cases hd : j / w = i / w
  · have hj : bit ws j = x.getLsbD (j % w) := by rw [bit, hd, hx]
    rw [if_pos hd, hj, BitVec.getLsbD_and, BitVec.getLsbD_not, ← BitVec.twoPow_eq,
      BitVec.getLsbD_twoPow]
    by_cases hm : j = i
    · simp [hm, hk]
    · have hmod : i % w ≠ j % w := fun h => hm (eq_of_place hd h.symm)
      simp [hm, hmod, hkj]
  · have hm : j ≠ i := fun h => hd (by rw [h])
    rw [if_neg hd, if_neg hm]

/-- A row of words is determined by its bits. -/
theorem ext_bits (hw : 0 < w) {ws vs : Vector (BitVec w) n}
    (h : ∀ i, i < w * n → bit ws i = bit vs i) : ws = vs := by
  ext1 i hi
  refine BitVec.eq_of_getLsbD_eq fun k hk => ?_
  have hplace : (i * w + k) / w = i ∧ (i * w + k) % w = k := by
    rw [Nat.mul_comm i w]
    exact ⟨by rw [Nat.mul_add_div hw, Nat.div_eq_of_lt hk, Nat.add_zero],
      by rw [Nat.mul_add_mod, Nat.mod_eq_of_lt hk]⟩
  have hlt : i * w + k < w * n := by
    calc i * w + k < i * w + w := by omega
      _ = (i + 1) * w := by ring
      _ ≤ n * w := Nat.mul_le_mul_right w hi
      _ = w * n := Nat.mul_comm n w
  have := h _ hlt
  simpa only [bit, hplace.1, hplace.2, Vector.getElem?_eq_getElem hi] using this

end LightOS.Lib.Words
