import Mathlib.Tactic
import Mathlib.Data.Fin.Basic

/-!
# Windows of a ring

A ring of `n` cells is addressed by a counter that runs past the end and wraps. The
cells from some position on that hold a list, in its order, are a window of the ring.
-/
namespace LightOS.Lib

variable {α : Type} {n : ℕ} [NeZero n]

/-- From position `start` on the ring holds the list. -/
def Window (ring : Fin n → α) (start : ℕ) (l : List α) : Prop :=
  ∀ i (h : i < l.length), ring (Fin.ofNat n (start + i)) = l[i]

/-- The cells of the ring from a position on. -/
def ringRead (ring : Fin n → α) (start len : ℕ) : List α :=
  (List.range len).map fun i => ring (Fin.ofNat n (start + i))

namespace Window

variable {ring : Fin n → α} {start : ℕ} {l : List α} {x : α}

theorem nil (ring : Fin n → α) (start : ℕ) : Window ring start [] := nofun

theorem head (h : Window ring start (x :: l)) : ring (Fin.ofNat n start) = x :=
  h 0 (by simp)

theorem tail (h : Window ring start (x :: l)) : Window ring (start + 1) l := by
  intro i hi
  have := h (i + 1) (by simpa using hi)
  rw [show start + 1 + i = start + (i + 1) by omega, this, List.getElem_cons_succ]

/-- Only the position within the ring counts. -/
theorem congr {start' : ℕ} (h : Window ring start l) (hmod : start' % n = start % n) :
    Window ring start' l := by
  intro i hi
  rw [← h i hi]
  congr 1
  apply Fin.ext
  rw [Fin.val_ofNat, Fin.val_ofNat, Nat.add_mod, hmod, ← Nat.add_mod]

theorem slot_ne {a b : ℕ} (hab : a < b) (hn : b < a + n) : Fin.ofNat n a ≠ Fin.ofNat n b := by
  intro h
  have hmod : a % n = b % n := by simpa [Fin.ext_iff] using h
  have hdvd : n ∣ b - a := (Nat.modEq_iff_dvd' hab.le).mp hmod
  have := Nat.le_of_dvd (by omega) hdvd
  omega

/-- A cell outside of the window may be overwritten. -/
theorem update_end (h : Window ring start l) (hl : l.length < n) :
    Window (Function.update ring (Fin.ofNat n (start + l.length)) x) start l := by
  intro i hi
  rw [Function.update_of_ne (slot_ne (by omega) (by omega)), h i hi]

/-- A window grows by the cell behind it. -/
theorem snoc (h : Window ring start l) (hx : ring (Fin.ofNat n (start + l.length)) = x) :
    Window ring start (l ++ [x]) := by
  intro i hi
  by_cases hlt : i < l.length
  · rw [h i hlt, List.getElem_append_left hlt]
  · obtain rfl : i = l.length := by
      simp at hi
      omega
    rw [hx, List.getElem_concat_length rfl]

theorem push (h : Window ring start l) (hl : l.length < n) :
    Window (Function.update ring (Fin.ofNat n (start + l.length)) x) start (l ++ [x]) :=
  (h.update_end hl).snoc (Function.update_self ..)

theorem read_eq (h : Window ring start l) : ringRead ring start l.length = l := by
  refine List.ext_getElem (by simp [ringRead]) fun i h1 h2 => ?_
  simp only [ringRead, List.getElem_map, List.getElem_range]
  exact h i h2

end Window

end LightOS.Lib
