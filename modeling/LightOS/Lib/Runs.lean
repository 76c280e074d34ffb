import Mathlib.Data.Nat.Notation
import Mathlib.Logic.Relation

/-!
# Runs of an event-driven system

A system is a relation between events and the states before and after them. A
run is a sequence of its steps, each of which may have to meet a condition on
the event and the state it meets. What every such step preserves holds in every
state that a run reaches.
-/
namespace LightOS.Lib

variable {ε σ : Type}

/-- The states that steps meeting `C` lead to. -/
def Runs (next : ε → σ → σ → Prop) (C : ε → σ → Prop) : σ → σ → Prop :=
  Relation.ReflTransGen fun s t => ∃ e, C e s ∧ next e s t

namespace Runs

variable {next : ε → σ → σ → Prop} {C D : ε → σ → Prop} {s t u : σ}

theorem refl (s : σ) : Runs next C s s := Relation.ReflTransGen.refl

theorem trans (h : Runs next C s t) (h' : Runs next C t u) : Runs next C s u :=
  Relation.ReflTransGen.trans h h'

/-- A run goes on with one more step. -/
theorem snoc {e : ε} (h : Runs next C s t) (hc : C e t) (hn : next e t u) : Runs next C s u :=
  Relation.ReflTransGen.tail h ⟨e, hc, hn⟩

theorem mono (hCD : ∀ e s, C e s → D e s) (h : Runs next C s t) : Runs next D s t := by
  refine Relation.ReflTransGen.mono ?_ _ _ h
  rintro a b ⟨e, hc, hn⟩
  exact ⟨e, hCD e a hc, hn⟩

/-- The invariant rule. -/
theorem invariant {I : σ → Prop} (h : Runs next C s t) (h0 : I s)
    (hstep : ∀ e s t, C e s → next e s t → I s → I t) : I t := by
  induction h with
  | refl => exact h0
  | tail _ hlast ih =>
    obtain ⟨e, hc, hn⟩ := hlast
    exact hstep e _ _ hc hn ih

end Runs

/-- A path of a relation, state by state. -/
theorem exists_sequence {R : σ → σ → Prop} {s t : σ} (h : Relation.ReflTransGen R s t) :
    ∃ (f : ℕ → σ) (n : ℕ), (∀ i < n, R (f i) (f (i + 1))) ∧ f 0 = s ∧ f n = t := by
  induction h with
  | refl => exact ⟨fun _ => s, 0, by simp, rfl, rfl⟩
  | @tail u v _ huv ih =>
    obtain ⟨f, n, hf, h0, hn⟩ := ih
    refine ⟨fun i => if i ≤ n then f i else v, n + 1, fun i hi => ?_, ?_, if_neg (by omega)⟩
    · dsimp only
      by_cases he : i = n
      · rw [if_pos (by omega), if_neg (by omega), he, hn]
        exact huv
      · rw [if_pos (by omega), if_pos (by omega)]
        exact hf i (by omega)
    · dsimp only
      rw [if_pos (Nat.zero_le n), h0]

end LightOS.Lib
