import Mathlib.Tactic

/-!
# Ledgers of loans

A ledger records when an item is handed out, and to whom, and when it comes
back. In a balanced ledger an item is handed out only while nobody holds it and
comes back only while somebody does. Then every loan that is not still open has
been returned exactly once before the next one.
-/
namespace LightOS.Lib

/-- One line of a ledger over items `κ` and holders `η`. -/
inductive Loan (κ η : Type) where
  | alloc (item : κ) (holder : η)
  | free (item : κ)
  deriving DecidableEq, Repr

namespace Loan

variable {κ η : Type} [DecidableEq κ]

/-- The item a line is about. -/
def item : Loan κ η → κ
  | alloc k _ => k
  | free k => k

/-- Who holds `k` after a line, given who held it before. -/
def next (k : κ) (h : Option η) : Loan κ η → Option η
  | alloc k' w => if k' = k then some w else h
  | free k' => if k' = k then none else h

/-- Who holds `k` at the end of the ledger. -/
def holder (k : κ) (log : List (Loan κ η)) : Option η := log.foldl (next k) none

/-- A line that may follow the ledger. -/
def Fits (log : List (Loan κ η)) : Loan κ η → Prop
  | alloc k _ => holder k log = none
  | free k => holder k log ≠ none

/-- Every line fits what is before it. -/
def Balanced (log : List (Loan κ η)) : Prop :=
  ∀ pre e post, log = pre ++ e :: post → Fits pre e

@[simp] theorem holder_nil (k : κ) : holder k ([] : List (Loan κ η)) = none := rfl

@[simp] theorem holder_snoc (k : κ) (log : List (Loan κ η)) (e : Loan κ η) :
    holder k (log ++ [e]) = next k (holder k log) e := by simp [holder]

theorem balanced_nil : Balanced ([] : List (Loan κ η)) := by
  intro pre e post h
  simp at h

theorem Balanced.snoc {log : List (Loan κ η)} {e : Loan κ η} (h : Balanced log)
    (he : Fits log e) : Balanced (log ++ [e]) := by
  intro pre e' post hs
  obtain ⟨rfl, hs'⟩ | ⟨post', rfl⟩ :
      post = [] ∧ log ++ [e] = pre ++ [e'] ∨ ∃ post', post = post' ++ [e] := by
    rcases List.eq_nil_or_concat post with rfl | ⟨post', e'', rfl⟩
    · exact Or.inl ⟨rfl, hs⟩
    · have hlast := congrArg List.getLast? hs
      simp only [List.getLast?_append, List.concat_eq_append, List.getLast?_cons] at hlast
      refine Or.inr ⟨post', ?_⟩
      simp at hlast
      simp [hlast]
  · obtain ⟨rfl, he'⟩ := List.append_inj' hs' rfl
    simp only [List.cons.injEq, and_true] at he'
    rw [← he']
    exact he
  · have hs'' : log ++ [e] = (pre ++ e' :: post') ++ [e] := by simpa using hs
    exact h pre e' post' (List.append_cancel_right hs'')

theorem holder_allocs (k : κ) (w : η) (log : List (Loan κ η)) (ks : List κ) :
    holder k (log ++ ks.map (alloc · w)) = if k ∈ ks then some w else holder k log := by
  induction ks using List.reverseRecOn with
  | nil => simp
  | append_singleton ks k' ih =>
    simp only [List.map_append, List.map_cons, List.map_nil, ← List.append_assoc, holder_snoc, ih,
      next, List.mem_append, List.mem_singleton]
    by_cases h : k' = k
    · simp [h]
    · simp [h, Ne.symm h]

theorem holder_frees (k : κ) (log : List (Loan κ η)) (ks : List κ) :
    holder k (log ++ ks.map free) = if k ∈ ks then none else holder k log := by
  induction ks using List.reverseRecOn with
  | nil => simp
  | append_singleton ks k' ih =>
    simp only [List.map_append, List.map_cons, List.map_nil, ← List.append_assoc, holder_snoc, ih,
      next, List.mem_append, List.mem_singleton]
    by_cases h : k' = k
    · simp [h]
    · simp [h, Ne.symm h]

/-- Handing out distinct items that nobody holds. -/
theorem Balanced.allocs {log : List (Loan κ η)} (h : Balanced log) (w : η) {ks : List κ}
    (hn : ks.Nodup) (hf : ∀ k ∈ ks, holder k log = none) :
    Balanced (log ++ ks.map (alloc · w)) := by
  induction ks using List.reverseRecOn with
  | nil => simpa using h
  | append_singleton ks k ih =>
    rw [List.nodup_append] at hn
    have hk : k ∉ ks := fun hk => hn.2.2 k hk k (by simp) rfl
    have ih' := ih hn.1 fun k' hk' => hf k' (by simp [hk'])
    rw [List.map_append, ← List.append_assoc]
    refine ih'.snoc ?_
    rw [Fits, holder_allocs, if_neg hk]
    exact hf k (by simp)

/-- Lines about other items leave the holder alone. -/
theorem holder_append_of_not_mem (k : κ) (log post : List (Loan κ η))
    (h : post.filter (fun e => e.item = k) = []) : holder k (log ++ post) = holder k log := by
  induction post using List.reverseRecOn with
  | nil => simp
  | append_singleton post e ih =>
    rw [List.filter_append, List.append_eq_nil_iff] at h
    have hne : e.item ≠ k := by simpa using h.2
    rw [← List.append_assoc, holder_snoc, ih h.1]
    cases e with
    | alloc k' w => simp only [next, if_neg (show k' ≠ k from hne)]
    | free k' => simp only [next, if_neg (show k' ≠ k from hne)]

/-- The first line about `k` after a point of a balanced ledger. -/
theorem Balanced.next_line {log pre post : List (Loan κ η)} (h : Balanced log)
    (hs : log = pre ++ post) {k : κ} {e : Loan κ η} {rest : List (Loan κ η)}
    (hf : post.filter (fun e => e.item = k) = e :: rest) :
    (∃ w, e = alloc k w) ∧ holder k pre = none ∨ e = free k ∧ holder k pre ≠ none := by
  obtain ⟨mid, post', hpost, hmid, he, -⟩ := List.filter_eq_cons_iff.mp hf
  have hnil : mid.filter (fun e => e.item = k) = [] := by
    rw [List.filter_eq_nil_iff]
    exact hmid
  have hfit := h (pre ++ mid) e post' (by rw [hs, hpost, List.append_assoc])
  have hitem : e.item = k := by simpa using he
  cases e with
  | alloc k' w =>
    obtain rfl : k' = k := hitem
    rw [Fits, holder_append_of_not_mem _ _ _ hnil] at hfit
    exact Or.inl ⟨⟨w, rfl⟩, hfit⟩
  | free k' =>
    obtain rfl : k' = k := hitem
    rw [Fits, holder_append_of_not_mem _ _ _ hnil] at hfit
    exact Or.inr ⟨rfl, hfit⟩

/-- A loan is returned exactly once before the next loan of the item. -/
def ReturnedOnce (k : κ) (post : List (Loan κ η)) : Prop :=
  ∃ rest, post.filter (fun e => e.item = k) = free k :: rest ∧
    ∀ e, rest.head? = some e → ∃ w, e = alloc k w

/-- A loan made in the last part `log'` of a balanced ledger, and not still open,
has been returned exactly once. -/
theorem Balanced.returnedOnce {log log' pre post : List (Loan κ η)} {k : κ} {w : η}
    (h : Balanced (log ++ log')) (hs : log' = pre ++ alloc k w :: post)
    (hopen : holder k log' ≠ some w) : ReturnedOnce k post := by
  have hsplit : log ++ log' = (log ++ pre ++ [alloc k w]) ++ post := by simp [hs]
  cases hf : post.filter (fun e => e.item = k) with
  | nil =>
    -- no further line about `k`: the loan would still be open
    refine absurd ?_ hopen
    have hs' : log' = (pre ++ [alloc k w]) ++ post := by simp [hs]
    rw [hs', holder_append_of_not_mem _ _ _ hf]
    simp [next]
  | cons e rest =>
    rcases h.next_line hsplit hf with ⟨-, hnone⟩ | ⟨rfl, -⟩
    · rw [holder_snoc] at hnone
      simp [next] at hnone
    · refine ⟨rest, hf, fun e' he' => ?_⟩
      obtain ⟨mid, post', hpost, hmid, -, hrest⟩ := List.filter_eq_cons_iff.mp hf
      obtain ⟨rest', rfl⟩ : ∃ rest', rest = e' :: rest' := by
        cases rest with
        | nil => simp at he'
        | cons a b => exact ⟨b, by simpa using he'⟩
      have hsplit' : log ++ log' = (log ++ pre ++ [alloc k w] ++ mid ++ [free k]) ++ post' := by
        simp [hs, hpost]
      rcases h.next_line hsplit' hrest with ⟨hw, -⟩ | ⟨-, hnone⟩
      · exact hw
      · rw [holder_snoc] at hnone
        simp [next] at hnone

end Loan

end LightOS.Lib
