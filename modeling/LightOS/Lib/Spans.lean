import Mathlib.Tactic

/-!
# Coalesced lists of address ranges

A span is a half-open range of addresses. A list of spans is `Spaced` when it is
address-ordered and consecutive spans leave a gap, so that it is the coarsest
description of the addresses it covers. `insertSpan` adds a span that is apart
from all others and merges it with the neighbours it touches.
-/
namespace LightOS.Lib

structure Span where
  addr : ℕ
  size : ℕ
  deriving DecidableEq, Repr

namespace Span

def stop (s : Span) : ℕ := s.addr + s.size

/-- The address lies in the span. -/
def Has (s : Span) (x : ℕ) : Prop := s.addr ≤ x ∧ x < s.stop

/-- No common address. -/
def Apart (s t : Span) : Prop := s.stop ≤ t.addr ∨ t.stop ≤ s.addr

/-- In front of the other span, with a gap between the two. -/
def Before (s t : Span) : Prop := s.stop < t.addr

theorem Apart.symm {s t : Span} (h : Apart s t) : Apart t s := Or.symm h

/-- Nonempty spans are apart as soon as they share no address. -/
theorem apart_of_disjoint {s t : Span} (hs : 0 < s.size) (ht : 0 < t.size)
    (h : ∀ x, s.Has x → ¬ t.Has x) : Apart s t := by
  have h1 := h s.addr ⟨le_rfl, by simp only [stop]; omega⟩
  have h2 := h t.addr
  simp only [Has, Apart, stop] at *
  omega

theorem Apart.disjoint {s t : Span} (h : Apart s t) {x : ℕ} (hs : s.Has x) : ¬ t.Has x := by
  simp only [Has, Apart, stop] at *
  omega

end Span

/-- Some span of the list has the address. -/
def Covers (l : List Span) (x : ℕ) : Prop := ∃ b ∈ l, b.Has x

@[simp] theorem covers_nil (x : ℕ) : ¬ Covers [] x := by simp [Covers]

@[simp] theorem covers_cons (b : Span) (l : List Span) (x : ℕ) :
    Covers (b :: l) x ↔ b.Has x ∨ Covers l x := by simp [Covers]

@[simp] theorem covers_append (l r : List Span) (x : ℕ) :
    Covers (l ++ r) x ↔ Covers l x ∨ Covers r x := by
  simp only [Covers, List.mem_append]
  constructor
  · rintro ⟨b, hb | hb, hx⟩
    · exact .inl ⟨b, hb, hx⟩
    · exact .inr ⟨b, hb, hx⟩
  · rintro (⟨b, hb, hx⟩ | ⟨b, hb, hx⟩)
    · exact ⟨b, .inl hb, hx⟩
    · exact ⟨b, .inr hb, hx⟩

/-- Address-ordered and coalesced. -/
def Spaced (l : List Span) : Prop := l.Pairwise Span.Before

/-- Put a span in front of a list, merging it with the first span it touches. -/
def mergeFront (s : Span) : List Span → List Span
  | [] => [s]
  | c :: r => if s.stop = c.addr then ⟨s.addr, s.size + c.size⟩ :: r else s :: c :: r

/-- Insert in address order, merging backward and forward. -/
def insertSpan (s : Span) : List Span → List Span
  | [] => [s]
  | b :: l =>
    if b.addr < s.addr then
      if b.stop = s.addr then mergeFront ⟨b.addr, b.size + s.size⟩ l else b :: insertSpan s l
    else mergeFront s (b :: l)

theorem has_merge {a c : Span} (h : a.stop = c.addr) (x : ℕ) :
    Span.Has ⟨a.addr, a.size + c.size⟩ x ↔ a.Has x ∨ c.Has x := by
  simp only [Span.Has, Span.stop] at *
  omega

theorem covers_mergeFront (s : Span) (l : List Span) (x : ℕ) :
    Covers (mergeFront s l) x ↔ s.Has x ∨ Covers l x := by
  cases l with
  | nil => simp [mergeFront]
  | cons c r =>
      by_cases h : s.stop = c.addr
      · rw [mergeFront, if_pos h, covers_cons, covers_cons, has_merge h, or_assoc]
      · rw [mergeFront, if_neg h, covers_cons]

theorem covers_insertSpan (s : Span) (l : List Span) (x : ℕ) :
    Covers (insertSpan s l) x ↔ s.Has x ∨ Covers l x := by
  induction l with
  | nil => simp [insertSpan]
  | cons b l ih =>
      by_cases hlt : b.addr < s.addr
      · by_cases hm : b.stop = s.addr
        · rw [insertSpan, if_pos hlt, if_pos hm, covers_mergeFront, has_merge hm, covers_cons]
          tauto
        · rw [insertSpan, if_pos hlt, if_neg hm, covers_cons, ih, covers_cons]
          tauto
      · rw [insertSpan, if_neg hlt, covers_mergeFront]

/-- A property that survives merging holds of every span after an insertion. -/
theorem forall_insertSpan {P : Span → Prop}
    (hmerge : ∀ a c : Span, a.stop = c.addr → P a → P c → P ⟨a.addr, a.size + c.size⟩)
    {s : Span} (hs : P s) {l : List Span} (hl : ∀ b ∈ l, P b) :
    ∀ b ∈ insertSpan s l, P b := by
  have hfront {t : Span} (ht : P t) {r : List Span} (hr : ∀ b ∈ r, P b) :
      ∀ b ∈ mergeFront t r, P b := by
    cases r with
    | nil => simpa [mergeFront] using ht
    | cons c r =>
        have hc := hr c (by simp)
        have hr' : ∀ b ∈ r, P b := fun b hb => hr b (by simp [hb])
        by_cases h : t.stop = c.addr
        · rw [mergeFront, if_pos h]
          simpa using ⟨hmerge t c h ht hc, hr'⟩
        · rw [mergeFront, if_neg h]
          simpa using ⟨ht, hc, hr'⟩
  induction l with
  | nil => simpa [insertSpan] using hs
  | cons b l ih =>
      have hb := hl b (by simp)
      have hl' : ∀ c ∈ l, P c := fun c hc => hl c (by simp [hc])
      unfold insertSpan
      split_ifs with hlt hm
      · exact hfront (hmerge b s hm hb hs) hl'
      · simpa using ⟨hb, ih hl'⟩
      · exact hfront hs hl

theorem spaced_mergeFront {s : Span} {l : List Span} (hl : Spaced l)
    (hs : ∀ b ∈ l, s.stop ≤ b.addr) : Spaced (mergeFront s l) := by
  cases l with
  | nil => simp [mergeFront, Spaced]
  | cons c r =>
      obtain ⟨hc, hr⟩ := List.pairwise_cons.mp hl
      by_cases h : s.stop = c.addr
      · rw [mergeFront, if_pos h]
        refine List.pairwise_cons.mpr ⟨fun b hb => ?_, hr⟩
        have := hc b hb
        simp only [Span.Before, Span.stop] at *
        omega
      · rw [mergeFront, if_neg h]
        refine List.pairwise_cons.mpr ⟨fun b hb => ?_, hl⟩
        have hsc := hs c (by simp)
        have hcb : c.addr ≤ b.addr := by
          obtain rfl | hb := List.mem_cons.mp hb
          · exact le_rfl
          · have := hc b hb
            simp only [Span.Before, Span.stop] at this
            omega
        simp only [Span.Before] at *
        omega

/-- Insertion of a span that is apart from the others keeps the list coalesced. -/
theorem spaced_insertSpan {s : Span} (hs : 0 < s.size) {l : List Span} (hl : Spaced l)
    (hpos : ∀ b ∈ l, 0 < b.size) (hap : ∀ b ∈ l, s.Apart b) : Spaced (insertSpan s l) := by
  induction l with
  | nil => simp [insertSpan, Spaced]
  | cons b l ih =>
      obtain ⟨hb, hl'⟩ := List.pairwise_cons.mp hl
      have hbs := hap b (by simp)
      have hbpos := hpos b (by simp)
      by_cases hlt : b.addr < s.addr
      · -- the span starts behind `b`, so it starts at its end or behind a gap
        have hstop : b.stop ≤ s.addr := by
          simp only [Span.Apart, Span.stop] at *
          omega
        by_cases hm : b.stop = s.addr
        · rw [insertSpan, if_pos hlt, if_pos hm]
          refine spaced_mergeFront hl' fun c hc => ?_
          have hbc := hb c hc
          have hsc := hap c (by simp [hc])
          have hcpos := hpos c (by simp [hc])
          simp only [Span.Apart, Span.Before, Span.stop] at *
          omega
        · rw [insertSpan, if_pos hlt, if_neg hm]
          refine List.pairwise_cons.mpr ⟨?_, ih hl' (fun c hc => hpos c (by simp [hc]))
            (fun c hc => hap c (by simp [hc]))⟩
          -- every span behind `b` starts behind its end
          refine forall_insertSpan (P := fun c => b.Before c) (fun a c _ ha _ => ha) ?_ hb
          simp only [Span.Before]
          omega
      · rw [insertSpan, if_neg hlt]
        refine spaced_mergeFront hl fun c hc => ?_
        have hbc : b.addr ≤ c.addr := by
          obtain rfl | hc := List.mem_cons.mp hc
          · exact le_rfl
          · have := hb c hc
            simp only [Span.Before, Span.stop] at this
            omega
        have hsc := hap c hc
        have hcpos := hpos c hc
        simp only [Span.Apart, Span.stop] at *
        omega

/-- Spans that start in front and do not touch are passed over. -/
theorem insertSpan_append {s : Span} {l r : List Span}
    (hl : ∀ b ∈ l, b.addr < s.addr ∧ b.stop ≠ s.addr) :
    insertSpan s (l ++ r) = l ++ insertSpan s r := by
  induction l with
  | nil => rfl
  | cons b l ih =>
      obtain ⟨hlt, hne⟩ := hl b (by simp)
      rw [List.cons_append, insertSpan, if_pos hlt, if_neg hne,
        ih fun c hc => hl c (by simp [hc]), List.cons_append]

theorem insertSpan_front {s : Span} {r : List Span} (hr : ∀ b ∈ r, s.addr ≤ b.addr) :
    insertSpan s r = mergeFront s r := by
  cases r with
  | nil => rfl
  | cons c r => rw [insertSpan, if_neg (by have := hr c (by simp); omega)]

/-- What `mergeFront` puts in front. -/
theorem mergeFront_cons (s : Span) (r : List Span) :
    ∃ n r', mergeFront s r = ⟨s.addr, n⟩ :: r' ∧ s.size ≤ n ∧ r' <:+ r ∧
      ∀ t : Span, t.stop = s.stop → mergeFront t r = ⟨t.addr, t.size + (n - s.size)⟩ :: r' := by
  cases r with
  | nil =>
      refine ⟨s.size, [], rfl, le_rfl, List.suffix_refl _, fun t _ => ?_⟩
      rw [mergeFront, Nat.sub_self, Nat.add_zero]
  | cons c r =>
      by_cases h : s.stop = c.addr
      · refine ⟨s.size + c.size, r, by rw [mergeFront, if_pos h], by omega,
          List.suffix_cons c r, fun t ht => ?_⟩
        rw [mergeFront, if_pos (ht.trans h), Nat.add_sub_cancel_left]
      · refine ⟨s.size, c :: r, by rw [mergeFront, if_neg h], le_rfl, List.suffix_refl _,
          fun t ht => ?_⟩
        rw [mergeFront, if_neg (ht ▸ h), Nat.sub_self, Nat.add_zero]

/-- What the later spans cover lies behind a gap. -/
theorem Spaced.behind {b : Span} {l : List Span} (h : Spaced (b :: l)) {x : ℕ}
    (hx : Covers l x) : b.stop < x := by
  obtain ⟨c, hc, hcx⟩ := hx
  have hbc := (List.pairwise_cons.mp h).1 c hc
  simp only [Span.Before, Span.Has] at *
  omega

/-- Of two descriptions of the same addresses, neither starts with a span that sticks out
of the first span of the other. -/
theorem Spaced.head_le {b c : Span} {l r : List Span} (hl : Spaced (b :: l))
    (hr : Spaced (c :: r)) (hb : 0 < b.size) (hc : 0 < c.size)
    (h : ∀ x, Covers (b :: l) x ↔ Covers (c :: r) x) : c.addr ≤ b.addr ∧ b.stop ≤ c.stop := by
  have hle : c.addr ≤ b.addr := by
    have hx : Covers (b :: l) b.addr :=
      (covers_cons ..).mpr (.inl ⟨le_rfl, by simp only [Span.stop]; omega⟩)
    obtain hx | hx := (covers_cons ..).mp ((h _).mp hx)
    · exact hx.1
    · have := hr.behind hx
      simp only [Span.stop] at this
      omega
  refine ⟨hle, ?_⟩
  by_contra hlt
  -- the gap behind `c` would lie inside `b`
  by_cases hin : b.addr ≤ c.stop
  · have hx : Covers (b :: l) c.stop := (covers_cons ..).mpr (.inl ⟨hin, by omega⟩)
    obtain hx | hx := (covers_cons ..).mp ((h _).mp hx)
    · exact absurd hx.2 (lt_irrefl _)
    · exact absurd (hr.behind hx) (lt_irrefl _)
  · have hx : Covers (c :: r) c.addr :=
      (covers_cons ..).mpr (.inl ⟨le_rfl, by simp only [Span.stop]; omega⟩)
    obtain hx | hx := (covers_cons ..).mp ((h _).mpr hx)
    · have := hx.1
      simp only [Span.stop] at *
      omega
    · have := hl.behind hx
      simp only [Span.stop] at *
      omega

/-- A coalesced list is determined by the addresses it covers. -/
theorem Spaced.unique {l r : List Span} (hl : Spaced l) (hr : Spaced r)
    (hlpos : ∀ b ∈ l, 0 < b.size) (hrpos : ∀ b ∈ r, 0 < b.size)
    (h : ∀ x, Covers l x ↔ Covers r x) : l = r := by
  have hstart (b : Span) (t : List Span) (hb : 0 < b.size) : Covers (b :: t) b.addr :=
    (covers_cons ..).mpr (.inl ⟨le_rfl, by simp only [Span.stop]; omega⟩)
  induction l generalizing r with
  | nil =>
      cases r with
      | nil => rfl
      | cons c r => exact absurd ((h _).mpr (hstart c r (hrpos c (by simp)))) (covers_nil _)
  | cons b l ih =>
      cases r with
      | nil => exact absurd ((h _).mp (hstart b l (hlpos b (by simp)))) (covers_nil _)
      | cons c r =>
          have hb := hlpos b (by simp)
          have hc := hrpos c (by simp)
          obtain ⟨h1, h2⟩ := hl.head_le hr hb hc h
          obtain ⟨h3, h4⟩ := hr.head_le hl hc hb fun x => (h x).symm
          have hbc : b = c := by
            cases b
            cases c
            simp only [Span.stop, Span.mk.injEq] at *
            omega
          subst hbc
          have htail (x : ℕ) : Covers l x ↔ Covers r x := by
            have hx := h x
            rw [covers_cons, covers_cons] at hx
            constructor
            · intro hlx
              exact (hx.mp (.inr hlx)).resolve_left fun hbx =>
                absurd hbx.2 (hl.behind hlx).not_gt
            · intro hrx
              exact (hx.mpr (.inr hrx)).resolve_left fun hbx =>
                absurd hbx.2 (hr.behind hrx).not_gt
          rw [ih (List.pairwise_cons.mp hl).2 (List.pairwise_cons.mp hr).2
            (fun d hd => hlpos d (by simp [hd])) (fun d hd => hrpos d (by simp [hd])) htail]

/-! ### Cutting a piece out of the first span -/

/-- The list `b :: r` without the `size` addresses from `b.addr + pad` on. -/
def cutFront (b : Span) (pad size : ℕ) (r : List Span) : List Span :=
  (if pad > 0 then [⟨b.addr, pad⟩] else []) ++
    (if b.size - pad - size > 0 then [⟨b.addr + pad + size, b.size - pad - size⟩] else []) ++ r

theorem mem_cutFront {b c : Span} {pad size : ℕ} {r : List Span} :
    c ∈ cutFront b pad size r ↔ pad > 0 ∧ c = ⟨b.addr, pad⟩ ∨
      b.size - pad - size > 0 ∧ c = ⟨b.addr + pad + size, b.size - pad - size⟩ ∨ c ∈ r := by
  unfold cutFront
  split_ifs <;> simp [*]

theorem pos_cutFront {b : Span} {pad size : ℕ} {r : List Span} (hr : ∀ c ∈ r, 0 < c.size) :
    ∀ c ∈ cutFront b pad size r, 0 < c.size := by
  intro c hc
  obtain ⟨h, rfl⟩ | ⟨h, rfl⟩ | hc := mem_cutFront.mp hc
  · exact h
  · exact h
  · exact hr c hc

theorem spaced_cutFront {b : Span} {pad size : ℕ} {r : List Span} (h : Spaced (b :: r))
    (hsize : 0 < size) (hfit : pad + size ≤ b.size) : Spaced (cutFront b pad size r) := by
  obtain ⟨hgap, hr⟩ := List.pairwise_cons.mp h
  have htail : Spaced ((if b.size - pad - size > 0 then
      [⟨b.addr + pad + size, b.size - pad - size⟩] else []) ++ r) := by
    split_ifs
    · refine List.pairwise_cons.mpr ⟨fun c hc => ?_, hr⟩
      have := hgap c hc
      simp only [Span.Before, Span.stop] at *
      omega
    · exact hr
  by_cases hpad : pad > 0
  · rw [cutFront, if_pos hpad, List.append_assoc]
    refine List.pairwise_cons.mpr ⟨fun c hc => ?_, htail⟩
    have hc' : c ∈ cutFront b 0 (pad + size) r := by
      rw [cutFront, if_neg (by omega), List.nil_append, Nat.sub_zero, Nat.add_zero, ← Nat.sub_sub,
        ← Nat.add_assoc]
      exact hc
    simp only [Span.Before, Span.stop]
    obtain ⟨h0, -⟩ | ⟨-, rfl⟩ | hc := mem_cutFront.mp hc'
    · omega
    · simp only
      omega
    · have := hgap c hc
      simp only [Span.Before, Span.stop] at this
      omega
  · rw [cutFront, if_neg hpad, List.append_assoc]
    exact htail

theorem covers_part (a n x : ℕ) :
    Covers (if n > 0 then [⟨a, n⟩] else []) x ↔ Span.Has ⟨a, n⟩ x := by
  split_ifs with h
  · simp
  · simp only [covers_nil, Span.Has, Span.stop, false_iff]
    omega

theorem covers_cutFront {b : Span} {pad size : ℕ} {r : List Span} (h : Spaced (b :: r))
    (hfit : pad + size ≤ b.size) (x : ℕ) : Covers (cutFront b pad size r) x ↔
      Covers (b :: r) x ∧ ¬ Span.Has ⟨b.addr + pad, size⟩ x := by
  rw [cutFront, covers_append, covers_append, covers_part, covers_part, covers_cons]
  by_cases hx : Covers r x
  · have := h.behind hx
    simp only [Span.Has, Span.stop, hx, or_true, true_and, true_iff] at *
    omega
  · simp only [Span.Has, Span.stop, hx, or_false] at *
    omega

end LightOS.Lib
