import LightOS.Copies

/-!
# What the hardware translates

The hardware follows the same tables as `walk` does, but it looks at more of an address:
bits 63 to 39 must equal bit 38. `walk` takes bits 38 to 12 and ignores the others, so two
addresses that are 2^39 bytes apart are one page for the kernel. Of the addresses of one
page the hardware accepts at most one, and there it finds what `walk` finds.
-/
namespace LightOS

/-- The leaf entry that the hardware finds for `va`. Only 4 KiB leaves occur. -/
def hardwareWalk (m : Machine) (root va : ℕ) : Option ℕ :=
  let e2 := m.pte root (vpn va 2)
  let e1 := m.pte (pteAddr e2) (vpn va 1)
  let e0 := m.pte (pteAddr e1) (vpn va 0)
  let canonical := va < 2 ^ 38 ∨ usizeBound - 2 ^ 38 ≤ va ∧ va < usizeBound
  if canonical ∧ pteValid e2 ∧ !pteLeaf e2 ∧ pteValid e1 ∧ !pteLeaf e1 ∧ pteValid e0 then some e0
  else none

/-- The frame and the permissions that the hardware finds for `va`. -/
def hardware (m : Machine) (root va : ℕ) : Option (ℕ × ℕ) :=
  (hardwareWalk m root va).map fun e => (pteAddr e, pteFlags e)

/-- Bits 63 to 39 of the address equal bit 38. -/
def Canonical (va : ℕ) : Prop := va < 2 ^ 38 ∨ usizeBound - 2 ^ 38 ≤ va ∧ va < usizeBound

instance (va : ℕ) : Decidable (Canonical va) := inferInstanceAs (Decidable (_ ∨ _))

section Addresses

variable {a b va n : ℕ}

/-- Addresses of one page lead to the same entry. -/
theorem samePage_of_page (h : a / pageSize = b / pageSize) : SamePage a b := by
  refine ⟨?_, ?_, ?_⟩
  all_goals
    simp only [vpn_eq, pageSize, Nat.reduceMul, Nat.reduceAdd, Nat.reducePow] at *
    omega

/-- Among canonical addresses only those of one page do. -/
theorem Canonical.page_eq (ha : Canonical a) (hb : Canonical b) (h : SamePage a b) :
    a / pageSize = b / pageSize := by
  obtain ⟨h2, h1, h0⟩ := h
  simp only [Canonical, usizeBound] at ha hb
  simp only [vpn_eq, pageSize, Nat.mul_zero, Nat.add_zero, Nat.mul_one, Nat.reduceMul,
    Nat.reduceAdd, Nat.reducePow] at *
  omega

/-- Every page of a range is canonical if the range avoids the gap. -/
theorem canonical_range (hal : va % pageSize = 0) (hn : 0 < n)
    (hfit : va + n * pageSize ≤ usizeBound) :
    (∀ i < n, Canonical (va + i * pageSize)) ↔
      va + n * pageSize ≤ 2 ^ 38 ∨ usizeBound - 2 ^ 38 ≤ va := by
  simp only [Canonical, usizeBound, pageSize] at *
  constructor
  · intro h
    by_contra hc
    have hstart := h 0 hn
    have hlast := h (n - 1) (by omega)
    -- the first page of the gap is a page of the range if the range starts below it
    by_cases hgap : (2 ^ 38 - va) / 4096 < n
    · have := h _ hgap
      omega
    · omega
  · intro h i hi
    omega

end Addresses

section Walk

variable {role : ℕ → Role} {m : Machine} {r va : ℕ}

/-- The tables that the hardware follows are in use. -/
theorem hardwareWalk_tables (hg : Good role m) (hr : role r = .root)
    (hv2 : pteValid (m.pte r (vpn va 2)) = true) :
    (role (pteAddr (m.pte r (vpn va 2)))).level = some 1 ∧
      (pteValid (m.pte (pteAddr (m.pte r (vpn va 2))) (vpn va 1)) = true →
        (role (pteAddr (m.pte (pteAddr (m.pte r (vpn va 2))) (vpn va 1)))).level = some 0) := by
  obtain ⟨r', h1⟩ : ∃ r', role (pteAddr (m.pte r (vpn va 2))) = .table 1 r' (vpn va 2) := by
    by_cases hs : Shared role m r (vpn va 2)
    · exact ⟨_, (hs.table hg (vpn_lt va 2)).2.2⟩
    · exact ⟨_, ((hg.tables.down r 2 _ (by simp [hr, Role.level]) (vpn_lt va 2) hv2 hs).1
        (by omega)).2⟩
  generalize pteAddr (m.pte r (vpn va 2)) = l1 at *
  have hl1 : (role l1).level = some 1 := by rw [h1]; rfl
  refine ⟨hl1, fun hv1 => ?_⟩
  have hn1 : ¬ Shared role m l1 (vpn va 1) := fun hs => absurd (hs.1.symm.trans h1) (by simp)
  rw [((hg.tables.down l1 1 _ hl1 (vpn_lt va 1) hv1 hn1).1 (by omega)).2]
  rfl

/-- An entry of a table that leads to another one is no leaf. -/
theorem Good.inner_entry (hg : Good role m) {t l i : ℕ} (hl : (role t).level = some (l + 1))
    (hi : i < 512) (hv : pteValid (m.pte t i) = true) : pteLeaf (m.pte t i) = false := by
  by_cases hs : Shared role m t i
  · exact (hs.table hg hi).2.1
  · exact ((hg.tables.down t (l + 1) i hl hi hv hs).1 (Nat.succ_pos l)).1

theorem hardware_gap (h : ¬ Canonical va) : hardware m r va = none := by
  unfold hardware hardwareWalk
  rw [if_neg fun hc => h hc.1]
  rfl

/-- The hardware finds what `walk` finds, at the addresses that it accepts. -/
theorem Good.hardware_eq (hg : Good role m) (hr : role r = .root) (hc : Canonical va) :
    hardware m r va = translation m r va := by
  unfold hardware hardwareWalk
  dsimp only
  cases ht : tableAt m r [vpn va 1, vpn va 2] with
  | none =>
    rw [translation_missing ht, if_neg]
    · rfl
    · rintro ⟨-, hv2, -, hv1, -⟩
      have := tableAt_two.mpr ⟨hv2, hv1, rfl⟩
      rw [ht] at this
      cases this
  | some l0 =>
    obtain ⟨hv2, hv1, rfl⟩ := tableAt_two.mp ht
    have hl2 := hg.inner_entry (l := 1) (by rw [hr]; rfl) (vpn_lt va 2) hv2
    have hl1 := hg.inner_entry (l := 0) (hardwareWalk_tables hg hr hv2).1 (vpn_lt va 1) hv1
    rw [translation, leafEntry_table ht]
    by_cases hv0 : pteValid (m.pte (pteAddr (m.pte (pteAddr (m.pte r (vpn va 2))) (vpn va 1)))
      (vpn va 0)) = true
    · rw [if_pos hv0, if_pos ⟨hc, hv2, by rw [hl2]; rfl, hv1, by rw [hl1]; rfl, hv0⟩]
      rfl
    · rw [if_neg hv0, if_neg fun h => hv0 h.2.2.2.2.2]
      rfl

end Walk

end LightOS
