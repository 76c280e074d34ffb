import LightOS.Frames
import LightOS.Lib.Runs

/-!
# Three levels of tables are one finite map

A root table and the tables under it, whatever they map and with whatever flags.
The tables of a root form a tree: no table is reached along two paths, so writing
one entry changes the meaning of one path. On top of it `map` and `unmap` are the
update and the removal of one page of a finite map.
-/
namespace LightOS
open Lib PageAllocator

/-- The table that entry `i` of a table leads to. -/
def child (m : Machine) (t i : ℕ) : Option ℕ :=
  if pteValid (m.pte t i) then some (pteAddr (m.pte t i)) else none

/-- The table at the end of a path of entry numbers, the last one first. -/
def tableAt (m : Machine) (root : ℕ) : List ℕ → Option ℕ
  | [] => some root
  | i :: p => (tableAt m root p).bind (child m · i)

/-- Paths of entry numbers to the three levels of tables. -/
def TablePath (p : List ℕ) : Prop := p.length ≤ 2 ∧ ∀ i ∈ p, i < 512

theorem TablePath.tail {i : ℕ} {p : List ℕ} (h : TablePath (i :: p)) : TablePath p :=
  ⟨by have := h.1; simp only [List.length_cons] at this; omega, fun j hj => h.2 j (by simp [hj])⟩

theorem TablePath.cons {i : ℕ} {p : List ℕ} (h : TablePath p) (hl : p.length < 2) (hi : i < 512) :
    TablePath (i :: p) :=
  ⟨by simp only [List.length_cons]; omega, by simpa using ⟨hi, h.2⟩⟩

/-- The permissions that callers pass to `map`: any of R, W, X and U. -/
def FlagsOk (flags : ℕ) : Prop := pteFlags flags = flags

/-- A page-aligned physical address. -/
def PaOk (pa : ℕ) : Prop := pa % pageSize = 0 ∧ pa < usizeBound

/-- The tables under a root form a tree of frames in use; inner entries lead to
tables and entries of the last level are leaves. -/
structure Sv39 (m : Machine) (root : ℕ) : Prop where
  consistent : m.pages.Consistent
  held : ∀ {p t}, TablePath p → tableAt m root p = some t → m.Held t
  inj : ∀ {p q t}, TablePath p → TablePath q → tableAt m root p = some t →
    tableAt m root q = some t → p = q
  inner : ∀ {p t i}, TablePath p → p.length < 2 → tableAt m root p = some t → i < 512 →
    pteValid (m.pte t i) → pteLeaf (m.pte t i) = false
  leaf : ∀ {p t i}, TablePath p → p.length = 2 → tableAt m root p = some t → i < 512 →
    pteValid (m.pte t i) → ∃ pa flags, PaOk pa ∧ FlagsOk flags ∧ m.pte t i = leafPte pa flags

/-- The entry of the last level for an address; 0 where the table is missing. -/
def leafEntry (m : Machine) (root va : ℕ) : ℕ :=
  (tableAt m root [vpn va 1, vpn va 2]).elim 0 (m.pte · (vpn va 0))

/-- The finite map that the tables stand for: page address and permissions. -/
def translation (m : Machine) (root va : ℕ) : Option (ℕ × ℕ) :=
  if pteValid (leafEntry m root va) then
    some (pteAddr (leafEntry m root va), pteFlags (leafEntry m root va))
  else none

theorem vpn_path (va : ℕ) : TablePath [vpn va 1, vpn va 2] :=
  ⟨le_rfl, by simpa using ⟨vpn_lt va 1, vpn_lt va 2⟩⟩

/-! Flags and addresses survive the encoding. -/

theorem flagsOk_lt {flags : ℕ} (h : FlagsOk flags) : flags < 2 ^ 10 := by
  rw [← h, pteFlags]
  exact lt_of_le_of_lt Nat.and_le_right (by decide)

theorem leafPte_lt_word {pa flags : ℕ} (hp : pa < usizeBound) (hf : flags < 2 ^ 10) :
    leafPte pa flags < usizeBound := by
  have hs : (pa >>> 12) <<< 10 < 2 ^ 64 := by
    rw [Nat.shiftRight_eq_div_pow, Nat.shiftLeft_eq]
    simp only [usizeBound] at hp
    omega
  exact Nat.or_lt_two_pow (Nat.or_lt_two_pow (Nat.or_lt_two_pow
    (Nat.or_lt_two_pow hs (by omega)) (by norm_num)) (by norm_num)) (by norm_num)

theorem pteFlags_leafPte {pa flags : ℕ} (hf : FlagsOk flags) :
    pteFlags (leafPte pa flags) = flags := by
  have hmask : (pa >>> 12) <<< 10 &&& (pteR ||| pteW ||| pteX ||| pteU) = 0 := by
    refine Nat.eq_of_testBit_eq fun i => ?_
    by_cases hi : i < 10
    · simp [Nat.testBit_and, Nat.testBit_shiftLeft, Nat.not_le.mpr hi]
    · have : (pteR ||| pteW ||| pteX ||| pteU).testBit i = false :=
        Nat.testBit_lt_two_pow (lt_of_lt_of_le (by decide : _ < 2 ^ 10)
          (Nat.pow_le_pow_right (by norm_num) (by omega)))
      simp [Nat.testBit_and, this]
  have hrest : (pteA ||| pteD ||| pteV) &&& (pteR ||| pteW ||| pteX ||| pteU) = 0 := by decide
  have hor : leafPte pa flags = ((pa >>> 12) <<< 10) ||| (flags ||| (pteA ||| pteD ||| pteV)) := by
    simp only [leafPte, Nat.or_assoc]
  unfold FlagsOk pteFlags at *
  rw [hor, Nat.and_or_distrib_right, hmask, Nat.zero_or, Nat.and_or_distrib_right, hrest,
    Nat.or_zero, hf]

/-- Two addresses below 2^39 with the same three indices are in one page. -/
theorem vpn_inj {va va' : ℕ} (h : va < 2 ^ 39) (h' : va' < 2 ^ 39) (h0 : vpn va 0 = vpn va' 0)
    (h1 : vpn va 1 = vpn va' 1) (h2 : vpn va 2 = vpn va' 2) : va / pageSize = va' / pageSize := by
  simp only [vpn_eq, Nat.mul_zero, Nat.add_zero, Nat.mul_one, Nat.reduceMul, Nat.reduceAdd,
    Nat.reducePow, pageSize] at *
  omega

/-! ## Changes that leave the tree alone -/

section
variable {m m' : Machine} {root : ℕ}

/-- Paths lead to the same tables as long as the entries of inner tables stay. -/
theorem tableAt_congr (hpte : ∀ p t i, TablePath p → p.length < 2 → tableAt m root p = some t →
      i < 512 → m'.pte t i = m.pte t i) {p : List ℕ} (hp : TablePath p) :
    tableAt m' root p = tableAt m root p := by
  induction p with
  | nil => rfl
  | cons i p ih =>
      have hl : p.length < 2 := by
        have := hp.1
        simp only [List.length_cons] at this
        omega
      simp only [tableAt]
      rw [ih hp.tail]
      obtain ht | ⟨t, ht⟩ := Option.eq_none_or_eq_some (tableAt m root p)
      · rw [ht, Option.bind_none, Option.bind_none]
      · have hi := hpte p t i hp.tail hl ht (hp.2 i (by simp))
        rw [ht, Option.bind_some, Option.bind_some, child, child, hi]

theorem translation_eq {va : ℕ} (h : leafEntry m' root va = leafEntry m root va) :
    translation m' root va = translation m root va := by rw [translation, translation, h]

/-- The tables keep their entries and stay in use: nothing changes. -/
theorem Sv39.congr (h : Sv39 m root) (hc : m'.pages.Consistent)
    (hheld : ∀ p t, TablePath p → tableAt m root p = some t → m'.Held t)
    (hpte : ∀ p t i, TablePath p → tableAt m root p = some t → i < 512 →
      m'.pte t i = m.pte t i) :
    Sv39 m' root ∧ (∀ p, TablePath p → tableAt m' root p = tableAt m root p) ∧
      ∀ va, translation m' root va = translation m root va := by
  have htab {p : List ℕ} (hp : TablePath p) : tableAt m' root p = tableAt m root p :=
    tableAt_congr (fun p t i hp _ => hpte p t i hp) hp
  refine ⟨⟨hc, ?_, ?_, ?_, ?_⟩, fun p => htab, fun va => translation_eq ?_⟩
  · intro p t hp ht
    rw [htab hp] at ht
    exact hheld p t hp ht
  · intro p q t hp hq ht ht'
    rw [htab hp] at ht
    rw [htab hq] at ht'
    exact h.inj hp hq ht ht'
  · intro p t i hp hl ht hi hv
    rw [htab hp] at ht
    rw [hpte p t i hp ht hi] at hv ⊢
    exact h.inner hp hl ht hi hv
  · intro p t i hp hl ht hi hv
    rw [htab hp] at ht
    rw [hpte p t i hp ht hi] at hv ⊢
    exact h.leaf hp hl ht hi hv
  · rw [leafEntry, leafEntry, htab (vpn_path va)]
    obtain ht | ⟨t, ht⟩ := Option.eq_none_or_eq_some (tableAt m root [vpn va 1, vpn va 2])
    · rw [ht, Option.elim_none, Option.elim_none]
    · rw [ht, Option.elim_some, Option.elim_some, hpte _ t _ (vpn_path va) ht (vpn_lt va 0)]

/-! ## Writing an entry of the last level -/

/-- What an entry of the last level may hold. -/
def LeafEntry (v : ℕ) : Prop :=
  v < usizeBound ∧ (pteValid v → ∃ pa flags, PaOk pa ∧ FlagsOk flags ∧ v = leafPte pa flags)

theorem LeafEntry.zero : LeafEntry 0 := ⟨by decide, by simp⟩

theorem LeafEntry.leafPte {pa flags : ℕ} (hp : PaOk pa) (hf : FlagsOk flags) :
    LeafEntry (leafPte pa flags) :=
  ⟨leafPte_lt_word hp.2 (flagsOk_lt hf), fun _ => ⟨pa, flags, hp, hf, rfl⟩⟩

/-- One entry of one table changes, as seen from the tables of the tree. -/
theorem Sv39.pte_setPte (h : Sv39 m root) {p q : List ℕ} {t t' i j v : ℕ} (hp : TablePath p)
    (ht : tableAt m root p = some t) (hi : i < 512) (hq : TablePath q)
    (ht' : tableAt m root q = some t') (hj : j < 512) (hne : q ≠ p ∨ j ≠ i) :
    (m.setPte t i v).pte t' j = m.pte t' j := by
  refine m.pte_setPte_ne v (h.held hp ht).aligned (h.held hq ht').aligned hi hj ?_
  obtain hqp | hji := hne
  · refine .inl fun htt => hqp ?_
    subst htt
    exact h.inj hq hp ht' ht
  · exact .inr hji

/-- Writing an entry of the last level changes the translation of one page. -/
theorem Sv39.setLeaf (h : Sv39 m root) {va t v : ℕ}
    (ht : tableAt m root [vpn va 1, vpn va 2] = some t) (hv : LeafEntry v) :
    Sv39 (m.setPte t (vpn va 0) v) root ∧
      leafEntry (m.setPte t (vpn va 0) v) root va = v ∧
      ∀ va', (vpn va' 0 ≠ vpn va 0 ∨ vpn va' 1 ≠ vpn va 1 ∨ vpn va' 2 ≠ vpn va 2) →
        translation (m.setPte t (vpn va 0) v) root va' = translation m root va' := by
  have hpath := vpn_path va
  have hpte {q : List ℕ} {t' j : ℕ} (hq : TablePath q) (ht' : tableAt m root q = some t')
      (hj : j < 512) (hne : q ≠ [vpn va 1, vpn va 2] ∨ j ≠ vpn va 0) :
      (m.setPte t (vpn va 0) v).pte t' j = m.pte t' j :=
    h.pte_setPte hpath ht (vpn_lt va 0) hq ht' hj hne
  -- inner tables are not written, so every path leads where it did
  have htab {q : List ℕ} (hq : TablePath q) :
      tableAt (m.setPte t (vpn va 0) v) root q = tableAt m root q := by
    refine tableAt_congr (fun q t' j hq hl ht' hj => hpte hq ht' hj (.inl ?_)) hq
    rintro rfl
    simp at hl
  have hself : (m.setPte t (vpn va 0) v).pte t (vpn va 0) = v := m.pte_setPte_self _ _ hv.1
  refine ⟨⟨h.consistent, ?_, ?_, ?_, ?_⟩, ?_, fun va' hne => translation_eq ?_⟩
  · intro q t' hq ht'
    rw [htab hq] at ht'
    exact h.held hq ht'
  · intro q q' t' hq hq' h1 h2
    rw [htab hq] at h1
    rw [htab hq'] at h2
    exact h.inj hq hq' h1 h2
  · intro q t' j hq hl ht' hj hvalid
    rw [htab hq] at ht'
    have hne : q ≠ [vpn va 1, vpn va 2] := by
      rintro rfl
      simp at hl
    rw [hpte hq ht' hj (.inl hne)] at hvalid ⊢
    exact h.inner hq hl ht' hj hvalid
  · intro q t' j hq hl ht' hj hvalid
    rw [htab hq] at ht'
    by_cases hne : q ≠ [vpn va 1, vpn va 2] ∨ j ≠ vpn va 0
    · rw [hpte hq ht' hj hne] at hvalid ⊢
      exact h.leaf hq hl ht' hj hvalid
    · obtain ⟨rfl, rfl⟩ := not_or.mp hne |>.imp not_not.mp not_not.mp
      rw [ht, Option.some.injEq] at ht'
      subst ht'
      rw [hself] at hvalid ⊢
      exact hv.2 hvalid
  · rw [leafEntry, htab hpath, ht, Option.elim_some, hself]
  · rw [leafEntry, leafEntry, htab (vpn_path va')]
    obtain ht' | ⟨t', ht'⟩ := Option.eq_none_or_eq_some (tableAt m root [vpn va' 1, vpn va' 2])
    · rw [ht', Option.elim_none, Option.elim_none]
    · have hdiff : [vpn va' 1, vpn va' 2] ≠ [vpn va 1, vpn va 2] ∨ vpn va' 0 ≠ vpn va 0 := by
        obtain h0 | h1 | h2 := hne
        · exact .inr h0
        · exact .inl (by simp [h1])
        · exact .inl (by simp [h2])
      rw [ht', Option.elim_some, Option.elim_some, hpte (vpn_path va') ht' (vpn_lt va' 0) hdiff]

/-! ## Hanging a new table into the tree -/

theorem TablePath.length_lt {i : ℕ} {p : List ℕ} (h : TablePath (i :: p)) : p.length < 2 := by
  have := h.1
  simp only [List.length_cons] at this
  omega

/-- What the tree looks like after an empty table `q` has been hung at `i :: p`. -/
structure Hung (m m' : Machine) (root : ℕ) (p : List ℕ) (i q : ℕ) : Prop where
  sv39 : Sv39 m' root
  new : tableAt m' root (i :: p) = some q
  old : ∀ r, TablePath r → r ≠ i :: p → tableAt m' root r = tableAt m root r
  translation : ∀ va, translation m' root va = translation m root va

/-- An empty table outside the tree takes the place of a missing one. -/
theorem Sv39.hang (h : Sv39 m root) {p : List ℕ} {t i q : ℕ} (hp : TablePath p)
    (hl : p.length < 2) (ht : tableAt m root p = some t) (hi : i < 512)
    (hinv : pteValid (m.pte t i) = false) (hq : m.Held q)
    (hout : ∀ r, TablePath r → tableAt m root r ≠ some q) (hzero : ∀ j, j < 512 → m.pte q j = 0) :
    Hung m (m.setPte t i (tablePte q)) root p i q := by
  obtain ⟨m', hm'⟩ : ∃ m', m' = m.setPte t i (tablePte q) := ⟨_, rfl⟩
  have hqlt : q < 2 ^ 56 := hq.1.lt
  have hself : m'.pte t i = tablePte q := by
    rw [hm', m.pte_setPte_self _ _ (tablePte_lt hqlt)]
  have hpte {r : List ℕ} {t' j : ℕ} (hr : TablePath r) (ht' : tableAt m root r = some t')
      (hj : j < 512) (hne : r ≠ p ∨ j ≠ i) : m'.pte t' j = m.pte t' j := by
    rw [hm', h.pte_setPte hp ht hi hr ht' hj hne]
  have hnew (j : ℕ) (hj : j < 512) : m'.pte q j = 0 := by
    have hne : q ≠ t := fun hqt => hout p hp (hqt ▸ ht)
    rw [hm', m.pte_setPte_ne _ (h.held hp ht).aligned hq.aligned hi hj (.inl hne), hzero j hj]
  have hnone : tableAt m root (i :: p) = none := by
    rw [tableAt, ht, Option.bind_some, child, hinv]
    rfl
  -- every path leads where it did, but the path to the new table
  have htab : ∀ r, TablePath r →
      tableAt m' root r = if r = i :: p then some q else tableAt m root r := by
    intro r hr
    induction r with
    | nil => simp [tableAt]
    | cons j r ih =>
        have hj := hr.2 j (by simp)
        have hrec : tableAt m' root (j :: r) = (tableAt m' root r).bind (child m' · j) := rfl
        rw [hrec, ih hr.tail]
        by_cases hrp : r = i :: p
        · -- below the new table there is nothing
          have hlong : j :: r ≠ i :: p := by
            rintro hjr
            have := congrArg List.length (List.cons.inj hjr).2
            rw [hrp] at this
            simp at this
          have hold : tableAt m root (j :: r) = none := by
            rw [tableAt, hrp, hnone, Option.bind_none]
          rw [if_pos hrp, if_neg hlong, hold, Option.bind_some, child, hnew j hj]
          rfl
        · rw [if_neg hrp]
          obtain hr' | ⟨t', ht'⟩ := Option.eq_none_or_eq_some (tableAt m root r)
          · have hne : j :: r ≠ i :: p := by
              rintro hjr
              rw [(List.cons.inj hjr).2, ht] at hr'
              cases hr'
            rw [if_neg hne, tableAt, hr', Option.bind_none, Option.bind_none]
          · by_cases heq : j :: r = i :: p
            · obtain ⟨rfl, rfl⟩ := List.cons.inj heq
              rw [ht, Option.some.injEq] at ht'
              subst ht'
              rw [if_pos rfl, ht, Option.bind_some, child, hself, if_pos (tablePte_valid q),
                pteAddr_tablePte hq.aligned (lt_trans hqlt (by norm_num))]
            · have hne : r ≠ p ∨ j ≠ i := by
                by_contra hc
                obtain ⟨rfl, rfl⟩ := not_or.mp hc |>.imp not_not.mp not_not.mp
                exact heq rfl
              rw [if_neg heq, tableAt, ht', Option.bind_some, Option.bind_some, child, child,
                hpte hr.tail ht' hj hne]
  have hold {r : List ℕ} (hr : TablePath r) (hne : r ≠ i :: p) :
      tableAt m' root r = tableAt m root r := by rw [htab r hr, if_neg hne]
  have hpath : TablePath (i :: p) := hp.cons hl hi
  have hnewAt : tableAt m' root (i :: p) = some q := by rw [htab _ hpath, if_pos rfl]
  rw [← hm']
  refine ⟨⟨?_, ?_, ?_, ?_, ?_⟩, hnewAt, fun r hr => hold hr, fun va => translation_eq ?_⟩
  · rw [hm']
    exact h.consistent
  · intro r t' hr ht'
    have hheld : m.Held t' := by
      by_cases hne : r = i :: p
      · rw [hne, hnewAt, Option.some.injEq] at ht'
        exact ht' ▸ hq
      · exact h.held hr (hold hr hne ▸ ht')
    rw [hm']
    exact hheld
  · intro r r' t' hr hr' h1 h2
    by_cases hne : r = i :: p
    · by_cases hne' : r' = i :: p
      · rw [hne, hne']
      · rw [hne, hnewAt, Option.some.injEq] at h1
        exact absurd (hold hr' hne' ▸ h2) (h1 ▸ hout r' hr')
    · by_cases hne' : r' = i :: p
      · rw [hne', hnewAt, Option.some.injEq] at h2
        exact absurd (hold hr hne ▸ h1) (h2 ▸ hout r hr)
      · exact h.inj hr hr' (hold hr hne ▸ h1) (hold hr' hne' ▸ h2)
  · intro r t' j hr hrl ht' hj hv
    by_cases hne : r = i :: p
    · rw [hne, hnewAt, Option.some.injEq] at ht'
      rw [← ht', hnew j hj] at hv
      exact absurd hv (by simp)
    · rw [hold hr hne] at ht'
      by_cases hpi : r = p ∧ j = i
      · obtain ⟨rfl, rfl⟩ := hpi
        rw [ht, Option.some.injEq] at ht'
        rw [← ht', hself]
        exact tablePte_leaf q
      · rw [hpte hr ht' hj (by tauto)] at hv ⊢
        exact h.inner hr hrl ht' hj hv
  · intro r t' j hr hrl ht' hj hv
    by_cases hne : r = i :: p
    · rw [hne, hnewAt, Option.some.injEq] at ht'
      rw [← ht', hnew j hj] at hv
      exact absurd hv (by simp)
    · rw [hold hr hne] at ht'
      have hrp : r ≠ p := by
        rintro rfl
        omega
      rw [hpte hr ht' hj (.inl hrp)] at hv ⊢
      exact h.leaf hr hrl ht' hj hv
  · rw [leafEntry, leafEntry]
    by_cases hne : [vpn va 1, vpn va 2] = i :: p
    · rw [hne, hnewAt, hnone, Option.elim_some, Option.elim_none, hnew _ (vpn_lt va 0)]
    · rw [hold (vpn_path va) hne]
      obtain ht' | ⟨t', ht'⟩ := Option.eq_none_or_eq_some (tableAt m root [vpn va 1, vpn va 2])
      · rw [ht', Option.elim_none, Option.elim_none]
      · have hrp : [vpn va 1, vpn va 2] ≠ p := by
          rintro rfl
          simp at hl
        rw [ht', Option.elim_some, Option.elim_some, hpte (vpn_path va) ht' (vpn_lt va 0)
          (.inl hrp)]

/-! ## The walk -/

/-- Tables that are missing at the end of a path: one or none. -/
def missing (m : Machine) (root : ℕ) (p : List ℕ) : ℕ := if tableAt m root p = none then 1 else 0

/-- The table at the path exists now, at the cost of the one that was missing. -/
structure Entered (m m' : Machine) (root : ℕ) (p : List ℕ) (t : ℕ) : Prop where
  sv39 : Sv39 m' root
  table : tableAt m' root p = some t
  old : ∀ r, TablePath r → r ≠ p → tableAt m' root r = tableAt m root r
  translation : ∀ va, translation m' root va = translation m root va
  cost : m'.pages.freeFrames + missing m root p = m.pages.freeFrames

/-- One level of the walk leads to the table at the longer path; it fails only
without a table there and, if it may create one, without a free frame. -/
theorem walkLevel_enters (h : Sv39 m root) {p : List ℕ} {t : ℕ} (hp : TablePath p)
    (hl : p.length < 2) (ht : tableAt m root p = some t) (va level : ℕ) (create : Bool) :
    Prog.Wp (PageTable.walkLevel t va level create) m (fun r m' =>
      (∃ t', r = some t' ∧ Entered m m' root (vpn va level :: p) t' ∧ (create = false → m' = m)) ∨
      (r = none ∧ m' = m ∧ tableAt m root (vpn va level :: p) = none ∧
        (create = true → m.pages.freeFrames = 0))) Prog.Never := by
  have hi := vpn_lt va level
  have hchild : tableAt m root (vpn va level :: p) = child m t (vpn va level) := by
    rw [tableAt, ht, Option.bind_some]
  unfold PageTable.walkLevel
  rw [Prog.wp_bind, Prog.wp_get]
  cases hv : pteValid (m.pte t (vpn va level)) with
  | false =>
    have hnone : tableAt m root (vpn va level :: p) = none := by
      rw [hchild, child, hv]
      rfl
    simp only [hv, Bool.not_false, if_true]
    cases create with
    | false => exact Prog.wp_pure.mpr (.inr ⟨rfl, rfl, hnone, nofun⟩)
    | true =>
      simp only [Bool.not_true, Bool.false_eq_true, if_false]
      rw [Prog.wp_bind]
      refine (pageAlloc_spec 1 h.consistent).mono (fun r m₁ hr => ?_) fun _ => id
      cases r with
      | none =>
        obtain ⟨rfl, hfull⟩ := hr
        exact Prog.wp_pure.mpr (.inr ⟨rfl, rfl, hnone, fun _ => hfull rfl⟩)
      | some q =>
        change Handed m 1 q m₁ at hr
        dsimp only
        rw [Prog.wp_bind, wp_writePte]
        refine Prog.wp_pure.mpr (.inl ⟨q, ?_, ?_, nofun⟩)
        · have hq := hr.frame 0 hr.pos
          rw [Nat.zero_mul, Nat.add_zero] at hq
          rw [pteAddr_tablePte hq.1 (lt_trans hq.lt (by norm_num))]
        · -- the frame was free, so it is no table, and it is zeroed
          obtain ⟨h₁, htab₁, htr₁⟩ : Sv39 m₁ root ∧ (∀ p, TablePath p →
              tableAt m₁ root p = tableAt m root p) ∧
              ∀ va, translation m₁ root va = translation m root va :=
            h.congr hr.consistent (fun p t hp ht => (hr.held t).mpr (.inl (h.held hp ht)))
              fun p t i hp ht hi => Machine.pte_congr hi (hr.agree (h.held hp ht))
          have hqfree : ¬ m.Held q := by
            have := hr.free 0 hr.pos
            rwa [Nat.zero_mul, Nat.add_zero] at this
          have hqheld : m₁.Held q := (hr.held q).mpr (.inr ⟨0, hr.pos, by omega⟩)
          have hsame : m₁.pte t (vpn va level) = m.pte t (vpn va level) :=
            Machine.pte_congr hi (hr.agree (h.held hp ht))
          have hung := h₁.hang hp hl (htab₁ p hp ▸ ht) hi (hsame ▸ hv) hqheld
            (fun r hrp hrq => hqfree (h.held hrp (htab₁ r hrp ▸ hrq))) fun j hj => ?_
          · refine ⟨hung.sv39, hung.new, fun r hrp hne => ?_, fun va => ?_, ?_⟩
            · rw [hung.old r hrp hne, htab₁ r hrp]
            · rw [hung.translation va, htr₁ va]
            · rw [missing, if_pos hnone]
              exact hr.freeFrames
          · rw [Machine.pte, hr.mem]
            refine readWord_zero fun b h1 h2 => ?_
            simp only [fillZero, pageSize]
            rw [if_pos (by omega)]
  | true =>
    have hleaf := h.inner hp hl ht hi hv
    simp only [hv, Bool.not_true, Bool.false_eq_true, if_false, hleaf]
    refine Prog.wp_pure.mpr (.inl ⟨_, rfl, ⟨h, ?_, fun _ _ _ => rfl, fun _ => rfl, ?_⟩, fun _ => rfl⟩)
    · rw [hchild, child, if_pos hv]
    · rw [missing, hchild, child, if_pos hv, if_neg (by simp)]
      rfl

/-- Tables missing on the way to an address. -/
def needed (m : Machine) (root va : ℕ) : ℕ :=
  missing m root [vpn va 2] + missing m root [vpn va 1, vpn va 2]

/-- A walk that may create tables: it ends at the last table of the address, or
frames have run out. -/
theorem walk_create (h : Sv39 m root) (va : ℕ) :
    Prog.Wp (PageTable.walk root va true) m (fun r m' =>
      Sv39 m' root ∧ (∀ va, translation m' root va = translation m root va) ∧
      ((∃ t, r = some t ∧ tableAt m' root [vpn va 1, vpn va 2] = some t ∧
        needed m root va ≤ m.pages.freeFrames) ∨
      (r = none ∧ m.pages.freeFrames < needed m root va))) Prog.Never := by
  unfold PageTable.walk
  refine (walkLevel_enters h (p := []) ⟨by simp, nofun⟩ (by simp) rfl va 2 true).bind
    fun r m₁ hr => ?_
  obtain ⟨l1, rfl, hin, -⟩ | ⟨rfl, rfl, hnone, hfull⟩ := hr
  · have hpath : TablePath [vpn va 2] := ⟨by simp, by simpa using vpn_lt va 2⟩
    have hsame : tableAt m₁ root [vpn va 1, vpn va 2] = tableAt m root [vpn va 1, vpn va 2] :=
      hin.old _ (vpn_path va) (by simp)
    have hcost := hin.cost
    dsimp only
    refine (walkLevel_enters hin.sv39 hpath (by simp) hin.table va 1 true).mono
      (fun r m₂ hr => ?_) fun _ => id
    obtain ⟨l0, rfl, hin₂, -⟩ | ⟨rfl, rfl, hnone, hfull⟩ := hr
    · have hcost₂ := hin₂.cost
      rw [missing, hsame, ← missing] at hcost₂
      refine ⟨hin₂.sv39, fun va => (hin₂.translation va).trans (hin.translation va),
        .inl ⟨l0, rfl, hin₂.table, ?_⟩⟩
      rw [needed]
      omega
    · refine ⟨hin.sv39, hin.translation, .inr ⟨rfl, ?_⟩⟩
      have h0 := hfull rfl
      have h1 : missing m root [vpn va 1, vpn va 2] = 1 := by rw [missing, ← hsame, if_pos hnone]
      rw [needed, h1]
      omega
  · refine Prog.wp_pure.mpr ⟨h, fun _ => rfl, .inr ⟨rfl, ?_⟩⟩
    have h0 := hfull rfl
    have h1 : missing m₁ root [vpn va 2] = 1 := by rw [missing, if_pos hnone]
    rw [needed, h1]
    omega

/-- On the way to an address no entry maps more than a 4 KiB page. -/
def SmallPages (m : Machine) (root va : ℕ) : Prop :=
  ∀ p t i, i :: p <:+ [vpn va 1, vpn va 2] → tableAt m root p = some t → pteValid (m.pte t i) →
    pteLeaf (m.pte t i) = false

/-- One level of a walk that creates nothing only reads. -/
theorem walkLevel_reads {t va level : ℕ} (hsmall : pteValid (m.pte t (vpn va level)) →
      pteLeaf (m.pte t (vpn va level)) = false) :
    Prog.Wp (PageTable.walkLevel t va level false) m (fun r m' => m' = m ∧
      r = child m t (vpn va level)) Prog.Never := by
  unfold PageTable.walkLevel child
  rw [Prog.wp_bind, Prog.wp_get]
  cases hv : pteValid (m.pte t (vpn va level)) with
  | false =>
    simp only [hv, Bool.not_false, if_true, Bool.false_eq_true, if_false]
    exact Prog.wp_pure.mpr ⟨rfl, rfl⟩
  | true =>
    simp only [hv, hsmall hv, Bool.not_true, Bool.false_eq_true, if_false, if_true]
    exact Prog.wp_pure.mpr ⟨rfl, rfl⟩

/-- A walk that creates nothing finds the last table of the address if there is one. -/
theorem walk_reads {va : ℕ} (h : SmallPages m root va) :
    Prog.Wp (PageTable.walk root va false) m (fun r m' => m' = m ∧
      r = tableAt m root [vpn va 1, vpn va 2]) Prog.Never := by
  unfold PageTable.walk
  have h2 : tableAt m root [vpn va 2] = child m root (vpn va 2) := by
    rw [tableAt, tableAt, Option.bind_some]
  have hroot := h [] root (vpn va 2) (List.suffix_cons _ _) rfl
  refine (walkLevel_reads hroot).bind fun r m₁ ⟨hm, hr⟩ => ?_
  cases r with
  | none =>
    refine Prog.wp_pure.mpr ⟨hm, ?_⟩
    rw [tableAt, h2, ← hr, Option.bind_none]
  | some l1 =>
    have h1 := h [vpn va 2] l1 (vpn va 1) (List.suffix_refl _) (h2.trans hr.symm)
    rw [← hm] at h1
    refine (walkLevel_reads h1).mono (fun r m₂ hr₂ => ⟨hr₂.1.trans hm, ?_⟩) fun _ => id
    rw [hr₂.2, hm, tableAt, h2, ← hr, Option.bind_some]

theorem Sv39.smallPages (h : Sv39 m root) (va : ℕ) : SmallPages m root va := by
  intro p t i hsuf ht hv
  have hpath : TablePath (i :: p) :=
    ⟨by simpa using hsuf.length_le, fun j hj => (vpn_path va).2 j (hsuf.subset hj)⟩
  exact h.inner hpath.tail hpath.length_lt ht (hpath.2 i (by simp)) hv

theorem walk_find (h : Sv39 m root) (va : ℕ) :
    Prog.Wp (PageTable.walk root va false) m (fun r m' => m' = m ∧
      r = tableAt m root [vpn va 1, vpn va 2]) Prog.Never := walk_reads (h.smallPages va)

/-! ## The operations as updates of a finite map -/

/-- The entry of the last level read in its table. -/
theorem leafEntry_table {va t : ℕ} (ht : tableAt m root [vpn va 1, vpn va 2] = some t) :
    leafEntry m root va = m.pte t (vpn va 0) := by rw [leafEntry, ht, Option.elim_some]

theorem translation_none_iff {va : ℕ} :
    translation m root va = none ↔ pteValid (leafEntry m root va) = false := by
  rw [translation]
  cases pteValid (leafEntry m root va) <;> simp

theorem translation_missing {va : ℕ} (h : tableAt m root [vpn va 1, vpn va 2] = none) :
    translation m root va = none := by
  rw [translation_none_iff, leafEntry, h, Option.elim_none, pteValid_zero]

/-- Only pages with all indices equal are the same page. -/
theorem vpn_ne {va va' : ℕ} (h : va < 2 ^ 39) (h' : va' < 2 ^ 39)
    (hne : va' / pageSize ≠ va / pageSize) :
    vpn va' 0 ≠ vpn va 0 ∨ vpn va' 1 ≠ vpn va 1 ∨ vpn va' 2 ≠ vpn va 2 := by
  by_contra hc
  simp only [not_or, ne_eq, not_not] at hc
  exact hne (vpn_inj h' h hc.1 hc.2.1 hc.2.2)

/-- The page of an address decides its translation. -/
theorem translation_page {va va' : ℕ} (h : va' / pageSize = va / pageSize) :
    translation m root va' = translation m root va := by
  have hv (level : ℕ) : vpn va' level = vpn va level := by
    rw [vpn_eq, vpn_eq, pow_add, ← Nat.div_div_eq_div_mul, ← Nat.div_div_eq_div_mul]
    exact congrArg (· / 2 ^ (9 * level) % 512) h
  rw [translation, translation, leafEntry, leafEntry, hv, hv, hv]

/-- `map` as the update of one page, which must be free to be mapped. -/
theorem map_refines (h : Sv39 m root) {va pa flags : ℕ} (hva : va % pageSize = 0)
    (hpa : PaOk pa) (hf : FlagsOk flags) :
    Prog.Wp (PageTable.map root va pa flags) m (fun r m' => Sv39 m' root ∧
      ((r = .ok () ∧ translation m root va = none ∧ needed m root va ≤ m.pages.freeFrames ∧
        translation m' root va = some (pa, flags) ∧
        ∀ va', (vpn va' 0 ≠ vpn va 0 ∨ vpn va' 1 ≠ vpn va 1 ∨ vpn va' 2 ≠ vpn va 2) →
          translation m' root va' = translation m root va') ∨
      ((∃ e, r = .error e) ∧
        ¬ (translation m root va = none ∧ needed m root va ≤ m.pages.freeFrames) ∧
        ∀ va', translation m' root va' = translation m root va'))) Prog.Never := by
  unfold PageTable.map
  rw [if_neg (not_not.mpr hva), if_neg (not_not.mpr hpa.1)]
  refine (walk_create h va).bind fun r m₁ ⟨h₁, htr, hr⟩ => ?_
  obtain ⟨t, rfl, ht, hneed⟩ | ⟨rfl, hfew⟩ := hr
  · dsimp only
    rw [Prog.wp_bind, Prog.wp_get]
    have hentry := leafEntry_table ht
    cases hv : pteValid (m₁.pte t (vpn va 0)) with
    | true =>
      rw [if_pos rfl]
      refine Prog.wp_pure.mpr ⟨h₁, .inr ⟨⟨_, rfl⟩, ?_, htr⟩⟩
      rintro ⟨hnone, -⟩
      rw [← htr va, translation_none_iff, hentry, hv] at hnone
      cases hnone
    | false =>
      rw [if_neg (by simp), Prog.wp_bind, wp_writePte]
      obtain ⟨h₂, hnew, hold⟩ := h₁.setLeaf ht (.leafPte hpa hf)
      refine Prog.wp_pure.mpr ⟨h₂, .inl ⟨rfl, ?_, hneed, ?_, fun va' hne => ?_⟩⟩
      · rw [← htr va, translation_none_iff, hentry, hv]
      · rw [translation, hnew, if_pos (leafPte_valid pa flags),
          pteAddr_leafPte hpa.1 hpa.2 (flagsOk_lt hf), pteFlags_leafPte hf]
      · rw [hold va' hne, htr va']
  · refine Prog.wp_pure.mpr ⟨h₁, .inr ⟨⟨_, rfl⟩, ?_, htr⟩⟩
    rintro ⟨-, hneed⟩
    omega

/-- `unmap` as the removal of one page. -/
theorem unmap_refines (h : Sv39 m root) (va : ℕ) :
    Prog.Wp (PageTable.unmap root va) m (fun r m' => Sv39 m' root ∧
      r = (translation m root va).map Prod.fst ∧ translation m' root va = none ∧
      ∀ va', (vpn va' 0 ≠ vpn va 0 ∨ vpn va' 1 ≠ vpn va 1 ∨ vpn va' 2 ≠ vpn va 2) →
        translation m' root va' = translation m root va') Prog.Never := by
  unfold PageTable.unmap
  refine (walk_find h va).bind fun r m₁ ⟨hm, hr⟩ => ?_
  subst hm hr
  obtain ht | ⟨t, ht⟩ := Option.eq_none_or_eq_some (tableAt m₁ root [vpn va 1, vpn va 2])
  · have hnone := translation_missing ht
    rw [ht]
    refine Prog.wp_pure.mpr ⟨h, ?_, hnone, fun _ _ => rfl⟩
    rw [hnone, Option.map_none]
  · rw [ht]
    dsimp only
    rw [Prog.wp_bind, Prog.wp_get]
    have hentry := leafEntry_table ht
    cases hv : pteValid (m₁.pte t (vpn va 0)) with
    | true =>
      simp only [if_true]
      rw [Prog.wp_bind, wp_writePte]
      obtain ⟨h₂, hnew, hold⟩ := h.setLeaf ht .zero
      refine Prog.wp_pure.mpr ⟨h₂, ?_, ?_, hold⟩
      · rw [translation, hentry, if_pos hv, Option.map_some]
      · rw [translation_none_iff, hnew, pteValid_zero]
    | false =>
      have hnone : translation m₁ root va = none := by rw [translation_none_iff, hentry, hv]
      simp only [Bool.false_eq_true, if_false]
      refine Prog.wp_pure.mpr ⟨h, ?_, hnone, fun _ _ => rfl⟩
      rw [hnone, Option.map_none]

/-- `virt_to_phys` as a lookup. -/
theorem virtToPhys_reads {va : ℕ} (h : SmallPages m root va) :
    Prog.Wp (PageTable.virtToPhys root va) m (fun r m' => m' = m ∧
      r = (translation m root va).map fun x => x.1 + va % pageSize) Prog.Never := by
  unfold PageTable.virtToPhys
  refine (walk_reads h).bind fun r m₁ ⟨hm, hr⟩ => ?_
  subst hm hr
  obtain ht | ⟨t, ht⟩ := Option.eq_none_or_eq_some (tableAt m₁ root [vpn va 1, vpn va 2])
  · rw [ht]
    refine Prog.wp_pure.mpr ⟨rfl, ?_⟩
    rw [translation_missing ht, Option.map_none]
  · rw [ht]
    dsimp only
    rw [Prog.wp_bind, Prog.wp_get]
    have hentry := leafEntry_table ht
    cases hv : pteValid (m₁.pte t (vpn va 0)) with
    | true =>
      simp only [if_true]
      refine Prog.wp_pure.mpr ⟨rfl, ?_⟩
      rw [translation, hentry, if_pos hv, Option.map_some]
    | false =>
      simp only [Bool.false_eq_true, if_false]
      refine Prog.wp_pure.mpr ⟨rfl, ?_⟩
      have hnone : translation m₁ root va = none := by rw [translation_none_iff, hentry, hv]
      rw [hnone, Option.map_none]

theorem virtToPhys_refines (h : Sv39 m root) (va : ℕ) :
    Prog.Wp (PageTable.virtToPhys root va) m (fun r m' => m' = m ∧
      r = (translation m root va).map fun x => x.1 + va % pageSize) Prog.Never :=
  virtToPhys_reads (h.smallPages va)

end

/-! ## Runs -/

/-- What happens to the memory around a root table. -/
inductive TableOp where
  | map (va pa flags : ℕ)
  | unmap (va : ℕ)
  /-- The rest of the kernel works in its own memory. -/
  | other

/-- Memory and allocator may change anywhere but at the tables of the root. -/
structure Untouched (m : Machine) (root : ℕ) (m' : Machine) : Prop where
  consistent : m'.pages.Consistent
  held : ∀ p t, TablePath p → tableAt m root p = some t → m'.Held t
  agree : ∀ p t, TablePath p → tableAt m root p = some t → AgreeOn m.mem m'.mem t pageSize

/-- Addresses are aligned, as the assertions of `map` demand, and permissions are
those that its description names. -/
def TableOp.Allowed : TableOp → Prop
  | .map va pa flags => va % pageSize = 0 ∧ PaOk pa ∧ FlagsOk flags
  | .unmap _ => True
  | .other => True

def TableStep (root : ℕ) (op : TableOp) (m m' : Machine) : Prop :=
  match op with
  | .map va pa flags => ∃ r, PageTable.map root va pa flags m = .ok (r, m')
  | .unmap va => ∃ r, PageTable.unmap root va m = .ok (r, m')
  | .other => Untouched m root m'

/-- A root from the page allocator, after any sequence of calls. -/
def RootReaches (root : ℕ) (m : Machine) : Prop :=
  ∃ m₀ m₁, m₀.pages.Consistent ∧ PageTable.alloc m₀ = .ok (some root, m₁) ∧
    Runs (TableStep root) (fun op _ => op.Allowed) m₁ m

/-- The operations are those of a finite map from pages to addresses and
permissions. -/
structure RefinesMap (m : Machine) (root : ℕ) : Prop where
  map : ∀ va pa flags, va < 2 ^ 39 → va % pageSize = 0 → PaOk pa → FlagsOk flags →
    ∃ r m', PageTable.map root va pa flags m = .ok (r, m') ∧
      (r = .ok () ↔ translation m root va = none ∧ needed m root va ≤ m.pages.freeFrames) ∧
      (r = .ok () → ∀ va', va' < 2 ^ 39 → translation m' root va' =
        if va' / pageSize = va / pageSize then some (pa, flags) else translation m root va') ∧
      (r ≠ .ok () → ∀ va', translation m' root va' = translation m root va')
  unmap : ∀ va, va < 2 ^ 39 → va % pageSize = 0 →
    ∃ m', PageTable.unmap root va m = .ok ((translation m root va).map Prod.fst, m') ∧
      ∀ va', va' < 2 ^ 39 → translation m' root va' =
        if va' / pageSize = va / pageSize then none else translation m root va'
  virtToPhys : ∀ va o, va < 2 ^ 39 → va % pageSize = 0 → o < pageSize →
    PageTable.virtToPhys root (va + o) m =
      .ok ((translation m root va).map fun x => x.1 + o, m)

theorem Sv39.refinesMap {m : Machine} {root : ℕ} (h : Sv39 m root) : RefinesMap m root := by
  refine ⟨fun va pa flags hlt hva hpa hf => ?_, fun va hlt hva => ?_, fun va o hlt hva ho => ?_⟩
  · obtain ⟨r, m', hrun, -, hr⟩ := (map_refines h hva hpa hf).returns
    refine ⟨r, m', hrun, ?_⟩
    obtain ⟨rfl, hnone, hneed, hnew, hold⟩ | ⟨⟨e, rfl⟩, hnot, hsame⟩ := hr
    · refine ⟨iff_of_true rfl ⟨hnone, hneed⟩, fun _ va' hlt' => ?_, fun hne => absurd rfl hne⟩
      by_cases hpage : va' / pageSize = va / pageSize
      · rw [if_pos hpage, translation_page hpage, hnew]
      · rw [if_neg hpage, hold va' (vpn_ne hlt hlt' hpage)]
    · exact ⟨iff_of_false nofun hnot, nofun, fun _ => hsame⟩
  · obtain ⟨r, m', hrun, -, rfl, hnone, hold⟩ := (unmap_refines h va).returns
    refine ⟨m', hrun, fun va' hlt' => ?_⟩
    by_cases hpage : va' / pageSize = va / pageSize
    · rw [if_pos hpage, translation_page hpage, hnone]
    · rw [if_neg hpage, hold va' (vpn_ne hlt hlt' hpage)]
  · obtain ⟨r, m', hrun, rfl, rfl⟩ := (virtToPhys_refines h (va + o)).returns
    have hpage : (va + o) / pageSize = va / pageSize := by
      simp only [pageSize] at *
      omega
    have hoff : (va + o) % pageSize = o := by
      simp only [pageSize] at *
      omega
    rw [hrun, translation_page hpage, hoff]

theorem alloc_zero {m₀ m : Machine} {root : ℕ} (hq : Handed m₀ 1 root m) {i : ℕ} (hi : i < 512) :
    m.pte root i = 0 := by
  rw [Machine.pte, hq.mem]
  refine readWord_zero fun b h1 h2 => ?_
  simp only [fillZero, pageSize]
  rw [if_pos (by omega)]

/-- A zeroed root is the only table under itself. -/
theorem alloc_only {m₀ m : Machine} {root t : ℕ} (hq : Handed m₀ 1 root m) {p : List ℕ}
    (hp : TablePath p) (ht : tableAt m root p = some t) : p = [] ∧ t = root := by
  have hone (i : ℕ) (hi : i < 512) : tableAt m root [i] = none := by
    rw [tableAt, tableAt, Option.bind_some, child, alloc_zero hq hi]
    rfl
  match p with
  | [] => exact ⟨rfl, (Option.some.inj ht).symm⟩
  | [i] =>
    rw [hone i (hp.2 i (by simp))] at ht
    cases ht
  | [j, i] =>
    rw [tableAt, hone i (hp.2 i (by simp)), Option.bind_none] at ht
    cases ht
  | k :: j :: i :: p =>
    have := hp.1
    simp at this

/-- A zeroed frame is an empty tree. -/
theorem Sv39.fresh {m₀ m : Machine} {root : ℕ} (hq : Handed m₀ 1 root m) : Sv39 m root := by
  have hheld : m.Held root := (hq.held root).mpr (.inr ⟨0, hq.pos, by omega⟩)
  refine ⟨hq.consistent, ?_, ?_, ?_, ?_⟩
  · intro p t hp ht
    rw [(alloc_only hq hp ht).2]
    exact hheld
  · intro p q t hp hp' ht ht'
    rw [(alloc_only hq hp ht).1, (alloc_only hq hp' ht').1]
  · intro p t i hp _ ht hi hv
    rw [(alloc_only hq hp ht).2, alloc_zero hq hi] at hv
    cases hv
  · intro p t i hp _ ht hi hv
    rw [(alloc_only hq hp ht).2, alloc_zero hq hi] at hv
    cases hv

theorem Sv39.step {m m' : Machine} {root : ℕ} {op : TableOp} (h : Sv39 m root)
    (ha : op.Allowed) (hs : TableStep root op m m') : Sv39 m' root := by
  cases op with
  | map va pa flags =>
    obtain ⟨r, hr⟩ := hs
    exact ((map_refines h ha.1 ha.2.1 ha.2.2).ok hr).1
  | unmap va =>
    obtain ⟨r, hr⟩ := hs
    exact ((unmap_refines h va).ok hr).1
  | other =>
    exact (h.congr hs.consistent hs.held fun p t i hp ht hi =>
      Machine.pte_congr hi (hs.agree p t hp ht)).1

/-- In every state that calls of `map` and `unmap` on a fresh root lead to, the
tables refine a finite map. -/
theorem sv39_reachable {root : ℕ} {m : Machine} (hr : RootReaches root m) : RefinesMap m root := by
  obtain ⟨m₀, m₁, hc, halloc, hrun⟩ := hr
  have h : Sv39 m root := hrun.invariant (I := fun m => Sv39 m root)
    (.fresh ((pageAlloc_spec 1 hc).ok halloc))
    fun op m m' ha hs h => h.step ha hs
  exact h.refinesMap

/-- A machine whose frames are all free. -/
def blankMachine : Machine := ⟨fun _ => 0, ⟨fun _ => false, 0, maxFrames⟩, 0, 0, [], []⟩

theorem blankMachine_consistent : blankMachine.pages.Consistent := by
  refine ⟨Nat.zero_le _, ?_⟩
  have hall : (Finset.Ico 0 maxFrames).filter (fun _ => (false : Bool) = false) =
      Finset.Ico 0 maxFrames := Finset.filter_true_of_mem fun _ _ => rfl
  change maxFrames = ((Finset.Ico 0 maxFrames).filter fun _ => (false : Bool) = false).card
  rw [hall, Nat.card_Ico, Nat.sub_zero]

/-- One page mapped in an otherwise empty machine. -/
theorem sv39_reachable_blank : ∃ root m, RootReaches root m ∧
    translation m root 0x40000000 = some (0x80000000, pteR) ∧ RefinesMap m root := by
  have hc := blankMachine_consistent
  obtain ⟨r, m₁, halloc, hr⟩ := (pageAlloc_spec 1 hc).returns
  cases r with
  | none => exact absurd (hr.2 rfl) (by decide)
  | some root =>
    have hfree : m₁.pages.freeFrames + 1 = maxFrames := hr.freeFrames
    have h₁ : Sv39 m₁ root := .fresh hr
    have hpa : PaOk 0x80000000 := ⟨by decide, by decide⟩
    obtain ⟨q, m, hmap, -, hq⟩ :=
      (map_refines h₁ (show 0x40000000 % pageSize = 0 by decide) hpa
        (show FlagsOk pteR from rfl)).returns
    have hreach : RootReaches root m :=
      ⟨blankMachine, m₁, hc, halloc, (Runs.refl _).snoc (e := .map 0x40000000 0x80000000 pteR)
        ⟨by decide, hpa, rfl⟩ ⟨q, hmap⟩⟩
    obtain ⟨-, -, -, hnew, -⟩ | ⟨-, hnot, -⟩ := hq
    · exact ⟨root, m, hreach, hnew, sv39_reachable hreach⟩
    · refine absurd ⟨?_, ?_⟩ hnot
      · refine translation_missing ?_
        obtain ht | ⟨t, ht⟩ := Option.eq_none_or_eq_some
          (tableAt m₁ root [vpn 0x40000000 1, vpn 0x40000000 2])
        · exact ht
        · exact absurd (alloc_only hr (vpn_path _) ht).1 nofun
      · have h2 : missing m₁ root [vpn 0x40000000 2] ≤ 1 := by
          unfold missing
          split_ifs <;> decide
        have h1 : missing m₁ root [vpn 0x40000000 1, vpn 0x40000000 2] ≤ 1 := by
          unfold missing
          split_ifs <;> decide
        simp only [needed, maxFrames, ramSize, pageSize] at *
        omega

end LightOS
