import LightOS.Images

/-!
# Copies of address spaces

A fork copies the user window page by page. The source is not touched, because
everything the copy writes lies below another root; so the pages copied are
those that the source maps when the fork begins.
-/
namespace LightOS
open Lib PageAllocator

variable {role role' role'' : ℕ → Role} {m m' m'' : Machine}

theorem userVa_eq {i1 i0 : ℕ} (h1 : i1 < 512) (h0 : i0 < 512) :
    userVa i1 i0 = 2 ^ 30 + i1 * 2 ^ 21 + i0 * 2 ^ 12 := by
  have hi1 : i1 <<< 21 < 2 ^ 30 := by
    rw [Nat.shiftLeft_eq]
    omega
  have hi0 : i0 <<< 12 < 2 ^ 21 := by
    rw [Nat.shiftLeft_eq]
    omega
  have ha : userRootSlot <<< 30 + i1 <<< 21 = (512 + i1) <<< 21 := by
    simp only [Nat.shiftLeft_eq, userRootSlot]
    omega
  rw [userVa, ← Nat.shiftLeft_add_eq_or_of_lt hi1, ha, ← Nat.shiftLeft_add_eq_or_of_lt hi0]
  simp only [Nat.shiftLeft_eq]
  omega

theorem vpn_userVa {i1 i0 : ℕ} (h1 : i1 < 512) (h0 : i0 < 512) :
    vpn (userVa i1 i0) 2 = userRootSlot ∧ vpn (userVa i1 i0) 1 = i1 ∧ vpn (userVa i1 i0) 0 = i0 := by
  simp only [vpn_eq, userVa_eq h1 h0, userRootSlot]
  norm_num
  omega

theorem userVa_aligned {i1 i0 : ℕ} (h1 : i1 < 512) (h0 : i0 < 512) :
    userVa i1 i0 % pageSize = 0 := by
  rw [userVa_eq h1 h0]
  simp only [pageSize]
  omega

/-- The addresses of the pages that a level-0 table maps, among the indices `is`. -/
def leafVas (m : Machine) (l0 i1 : ℕ) (is : List ℕ) : List ℕ :=
  (is.filter fun i0 => pteValid (m.pte l0 i0)).map (userVa i1)

/-- The addresses of the pages below a level-1 table. -/
def tableVas (m : Machine) (l1 : ℕ) (is : List ℕ) : List ℕ :=
  is.flatMap fun i1 =>
    if pteValid (m.pte l1 i1) then leafVas m (pteAddr (m.pte l1 i1)) i1 (List.range 512) else []

/-- The addresses of the pages that a root maps in the user window. -/
def userPages (m : Machine) (root : ℕ) : List ℕ :=
  if pteValid (m.pte root userRootSlot) then
    tableVas m (pteAddr (m.pte root userRootSlot)) (List.range 512)
  else []

theorem pteFlags_spec {e : ℕ} (h : pteUser e = true) :
    pteFlags e < 2 ^ 10 ∧ (pteFlags e).testBit 4 = true := by
  constructor
  · have : pteFlags e ≤ pteR ||| pteW ||| pteX ||| pteU := Nat.and_le_right
    have hle : (pteR ||| pteW ||| pteX ||| pteU) = 30 := by decide
    omega
  · rw [pteUser_eq] at h
    rw [pteFlags, Nat.testBit_and, h]
    decide

/-- Behind the user slot of a process root there are only its own tables and
user pages. -/
theorem Tables.user_leaf (ht : Tables role m) {r l1 l0 i1 i0 : ℕ} (hr : role r = .root)
    (h1 : role l1 = .table 1 r userRootSlot) (h0 : role l0 = .table 0 l1 i1) (hi : i0 < 512)
    (hv : pteValid (m.pte l0 i0) = true) :
    pteUser (m.pte l0 i0) = true ∧ role (pteAddr (m.pte l0 i0)) = .page l0 i0 := by
  have hns : ¬ Shared role m l0 i0 := by
    intro hs
    have := hs.1.symm.trans h0
    simp at this
  obtain ⟨-, hzero⟩ := ht.down l0 0 i0 (by simp [h0, Role.level]) hi hv hns
  have hu : pteUser (m.pte l0 i0) = true := by
    by_contra hu
    obtain ⟨q, i, j, hq, hq'⟩ := (hzero rfl).2 (by simpa using hu)
    have e0 := h0.symm.trans hq
    simp only [Role.table.injEq, true_and] at e0
    rw [← e0.1, h1] at hq'
    simp only [Role.table.injEq, true_and] at hq'
    have := (ht.kroot r).mpr hq'.1
    simp [hr] at this
  exact ⟨hu, (hzero rfl).1 hu⟩

/-- What is below another root does not change. -/
theorem Grows.other_window {src dst t k : ℕ} (h : Grows (Window dst) role m role' m')
    (ht : Tables role m) (hd : role dst = .root) (hne : src ≠ dst) (hu : Under role src k t)
    {l i : ℕ} (hl : (role t).level = some l) (hi : i < 512) : m'.pte t i = m.pte t i := by
  rcases h.pte t l i hl hi with he | ⟨-, hP | ⟨r', k', hP, hu'⟩⟩
  · exact he
  · exact (hu.not_root (Or.inl (hP.1 ▸ hd))).elim
  · exact absurd ((hu.unique ht hu').1.trans hP.1) hne

theorem clonePage_spec {dst va e0 : ℕ} (hg : Good role m) (hr : role dst = .root)
    (hva : va % pageSize = 0) (hu : pteUser e0 = true) :
    Prog.Wp (clonePage dst va e0) m (fun res m' =>
      ∃ role', Attempt dst va res.isOk role m role' m') Prog.Never := by
  unfold clonePage
  refine (pageAlloc_one hg).bind fun res m1 h1 => ?_
  cases res with
  | none =>
    obtain ⟨rfl, h0⟩ := h1
    exact Prog.wp_pure.mpr ⟨role, .exhausted hg h0⟩
  | some q =>
    dsimp only
    rw [Prog.wp_bind, Prog.wp_modify]
    have hgot : Got m q { m1 with mem := copyBytes m1.mem (pteAddr e0) q pageSize } := by
      refine h1.1.fill fun a ha => ?_
      simp only [copyBytes]
      rw [if_neg (by omega)]
    exact map_new_spec hg hgot hr hva (pteFlags_spec hu).1 (pteFlags_spec hu).2

/-- All new pages lie in the user window. -/
theorem NewPages.window {r : ℕ} {vas : List ℕ} {ok : Bool} (h : NewPages r vas ok role m role' m')
    (hw : ∀ va ∈ vas, vpn va 2 = userRootSlot) : Grows (Window r) role m role' m' := by
  refine h.grows.widen fun h k hp => SlotsOf.window ?_ hp
  rintro k ⟨va, hva, rfl⟩
  exact hw va hva

theorem leafVas_congr {l0 i1 : ℕ} {is : List ℕ} (h : ∀ i ∈ is, m'.pte l0 i = m.pte l0 i) :
    leafVas m' l0 i1 is = leafVas m l0 i1 is := by
  unfold leafVas
  rw [List.filter_congr fun i hi => by rw [h i hi]]

theorem leafVas_slot {l0 i1 : ℕ} {is : List ℕ} (h1 : i1 < 512) (hi : ∀ i ∈ is, i < 512) :
    ∀ va ∈ leafVas m l0 i1 is, vpn va 2 = userRootSlot := by
  intro va hva
  obtain ⟨i0, hi0, rfl⟩ := List.mem_map.mp hva
  exact (vpn_userVa h1 (hi i0 (List.mem_of_mem_filter hi0))).1

theorem tableVas_slot {l1 : ℕ} {is : List ℕ} (hi : ∀ i ∈ is, i < 512) :
    ∀ va ∈ tableVas m l1 is, vpn va 2 = userRootSlot := by
  intro va hva
  obtain ⟨i1, hi1, hva⟩ := List.mem_flatMap.mp hva
  split_ifs at hva
  · exact leafVas_slot (hi i1 hi1) (fun i hi => List.mem_range.mp hi) va hva
  · simp at hva

theorem userPages_slot {root : ℕ} : ∀ va ∈ userPages m root, vpn va 2 = userRootSlot := by
  intro va hva
  unfold userPages at hva
  split_ifs at hva
  · exact tableVas_slot (fun i hi => List.mem_range.mp hi) va hva
  · simp at hva

section Clone

variable {src dst l1 l0 i1 : ℕ} {b : Present}

/-- The inner loop of the copy: the pages of one level-0 table. -/
theorem cloneTable_spec (is : List ℕ) (hi1 : i1 < 512) (his : ∀ i ∈ is, i < 512)
    (hg : Good role m) (hs : role src = .root) (hd : role dst = .root) (hne : src ≠ dst)
    (h1 : role l1 = .table 1 src userRootSlot) (h0 : role l0 = .table 0 l1 i1)
    (hsees : Sees b dst role m) : Prog.Wp (Prog.tryEach (fun i0 => do
      let m ← get
      let e0 := m.pte l0 i0
      if !pteValid e0 then return .ok ()
      clonePage dst (userVa i1 i0) e0) is) m (fun res m' =>
      ∃ role', Ran b dst (leafVas m l0 i1 is) res.isOk role m role' m') Prog.Never := by
  induction is generalizing b role m with
  | nil => exact Prog.wp_pure.mpr ⟨role, .nil hg hsees⟩
  | cons i0 is ih =>
    have hi0 := his i0 (by simp)
    have his' : ∀ i ∈ is, i < 512 := fun i hi => his i (by simp [hi])
    rw [Prog.tryEach, Prog.wp_bind, Prog.wp_bind, Prog.wp_get]
    dsimp only
    by_cases hv : pteValid (m.pte l0 i0) = true
    · obtain ⟨hu, -⟩ := hg.tables.user_leaf hs h1 h0 hi0 hv
      have hvas : leafVas m l0 i1 (i0 :: is) = [userVa i1 i0] ++ leafVas m l0 i1 is := by
        simp [leafVas, hv]
      simp only [hv, Bool.not_true, Bool.false_eq_true, if_false]
      refine (clonePage_spec hg hd (userVa_aligned hi1 hi0) hu).mono ?_ fun _ h => h
      rintro res m1 ⟨role1, hp⟩
      have hone := Ran.one hg (Or.inl hd) hsees hp
      rw [hvas]
      cases res with
      | error e => exact Prog.wp_pure.mpr ⟨role1, hone.stop _⟩
      | ok u =>
        have hw := hone.pages.window (by simpa using (vpn_userVa hi1 hi0).1)
        have hsame : leafVas m1 l0 i1 is = leafVas m l0 i1 is := leafVas_congr fun i hi =>
          hw.other_window hg.tables hd hne (.step (l := 1) h0 (.top h1)) (l := 0)
            (by simp [h0, Role.level]) (his' i hi)
        have hkeep := hw.keep
        refine (ih his' hw.good (by rw [hkeep _ (by simp [hs])]; exact hs)
          (by rw [hkeep _ (by simp [hd])]; exact hd) (by rw [hkeep _ (by simp [h1])]; exact h1)
          (by rw [hkeep _ (by simp [h0])]; exact h0) hone.enough.2).mono ?_ fun _ h => h
        rintro res m2 ⟨role2, h2⟩
        rw [hsame] at h2
        exact ⟨role2, hone.trans hg h2⟩
    · have hvas : leafVas m l0 i1 (i0 :: is) = leafVas m l0 i1 is := by
        simp [leafVas, hv]
      rw [Bool.not_eq_true] at hv
      simp only [hv, Bool.not_false, if_true, Prog.wp_pure, hvas]
      exact ih his' hg hs hd h1 h0 hsees

/-- The outer loop of the copy. -/
theorem cloneTables_spec (is : List ℕ) (his : ∀ i ∈ is, i < 512)
    (hg : Good role m) (hs : role src = .root) (hd : role dst = .root) (hne : src ≠ dst)
    (h1 : role l1 = .table 1 src userRootSlot) (hsees : Sees b dst role m) :
    Prog.Wp (Prog.tryEach (fun i1 => do
      let m ← get
      let e1 := m.pte l1 i1
      if !pteValid e1 then return .ok ()
      let l0 := pteAddr e1
      Prog.tryEach (fun i0 => do
        let m ← get
        let e0 := m.pte l0 i0
        if !pteValid e0 then return .ok ()
        clonePage dst (userVa i1 i0) e0) (List.range 512)) is) m (fun res m' =>
      ∃ role', Ran b dst (tableVas m l1 is) res.isOk role m role' m') Prog.Never := by
  induction is generalizing b role m with
  | nil => exact Prog.wp_pure.mpr ⟨role, .nil hg hsees⟩
  | cons i1 is ih =>
    have hi1 := his i1 (by simp)
    have his' : ∀ i ∈ is, i < 512 := fun i hi => his i (by simp [hi])
    have hrange : ∀ i ∈ List.range 512, i < 512 := fun i hi => List.mem_range.mp hi
    rw [Prog.tryEach, Prog.wp_bind, Prog.wp_bind, Prog.wp_get]
    dsimp only
    by_cases hv : pteValid (m.pte l1 i1) = true
    · have hns : ¬ Shared role m l1 i1 := by
        intro hsh
        have := hsh.1.symm.trans h1
        simp at this
      obtain ⟨-, h0⟩ := (hg.tables.down l1 1 i1 (by simp [h1, Role.level]) hi1 hv hns).1 (by omega)
      have hvas : tableVas m l1 (i1 :: is) =
          leafVas m (pteAddr (m.pte l1 i1)) i1 (List.range 512) ++ tableVas m l1 is := by
        simp [tableVas, hv]
      simp only [hv, Bool.not_true, Bool.false_eq_true, if_false]
      refine (cloneTable_spec _ hi1 hrange hg hs hd hne h1 h0 hsees).mono ?_ fun _ h => h
      rintro res m1 ⟨role1, hp⟩
      rw [hvas]
      cases res with
      | error e => exact Prog.wp_pure.mpr ⟨role1, hp.stop _⟩
      | ok u =>
        have hw := hp.pages.window (leafVas_slot hi1 hrange)
        have hkeep := hw.keep
        have hpte : ∀ i, i < 512 → m1.pte l1 i = m.pte l1 i := fun i hi =>
          hw.other_window hg.tables hd hne (.top h1) (l := 1) (by simp [h1, Role.level]) hi
        have hsame : tableVas m1 l1 is = tableVas m l1 is := by
          unfold tableVas
          refine List.flatMap_congr fun i hi => ?_
          rw [hpte i (his' i hi)]
          split_ifs with hvi
          · have hns' : ¬ Shared role m l1 i := by
              intro hsh
              have := hsh.1.symm.trans h1
              simp at this
            obtain ⟨-, h0'⟩ := (hg.tables.down l1 1 i (by simp [h1, Role.level]) (his' i hi) hvi
              hns').1 (by omega)
            exact leafVas_congr fun j hj =>
              hw.other_window hg.tables hd hne (.step (l := 1) h0' (.top h1)) (l := 0)
                (by simp [h0', Role.level, Role.child]) (hrange j hj)
          · rfl
        refine (ih his' hw.good (by rw [hkeep _ (by simp [hs])]; exact hs)
          (by rw [hkeep _ (by simp [hd])]; exact hd)
          (by rw [hkeep _ (by simp [h1])]; exact h1) hp.enough.2).mono ?_ fun _ h => h
        rintro res m2 ⟨role2, h2⟩
        rw [hsame] at h2
        exact ⟨role2, hp.trans hg h2⟩
    · have hvas : tableVas m l1 (i1 :: is) = tableVas m l1 is := by
        simp [tableVas, hv]
      rw [Bool.not_eq_true] at hv
      simp only [hv, Bool.not_false, if_true, Prog.wp_pure, hvas]
      exact ih his' hg hs hd h1 hsees

/-- A fork maps a copy of every user page of the source, in order. -/
theorem cloneUserSpace_spec (hg : Good role m) (hs : role src = .root) (hd : role dst = .root)
    (hne : src ≠ dst) (hsees : Sees b dst role m) :
    Prog.Wp (cloneUserSpace src dst) m (fun res m' =>
      ∃ role', Ran b dst (userPages m src) res.isOk role m role' m') Prog.Never := by
  unfold cloneUserSpace userPages
  rw [Prog.wp_bind, Prog.wp_get]
  dsimp only
  by_cases hv : pteValid (m.pte src userRootSlot) = true
  · have hns : ¬ Shared role m src userRootSlot := fun hsh => hsh.2.1 rfl
    obtain ⟨-, h1⟩ := (hg.tables.down src 2 userRootSlot (by simp [hs, Role.level]) (by decide) hv
      hns).1 (by omega)
    simp only [hv, Bool.not_true, Bool.false_eq_true, if_false, if_true]
    exact cloneTables_spec _ (fun i hi => List.mem_range.mp hi) hg hs hd hne h1 hsees
  · rw [Bool.not_eq_true] at hv
    simp only [hv, Bool.not_false, if_true, Prog.wp_pure, Bool.false_eq_true, if_false]
    exact ⟨role, .nil hg hsees⟩

end Clone

end LightOS
