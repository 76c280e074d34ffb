import LightOS.Clone

/-!
# Taking address spaces apart

`munmap`, the teardown of a user window and the release of a root each free the
frames of the pages they take out of the forest, and no others. While a window
is torn down the memory does not change, so the frames that the loops free are
known in advance; no frame occurs twice among them because its role tells where
it hangs.
-/
namespace LightOS
open Lib PageAllocator

variable {role role' role'' : ℕ → Role} {m m' m'' : Machine}

/-- The frames `fs` have been returned, in order, and nothing else has changed. -/
structure Freeing (m : Machine) (fs : List ℕ) (m' : Machine) : Prop where
  held : ∀ p, m'.Held p ↔ m.Held p ∧ p ∉ fs
  mem : m'.mem = m.mem
  kernelRootPa : m'.kernelRootPa = m.kernelRootPa
  account : m'.account = m.account
  asks : m'.asks = m.asks
  firstFrame : m'.pages.firstFrame = m.pages.firstFrame
  freeFrames : m'.pages.freeFrames = m.pages.freeFrames + fs.length
  log : m'.log = m.log ++ fs.map fun q => .free (frameOf q)
  consistent : m'.pages.Consistent
  recorded : m'.Recorded

namespace Freeing

theorem nil (hg : Good role m) : Freeing m [] m :=
  ⟨by simp, rfl, rfl, rfl, rfl, rfl, by simp, by simp, hg.pages, hg.recorded⟩

theorem pte {fs : List ℕ} (h : Freeing m fs m') (t i : ℕ) : m'.pte t i = m.pte t i := by
  simp only [Machine.pte, h.mem]

theorem step {fs : List ℕ} {q : ℕ} (h : Freeing m fs m') (hq : m.Held q) (hn : q ∉ fs) :
    Prog.Wp (pageFree q 1) m' (fun _ m'' => Freeing m (fs ++ [q]) m'') Prog.Never := by
  refine (pageFree_spec h.consistent h.recorded ((h.held q).mpr ⟨hq, hn⟩)).mono ?_ fun _ h => h
  intro _ m'' hf
  refine ⟨?_, hf.mem.trans h.mem, hf.kernelRootPa.trans h.kernelRootPa, hf.account.trans h.account,
    hf.asks.trans h.asks, hf.firstFrame.trans h.firstFrame, ?_, ?_, hf.consistent, hf.recorded⟩
  · intro p
    rw [hf.held, h.held]
    simp only [List.mem_append, List.mem_singleton]
    tauto
  · rw [hf.freeFrames, h.freeFrames]
    simp only [List.length_append, List.length_singleton]
    omega
  · rw [hf.log, h.log]
    simp

end Freeing

/-- The frames a level-0 table maps, among the indices `is`. -/
def leafFrames (m : Machine) (l0 : ℕ) (is : List ℕ) : List ℕ :=
  (is.filter fun i => pteValid (m.pte l0 i)).map fun i => pteAddr (m.pte l0 i)

/-- The frames below a level-1 table, in the order in which they are freed. -/
def tableFrames (m : Machine) (l1 : ℕ) (is : List ℕ) : List ℕ :=
  is.flatMap fun i1 =>
    if pteValid (m.pte l1 i1) then
      leafFrames m (pteAddr (m.pte l1 i1)) (List.range 512) ++ [pteAddr (m.pte l1 i1)]
    else []

theorem freeLeaves_spec {l0 : ℕ} (is fs : List ℕ) (h : Freeing m fs m')
    (hheld : ∀ q ∈ leafFrames m l0 is, m.Held q) (hnodup : (fs ++ leafFrames m l0 is).Nodup) :
    Prog.Wp (Prog.each (fun i0 => do
      let m ← get
      let e0 := m.pte l0 i0
      if pteValid e0 then pageFree (pteAddr e0) 1 else pure ()) is) m'
      (fun _ m'' => Freeing m (fs ++ leafFrames m l0 is) m'') Prog.Never := by
  induction is generalizing fs m' with
  | nil =>
    rw [Prog.each, Prog.wp_pure]
    simpa [leafFrames] using h
  | cons i is ih =>
    rw [Prog.each, Prog.wp_bind, Prog.wp_bind, Prog.wp_get]
    dsimp only
    rw [h.pte]
    by_cases hv : pteValid (m.pte l0 i) = true
    · have hcons : leafFrames m l0 (i :: is) = pteAddr (m.pte l0 i) :: leafFrames m l0 is := by
        simp [leafFrames, hv]
      rw [hcons] at hheld hnodup ⊢
      rw [if_pos hv]
      have hn : pteAddr (m.pte l0 i) ∉ fs := by
        intro hmem
        exact (List.nodup_append.mp hnodup).2.2 _ hmem _ (by simp) rfl
      refine (h.step (hheld _ (by simp)) hn).mono (fun _ m1 h1 => ?_) fun _ h => h
      rw [List.append_cons] at hnodup ⊢
      exact ih _ h1 (fun q hq => hheld q (by simp [hq])) hnodup
    · have hcons : leafFrames m l0 (i :: is) = leafFrames m l0 is := by simp [leafFrames, hv]
      rw [hcons] at hheld hnodup ⊢
      rw [if_neg hv, Prog.wp_pure]
      exact ih fs h hheld hnodup

theorem freeTables_spec {l1 : ℕ} (is fs : List ℕ) (h : Freeing m fs m')
    (hheld : ∀ q ∈ tableFrames m l1 is, m.Held q) (hnodup : (fs ++ tableFrames m l1 is).Nodup) :
    Prog.Wp (Prog.each (fun i1 => do
      let m ← get
      let e1 := m.pte l1 i1
      if !pteValid e1 then pure ()
      else
        let l0 := pteAddr e1
        Prog.each (fun i0 => do
          let m ← get
          let e0 := m.pte l0 i0
          if pteValid e0 then pageFree (pteAddr e0) 1 else pure ()) (List.range 512)
        pageFree l0 1) is) m'
      (fun _ m'' => Freeing m (fs ++ tableFrames m l1 is) m'') Prog.Never := by
  induction is generalizing fs m' with
  | nil =>
    rw [Prog.each, Prog.wp_pure]
    simpa [tableFrames] using h
  | cons i is ih =>
    rw [Prog.each, Prog.wp_bind, Prog.wp_bind, Prog.wp_get]
    dsimp only
    rw [h.pte]
    by_cases hv : pteValid (m.pte l1 i) = true
    · have hcons : tableFrames m l1 (i :: is) =
          leafFrames m (pteAddr (m.pte l1 i)) (List.range 512) ++
            (pteAddr (m.pte l1 i) :: tableFrames m l1 is) := by
        simp [tableFrames, hv]
      rw [hcons] at hheld hnodup ⊢
      rw [← List.append_assoc] at hnodup ⊢
      simp only [hv, Bool.not_true, Bool.false_eq_true, if_false]
      rw [Prog.wp_bind]
      refine (freeLeaves_spec (List.range 512) fs h (fun q hq => hheld q (by simp [hq]))
        (List.nodup_append.mp hnodup).1).mono (fun _ m1 h1 => ?_) fun _ h => h
      have hn : pteAddr (m.pte l1 i) ∉
          fs ++ leafFrames m (pteAddr (m.pte l1 i)) (List.range 512) := by
        intro hmem
        exact (List.nodup_append.mp hnodup).2.2 _ hmem _ (by simp) rfl
      refine (h1.step (hheld _ (by simp)) hn).mono (fun _ m2 h2 => ?_) fun _ h => h
      rw [List.append_cons] at hnodup ⊢
      exact ih _ h2 (fun q hq => hheld q (by simp [hq])) hnodup
    · have hcons : tableFrames m l1 (i :: is) = tableFrames m l1 is := by simp [tableFrames, hv]
      rw [hcons] at hheld hnodup ⊢
      rw [Bool.not_eq_true] at hv
      simp only [hv, Bool.not_false, if_true, Prog.wp_pure]
      exact ih fs h hheld hnodup

section Window

variable {r l1 l0 i1 q : ℕ}

theorem mem_leafFrames (ht : Tables role m) (hr : role r = .root)
    (h1 : role l1 = .table 1 r userRootSlot) (h0 : role l0 = .table 0 l1 i1) {is : List ℕ}
    (his : ∀ i ∈ is, i < 512) : q ∈ leafFrames m l0 is ↔ ∃ i ∈ is, role q = .page l0 i := by
  simp only [leafFrames, List.mem_map, List.mem_filter]
  constructor
  · rintro ⟨i, ⟨hi, hv⟩, rfl⟩
    exact ⟨i, hi, (ht.user_leaf hr h1 h0 (his i hi) hv).2⟩
  · rintro ⟨i, hi, hq⟩
    obtain ⟨-, -, hv, ha, -⟩ := ht.up q 0 l0 i hq
    exact ⟨i, ⟨hi, hv⟩, ha⟩

theorem leafFrames_nodup (ht : Tables role m) (hr : role r = .root)
    (h1 : role l1 = .table 1 r userRootSlot) (h0 : role l0 = .table 0 l1 i1) {is : List ℕ}
    (his : ∀ i ∈ is, i < 512) (hn : is.Nodup) : (leafFrames m l0 is).Nodup := by
  refine List.Nodup.map_on ?_ (hn.filter _)
  intro i hi j hj he
  have hi' := ht.user_leaf hr h1 h0 (his i (List.mem_of_mem_filter hi)) (List.mem_filter.mp hi).2
  have hj' := ht.user_leaf hr h1 h0 (his j (List.mem_of_mem_filter hj)) (List.mem_filter.mp hj).2
  rw [he, hj'.2] at hi'
  simpa using hi'.2.symm

/-- Entry `i` of a level-1 table in the user window. -/
theorem Tables.user_table (ht : Tables role m) (h1 : role l1 = .table 1 r userRootSlot) {i : ℕ}
    (hi : i < 512) (hv : pteValid (m.pte l1 i) = true) :
    role (pteAddr (m.pte l1 i)) = .table 0 l1 i := by
  have hns : ¬ Shared role m l1 i := by
    intro hs
    have := hs.1.symm.trans h1
    simp at this
  exact ((ht.down l1 1 i (by simp [h1, Role.level]) hi hv hns).1 (by omega)).2

theorem mem_tableFrames (ht : Tables role m) (hr : role r = .root)
    (h1 : role l1 = .table 1 r userRootSlot) {is : List ℕ} (his : ∀ i ∈ is, i < 512) :
    q ∈ tableFrames m l1 is ↔ ∃ i ∈ is, role q = .table 0 l1 i ∨
      ∃ l0 i0, i0 < 512 ∧ role l0 = .table 0 l1 i ∧ role q = .page l0 i0 := by
  have hrange : ∀ i ∈ List.range 512, i < 512 := fun i hi => List.mem_range.mp hi
  simp only [tableFrames, List.mem_flatMap]
  constructor
  · rintro ⟨i, hi, hq⟩
    refine ⟨i, hi, ?_⟩
    split_ifs at hq with hv
    · have h0 := ht.user_table h1 (his i hi) hv
      rcases List.mem_append.mp hq with hq | hq
      · obtain ⟨i0, hi0, hq⟩ := (mem_leafFrames ht hr h1 h0 hrange).mp hq
        exact Or.inr ⟨_, i0, hrange i0 hi0, h0, hq⟩
      · rw [List.mem_singleton] at hq
        exact Or.inl (by rw [hq]; exact h0)
    · simp at hq
  · rintro ⟨i, hi, hq | ⟨l0, i0, hi0, h0, hq⟩⟩
    · obtain ⟨-, -, hv, ha, -⟩ := ht.up q 1 l1 i hq
      exact ⟨i, hi, by simp [hv, ha]⟩
    · obtain ⟨-, -, hv, ha, -⟩ := ht.up l0 1 l1 i h0
      refine ⟨i, hi, ?_⟩
      rw [if_pos hv, ha]
      exact List.mem_append_left _
        ((mem_leafFrames ht hr h1 h0 hrange).mpr ⟨i0, List.mem_range.mpr hi0, hq⟩)

theorem tableFrames_nodup (ht : Tables role m) (hr : role r = .root)
    (h1 : role l1 = .table 1 r userRootSlot) {is : List ℕ} (his : ∀ i ∈ is, i < 512)
    (hn : is.Nodup) : (tableFrames m l1 is).Nodup := by
  have hrange : ∀ i ∈ List.range 512, i < 512 := fun i hi => List.mem_range.mp hi
  -- a frame of the part for `i` names `i` in its role or in that of its table
  have hpart : ∀ i ∈ is, ∀ q ∈ (if pteValid (m.pte l1 i) then
        leafFrames m (pteAddr (m.pte l1 i)) (List.range 512) ++ [pteAddr (m.pte l1 i)] else []),
      role q = .table 0 l1 i ∨ ∃ l0 i0, role l0 = .table 0 l1 i ∧ role q = .page l0 i0 := by
    intro i hi q hq
    split_ifs at hq with hv
    · have h0 := ht.user_table h1 (his i hi) hv
      rcases List.mem_append.mp hq with hq | hq
      · obtain ⟨i0, -, hq⟩ := (mem_leafFrames ht hr h1 h0 hrange).mp hq
        exact Or.inr ⟨_, i0, h0, hq⟩
      · rw [List.mem_singleton] at hq
        exact Or.inl (by rw [hq]; exact h0)
    · simp at hq
  rw [tableFrames, List.nodup_flatMap]
  refine ⟨fun i hi => ?_, hn.pairwise_of_forall_ne fun i hi j hj hne => ?_⟩
  · split_ifs with hv
    · have h0 := ht.user_table h1 (his i hi) hv
      refine List.nodup_append.mpr ⟨leafFrames_nodup ht hr h1 h0 hrange List.nodup_range,
        List.nodup_singleton _, ?_⟩
      intro q hq q' hq' he
      obtain ⟨i0, -, hrole⟩ := (mem_leafFrames ht hr h1 h0 hrange).mp hq
      rw [he, List.mem_singleton.mp hq', h0] at hrole
      simp at hrole
    · exact List.nodup_nil
  · intro q hq hq'
    rcases hpart i hi q hq with h | ⟨l0, i0, h0, h⟩
    · rcases hpart j hj q hq' with h' | ⟨l0', i0', h0', h'⟩
      · rw [h] at h'
        simp only [Role.table.injEq, true_and] at h'
        exact hne h'
      · rw [h] at h'
        simp at h'
    · rcases hpart j hj q hq' with h' | ⟨l0', i0', h0', h'⟩
      · rw [h] at h'
        simp at h'
      · rw [h] at h'
        simp only [Role.page.injEq] at h'
        rw [← h'.1, h0] at h0'
        simp only [Role.table.injEq, true_and] at h0'
        exact hne h0'

/-- The frames of a user window: the level-1 table and what hangs below it. -/
theorem under_window_iff (ht : Tables role m) (hr : role r = .root)
    (h1 : role l1 = .table 1 r userRootSlot) :
    Under role r userRootSlot q ↔ q ∈ tableFrames m l1 (List.range 512) ++ [l1] := by
  have hrange : ∀ i ∈ List.range 512, i < 512 := fun i hi => List.mem_range.mp hi
  rw [List.mem_append, List.mem_singleton, mem_tableFrames ht hr h1 hrange]
  constructor
  · intro h
    induction h with
    | top hq =>
      right
      rw [← (ht.up _ 2 _ _ hq).2.2.2.1, ← (ht.up l1 2 _ _ h1).2.2.2.1]
    | @step q l t i hq hu ih =>
      obtain ⟨hl, hi, -⟩ := ht.up q l t i hq
      left
      rcases ih with ⟨i1, hi1, h0 | ⟨l0, i0, -, -, hp⟩⟩ | rfl
      · rw [h0] at hl
        obtain rfl : l = 0 := by simpa [Role.level] using hl.symm
        exact ⟨i1, hi1, Or.inr ⟨t, i, hi, h0, hq⟩⟩
      · rw [hp] at hl
        simp [Role.level] at hl
      · rw [h1] at hl
        obtain rfl : l = 1 := by simpa [Role.level] using hl.symm
        exact ⟨i, List.mem_range.mpr hi, Or.inl hq⟩
  · rintro (⟨i, -, h0 | ⟨l0, i0, -, h0, hq⟩⟩ | rfl)
    · exact .step (l := 1) h0 (.top h1)
    · exact .step (l := 0) hq (.step (l := 1) h0 (.top h1))
    · exact .top h1

end Window

/-- Pages below the entries `P` were taken out of the forest and their frames
returned. -/
structure Shrinks (P : Places) (role : ℕ → Role) (m : Machine) (role' : ℕ → Role) (m' : Machine) :
    Prop where
  good : Good role' m'
  drop : ∀ p, role' p = role p ∨ role' p = .other ∧ Below role P p
  held : ∀ p, m'.Held p ↔ m.Held p ∧ role' p = role p
  pte : ∀ t l i, (role' t).level = some l → i < 512 →
    m'.pte t i = m.pte t i ∨ m'.pte t i = 0 ∧ AtOrBelow role P t i
  kernel : ∀ i, i < 512 → m'.pte m.kernelRootPa i = m.pte m.kernelRootPa i
  kernelRootPa : m'.kernelRootPa = m.kernelRootPa
  account : m'.account = m.account
  asks : m'.asks = m.asks
  firstFrame : m'.pages.firstFrame = m.pages.firstFrame
  log : ∃ ps : List ℕ, m'.log = m.log ++ ps.map (fun p => .free (frameOf p)) ∧
    m'.pages.freeFrames = m.pages.freeFrames + ps.length ∧ ∀ p, p ∈ ps ↔ role' p ≠ role p

namespace Shrinks

variable {P : Places}

theorem refl (hg : Good role m) : Shrinks P role m role m :=
  ⟨hg, fun _ => Or.inl rfl, by simp, fun _ _ _ _ _ => Or.inl rfl, fun _ _ => rfl, rfl, rfl, rfl, rfl, [],
    by simp⟩

theorem keep (h : Shrinks P role m role' m') {p : ℕ} (hp : role' p ≠ .other) : role' p = role p := by
  rcases h.drop p with h1 | ⟨h1, -⟩
  · exact h1
  · exact absurd h1 hp

theorem below (h : Shrinks P role m role' m') {p : ℕ} (hb : Below role' P p) : Below role P p := by
  obtain ⟨r, k, hP, hu⟩ := hb
  exact ⟨r, k, hP, hu.mono fun q hq => (h.keep hq).symm⟩

theorem root_iff (h : Shrinks P role m role' m') (p : ℕ) : role' p = .root ↔ role p = .root := by
  rcases h.drop p with h1 | ⟨h1, r, k, -, hu⟩
  · rw [h1]
  · rw [h1]
    simp only [reduceCtorEq, false_iff]
    exact fun hr => hu.not_root (Or.inl hr)

theorem trans (h : Shrinks P role m role' m') (h' : Shrinks P role' m' role'' m'') :
    Shrinks P role m role'' m'' := by
  refine ⟨h'.good, ?_, ?_, ?_, ?_, h'.kernelRootPa.trans h.kernelRootPa, h'.account.trans h.account,
    h'.asks.trans h.asks, h'.firstFrame.trans h.firstFrame, ?_⟩
  · intro p
    rcases h'.drop p with h1 | ⟨h1, hb⟩
    · rw [h1]
      exact h.drop p
    · exact Or.inr ⟨h1, h.below hb⟩
  · intro p
    rw [h'.held, h.held]
    constructor
    · rintro ⟨⟨h1, h2⟩, h3⟩
      exact ⟨h1, h3.trans h2⟩
    · rintro ⟨h1, h2⟩
      rcases h.drop p with h3 | ⟨h3, hb⟩
      · exact ⟨⟨h1, h3⟩, h2.trans h3.symm⟩
      · -- a page dropped first stays dropped
        obtain ⟨r, k, -, hu⟩ := hb
        have h4 : role'' p = .other := by
          rcases h'.drop p with h5 | h5
          · rw [h5, h3]
          · exact h5.1
        exact absurd (h2.symm.trans h4) hu.ne_other
  · intro t l i ht hi
    have ht' : (role' t).level = some l := by rw [← h'.keep (Role.ne_other_of_level ht)]; exact ht
    rcases h'.pte t l i ht hi with he' | ⟨he', hat⟩
    · rw [he']
      exact h.pte t l i ht' hi
    · exact Or.inr ⟨he', hat.imp_right h.below⟩
  · intro i hi
    rw [← h.kernel i hi, ← h.kernelRootPa]
    exact h'.kernel i hi
  · obtain ⟨ps, h1, h2, h3⟩ := h.log
    obtain ⟨ps', h1', h2', h3'⟩ := h'.log
    refine ⟨ps ++ ps', ?_, ?_, ?_⟩
    · rw [h1', h1]
      simp
    · simp only [List.length_append]
      omega
    · intro p
      rw [List.mem_append, h3, h3']
      rcases h.drop p with h4 | ⟨h4, r, k, -, hu⟩
      · rw [h4]
        tauto
      · have h5 : role'' p = .other := by
          rcases h'.drop p with h5 | h5
          · rw [h5, h4]
          · exact h5.1
        have h6 := hu.ne_other
        rw [h4, h5]
        exact iff_of_true (Or.inl (Ne.symm h6)) (Ne.symm h6)

end Shrinks

/-- The kernel root has nothing below a process root. -/
theorem Under.not_kernel_child (ht : Tables role m) {r k q l i : ℕ} (hr : role r = .root)
    (hu : Under role r k q) (hq : role q = .child l m.kernelRootPa i) : False := by
  have hl := (ht.up q l _ i hq).1
  rw [ht.kroot_level, Option.some.injEq] at hl
  subst hl
  have he := (hu.unique ht (.top hq)).1
  have := (ht.kroot r).mpr he
  simp [hr] at this

section FreeUserSpace

variable {r : ℕ}

/-- The loops return exactly the frames of the window, each once. -/
theorem freeUserSpace_frames (hg : Good role m) (hr : role r = .root)
    (hv : pteValid (m.pte r userRootSlot) = true) :
    Prog.Wp (freeUserSpace r) m (fun _ m' =>
      ∃ fs m1, Freeing m fs m1 ∧ (∀ q, Under role r userRootSlot q ↔ q ∈ fs) ∧
        m' = m1.setPte r userRootSlot 0) Prog.Never := by
  have hrl : (role r).level = some 2 := by rw [hr]; rfl
  have hns : ¬ Shared role m r userRootSlot := fun hs => hs.2.1 rfl
  have h1 := ((hg.tables.down r 2 userRootSlot hrl (by decide) hv hns).1 (by omega)).2
  have hrange : ∀ i ∈ List.range 512, i < 512 := fun i hi => List.mem_range.mp hi
  unfold freeUserSpace
  rw [Prog.wp_bind, Prog.wp_get]
  dsimp only
  simp only [hv, Bool.not_true, Bool.false_eq_true, if_false]
  generalize pteAddr (m.pte r userRootSlot) = l1 at h1 ⊢
  have hmem : ∀ q, Under role r userRootSlot q ↔
      q ∈ tableFrames m l1 (List.range 512) ++ [l1] := fun q => under_window_iff hg.tables hr h1
  have hheld : ∀ q ∈ tableFrames m l1 (List.range 512) ++ [l1], m.Held q := fun q hq =>
    hg.tables.held q ((hmem q).mpr hq).ne_other
  have hnd := tableFrames_nodup hg.tables hr h1 hrange List.nodup_range
  have hn1 : l1 ∉ tableFrames m l1 (List.range 512) := by
    intro hq
    obtain ⟨i, -, h | ⟨l0, i0, -, -, h⟩⟩ := (mem_tableFrames hg.tables hr h1 hrange).mp hq
    · rw [h1] at h
      simp [Role.child] at h
    · rw [h1] at h
      simp [Role.child] at h
  rw [Prog.wp_bind]
  refine (freeTables_spec (List.range 512) [] (.nil hg)
    (fun q hq => hheld q (List.mem_append_left _ hq))
    (by rw [List.nil_append]; exact hnd)).mono (fun _ m1 hf => ?_) fun _ h => h
  rw [List.nil_append] at hf
  rw [Prog.wp_bind]
  refine (hf.step (hheld l1 (List.mem_append_right _ (List.mem_singleton_self l1))) hn1).mono (fun _ m2 hf2 => ?_) fun _ h => h
  rw [wp_writePte]
  exact ⟨_, m2, hf2, hmem, rfl⟩

/-- Clearing the slot after its frames were returned. -/
theorem Freeing.drop_window {fs : List ℕ} {m1 : Machine} (hg : Good role m) (hr : role r = .root)
    (hv : pteValid (m.pte r userRootSlot) = true) (hf : Freeing m fs m1)
    (hmem : ∀ q, Under role r userRootSlot q ↔ q ∈ fs) :
    Drop role m (Under role r userRootSlot) (m1.setPte r userRootSlot 0) := by
  have hrl : (role r).level = some 2 := by rw [hr]; rfl
  have hns : ¬ Shared role m r userRootSlot := fun hs => hs.2.1 rfl
  have h1 := ((hg.tables.down r 2 userRootSlot hrl (by decide) hv hns).1 (by omega)).2
  refine ⟨hg.tables, hf.kernelRootPa,
    fun hu => hu.not_root (Or.inr ((hg.tables.kroot _).mpr rfl)),
    fun q l i hq hu => hu.not_kernel_child hg.tables hr hq,
    fun q l t i hq hu => .step hq hu, ?_, ?_, ?_⟩
  · intro p hp hu
    exact (hf.held p).mpr ⟨hg.tables.held p hp, (hmem p).not.mp hu⟩
  · intro t l i ht hS hi hno
    have hne : t ≠ r ∨ i ≠ userRootSlot := by
      by_contra hc
      push Not at hc
      obtain ⟨rfl, rfl⟩ := hc
      obtain rfl : l = 2 := by simpa using ht.symm.trans hrl
      exact hno _ (.top h1) h1
    rw [m1.pte_setPte_ne 0 (hg.tables.aligned hrl) (hg.tables.aligned ht) (by decide) hi hne]
    exact hf.pte t i
  · intro q l t i hq hu hS
    cases hu with
    | top hq' =>
      obtain ⟨-, rfl, rfl⟩ := Role.child_inj (hq.symm.trans hq')
      rw [m1.pte_setPte_self _ _ (by norm_num)]
      rfl
    | step hq' hu' =>
      obtain ⟨-, rfl, -⟩ := Role.child_inj (hq.symm.trans hq')
      exact absurd hu' hS

/-- An empty slot has nothing below it. -/
theorem Tables.empty_slot (ht : Tables role m) {k q : ℕ} (hv : pteValid (m.pte r k) = false)
    (hu : Under role r k q) : False := by
  induction hu with
  | top hq =>
    have := (ht.up _ 2 r k hq).2.2.1
    simp [hv] at this
  | step _ _ ih => exact ih

open Classical in
/-- The teardown removes the user window of `r` and nothing else. -/
theorem freeUserSpace_spec (hg : Good role m) (hr : role r = .root) :
    Prog.Wp (freeUserSpace r) m (fun _ m' =>
      ∃ role', Shrinks (Window r) role m role' m' ∧ pteValid (m'.pte r userRootSlot) = false ∧
        ∀ p, p % pageSize = 0 → p ≠ r → AgreeOn m.mem m'.mem p pageSize) Prog.Never := by
  by_cases hv : pteValid (m.pte r userRootSlot) = true
  · refine (freeUserSpace_frames hg hr hv).mono ?_ fun _ h => h
    rintro _ m' ⟨fs, m1, hf, hmem, rfl⟩
    have hrl : (role r).level = some 2 := by rw [hr]; rfl
    have hself : (m1.setPte r userRootSlot 0).pte r userRootSlot = 0 :=
      m1.pte_setPte_self r _ (by norm_num)
    have hother : ∀ t l i, (role t).level = some l → i < 512 → (t ≠ r ∨ i ≠ userRootSlot) →
        (m1.setPte r userRootSlot 0).pte t i = m.pte t i := by
      intro t l i ht hi hne
      rw [m1.pte_setPte_ne 0 (hg.tables.aligned hrl) (hg.tables.aligned ht) (by decide) hi hne]
      exact hf.pte t i
    have hrole : ∀ p, Drop.newRole role (Under role r userRootSlot) p = role p ↔
        ¬ Under role r userRootSlot p := by
      intro p
      by_cases hu : Under role r userRootSlot p
      · simp [Drop.newRole, hu, Ne.symm hu.ne_other]
      · simp [Drop.newRole, hu]
    have hagree : ∀ p, p % pageSize = 0 → p ≠ r →
        AgreeOn m.mem (m1.setPte r userRootSlot 0).mem p pageSize := by
      intro p hp hne b h1 h2
      have hd := frames_disjoint hp (hg.tables.aligned hrl) hne
      rw [← hf.mem]
      simp only [Machine.setPte, writeWord, userRootSlot, pageSize] at *
      rw [if_neg (by omega)]
    refine ⟨Drop.newRole role (Under role r userRootSlot), ⟨⟨(hf.drop_window hg hr hv hmem).tables',
      hf.consistent, hf.recorded.balanced, hf.recorded.held⟩, ?_, ?_, ?_, ?_, hf.kernelRootPa,
      hf.account, hf.asks, hf.firstFrame, fs, hf.log, hf.freeFrames, ?_⟩, ?_⟩
    · intro p
      by_cases hu : Under role r userRootSlot p
      · exact Or.inr ⟨by simp [Drop.newRole, hu], r, userRootSlot, ⟨rfl, rfl⟩, hu⟩
      · exact Or.inl ((hrole p).mpr hu)
    · intro p
      rw [hrole, hmem]
      exact hf.held p
    · intro t l i ht hi
      have hS : ¬ Under role r userRootSlot t := by
        intro hu
        simp [Drop.newRole, hu, Role.level] at ht
      rw [(hrole t).mpr hS] at ht
      by_cases hc : t = r ∧ i = userRootSlot
      · obtain ⟨rfl, rfl⟩ := hc
        exact Or.inr ⟨hself, Or.inl ⟨rfl, rfl⟩⟩
      · exact Or.inl (hother t l i ht hi (by tauto))
    · intro i hi
      exact hother _ _ i hg.tables.kroot_level hi (Or.inl (hg.root_ne hr).symm)
    · intro p
      rw [← hmem p, Ne, hrole, not_not]
    · rw [hself]
      exact ⟨rfl, fun p hp hne b h1 h2 => hagree p hp hne b h1 h2⟩
  · rw [Bool.not_eq_true] at hv
    unfold freeUserSpace
    rw [Prog.wp_bind, Prog.wp_get]
    simp only [hv, Bool.not_false, if_true, Prog.wp_pure]
    exact ⟨role, .refl hg, trivial, fun _ _ _ _ _ _ => rfl⟩

end FreeUserSpace

/-! ### Releasing a root -/

/-- The root `r` and everything that hangs below its own entries. -/
def TreeOf (role : ℕ → Role) (r p : ℕ) : Prop := p = r ∨ ∃ k, Under role r k p

section Release

variable {r : ℕ}

open Classical in
/-- A root was returned; what still hung below it is no longer part of the
forest. -/
structure Released (r : ℕ) (role : ℕ → Role) (m : Machine) (m' : Machine) : Prop where
  freed : Freed m r m'
  good : Good (Drop.newRole role (TreeOf role r)) m'

open Classical in
theorem pageFree_root_spec (hg : Good role m) (hr : role r = .root) :
    Prog.Wp (pageFree r 1) m (fun _ m' => Released r role m m') Prog.Never := by
  have hheld : m.Held r := hg.tables.held r (by simp [hr])
  refine (pageFree_spec hg.pages hg.recorded hheld).mono (fun _ m' hf => ?_) fun _ h => h
  have hpte : ∀ t i, m'.pte t i = m.pte t i := by
    intro t i
    simp only [Machine.pte, hf.mem]
  have hnk : r ≠ m.kernelRootPa := hg.root_ne hr
  refine ⟨hf, ⟨?_, hf.consistent, hf.recorded⟩⟩
  have hdrop : Drop role m (TreeOf role r) m' := by
    refine ⟨hg.tables, hf.kernelRootPa, ?_, ?_, ?_, ?_, fun t l i _ _ _ _ => hpte t i, ?_⟩
    · rintro (he | ⟨k, hu⟩)
      · exact hnk he.symm
      · exact hu.not_root (Or.inr ((hg.tables.kroot _).mpr rfl))
    · rintro q l i hq (rfl | ⟨k, hu⟩)
      · simp [hr] at hq
        exact absurd hq.symm (by simp)
      · exact hu.not_kernel_child hg.tables hr hq
    · rintro q l t i hq (rfl | ⟨k, hu⟩)
      · have hl := (hg.tables.up q l t i hq).1
        rw [hr] at hl
        obtain rfl : l = 2 := by simpa [Role.level] using hl.symm
        exact Or.inr ⟨i, .top hq⟩
      · exact Or.inr ⟨k, .step hq hu⟩
    · intro p hp hS
      exact (hf.held p).mpr ⟨hg.tables.held p hp, fun he => hS (Or.inl he)⟩
    · rintro q l t i hq (rfl | ⟨k, hu⟩) hS
      · rw [hr] at hq
        exact absurd hq.symm (by simp)
      · cases hu with
        | top hq' =>
          obtain ⟨-, rfl, -⟩ := Role.child_inj (hq.symm.trans hq')
          exact absurd (Or.inl rfl) hS
        | step hq' hu' =>
          obtain ⟨-, rfl, -⟩ := Role.child_inj (hq.symm.trans hq')
          exact absurd (Or.inr ⟨k, hu'⟩) hS
  exact hdrop.tables'

end Release

/-! ### Unmapping -/

section Unmap

variable {r va : ℕ}

/-- A leaf entry that root `r` finds for `va` belongs to a user page. -/
def OwnLeaf (role : ℕ → Role) (m : Machine) (r va : ℕ) : Prop :=
  ∀ l0, Chain role m r va l0 → pteValid (m.pte l0 (vpn va 0)) = true →
    pteUser (m.pte l0 (vpn va 0)) = true

theorem ownLeaf_of_window (ht : Tables role m) (hr : role r = .root)
    (hva : vpn va 2 = userRootSlot) : OwnLeaf role m r va := by
  rintro l0 ⟨l1, h1, h0⟩ hv
  rw [hva, home_user] at h1
  exact (ht.user_leaf hr h1 h0 (vpn_lt va 0) hv).1

/-- The page `q` leaves its entry and its frame is returned. -/
theorem Freed.unlink {l0 i q : ℕ} (hg : Good role m) (hq : role q = .page l0 i)
    (hf : Freed (m.setPte l0 i 0) q m') :
    Drop role m (· = q) m' := by
  obtain ⟨hl, hi, hv, ha, hns, hu⟩ := hg.tables.up q 0 l0 i hq
  have hpte : ∀ t j, m'.pte t j = (m.setPte l0 i 0).pte t j := by
    intro t j
    simp only [Machine.pte, hf.mem]
  refine ⟨hg.tables, hf.kernelRootPa, ?_, ?_, ?_, ?_, ?_, ?_⟩
  · rintro rfl
    rw [(hg.tables.kroot _).mpr rfl] at hq
    simp at hq
  · rintro _ l j hq' rfl
    have hl' := (hg.tables.up _ l _ j hq').1
    rw [hg.tables.kroot_level, Option.some.injEq] at hl'
    subst hl'
    rw [hq] at hq'
    simp [Role.child] at hq'
  · rintro q' l t j hq' rfl
    have hl' := (hg.tables.up q' l _ j hq').1
    rw [hq] at hl'
    simp [Role.level] at hl'
  · intro p hp hne
    exact (hf.held p).mpr ⟨hg.tables.held p hp, hne⟩
  · intro t l j ht hne hj hno
    rw [hpte]
    refine m.pte_setPte_ne 0 (hg.tables.aligned hl) (hg.tables.aligned ht) hi hj ?_
    by_contra hc
    push Not at hc
    obtain ⟨rfl, rfl⟩ := hc
    obtain rfl : l = 0 := by simpa using ht.symm.trans hl
    exact hno q rfl hq
  · rintro _ l t j hq' rfl -
    obtain ⟨-, rfl, rfl⟩ := Role.child_inj (hq'.symm.trans (show role _ = .child 0 l0 i from hq))
    rw [hpte, m.pte_setPte_self _ _ (by norm_num)]
    rfl

/-- One round of `munmap`. -/
theorem unmap_free_spec (hg : Good role m) (hr : role r = .root) (hown : OwnLeaf role m r va) :
    Prog.Wp (do
      match ← PageTable.unmap r va with
      | some pa => pageFree pa 1
      | none => pure ()) m (fun _ m' =>
      ∃ role', Shrinks (SlotsOf r m.kernelRootPa (slotOf va)) role m role' m') Prog.Never := by
  unfold PageTable.unmap
  rw [Prog.wp_bind, Prog.wp_bind]
  refine (walk_spec false hg (Or.inl hr) fun he => absurd he (hg.root_ne hr)).mono ?_ fun _ h => h
  rintro res m1 ⟨role1, hw, hres⟩
  obtain ⟨rfl, rfl⟩ := hw.pure rfl
  cases res with
  | none => exact Prog.wp_pure.mpr (Prog.wp_pure.mpr ⟨_, .refl hg⟩)
  | some l0 =>
    dsimp only
    rw [Prog.wp_bind, Prog.wp_get]
    by_cases hv : pteValid (m1.pte l0 (vpn va 0)) = true
    · have hu := hown l0 hres hv
      have hl0 := hres.level
      have hi := vpn_lt va 0
      have hns : ¬ Shared role1 m1 l0 (vpn va 0) := by
        intro hs
        rw [hs.1] at hl0
        simp [Role.level] at hl0
      have hq : role1 (pteAddr (m1.pte l0 (vpn va 0))) = .page l0 (vpn va 0) :=
        ((hg.tables.down l0 0 _ hl0 hi hv hns).2 rfl).1 hu
      rw [if_pos hv, Prog.wp_bind, wp_writePte, Prog.wp_pure]
      dsimp only
      generalize pteAddr (m1.pte l0 (vpn va 0)) = q at hq ⊢
      have hheld : m1.Held q := hg.tables.held q (by simp [hq])
      have hrec : (m1.setPte l0 (vpn va 0) 0).Recorded :=
        ⟨hg.recorded.balanced, hg.recorded.held⟩
      refine (pageFree_spec (m := m1.setPte l0 (vpn va 0) 0) hg.pages hrec hheld).mono ?_ fun _ h => h
      intro _ m2 hf
      have hdrop := hf.unlink hg hq
      have hbelow : Below role1 (SlotsOf r m1.kernelRootPa (slotOf va)) l0 := hres.below rfl
      have hrole : ∀ p, Drop.newRole role1 (· = q) p = role1 p ↔ p ≠ q := by
        intro p
        by_cases he : p = q
        · simp [Drop.newRole, he, hq]
        · simp [Drop.newRole, he]
      have hpte : ∀ t j, m2.pte t j = (m1.setPte l0 (vpn va 0) 0).pte t j := by
        intro t j
        simp only [Machine.pte, hf.mem]
      have hother : ∀ t l j, (role1 t).level = some l → j < 512 → (t ≠ l0 ∨ j ≠ vpn va 0) →
          m2.pte t j = m1.pte t j := by
        intro t l j ht hj hne
        rw [hpte]
        exact m1.pte_setPte_ne 0 (hg.tables.aligned hl0) (hg.tables.aligned ht) hi hj hne
      refine ⟨Drop.newRole role1 (· = q), ⟨hdrop.tables', hf.consistent, hf.recorded⟩, ?_, ?_, ?_,
        ?_, hf.kernelRootPa, hf.account, hf.asks, hf.firstFrame, [q],
        by rw [List.map_singleton]; exact hf.log, hf.freeFrames, ?_⟩
      · intro p
        by_cases he : p = q
        · refine Or.inr ⟨by simp [Drop.newRole, he], ?_⟩
          obtain ⟨r', k, hP, hu'⟩ := hbelow
          exact ⟨r', k, hP, he ▸ .step (l := 0) hq hu'⟩
        · exact Or.inl ((hrole p).mpr he)
      · intro p
        rw [hf.held, hrole]
        exact Iff.rfl
      · intro t l j ht hj
        have hne : t ≠ q := by
          rintro rfl
          simp [Drop.newRole, Role.level] at ht
        rw [(hrole t).mpr hne] at ht
        by_cases hc : t = l0 ∧ j = vpn va 0
        · obtain ⟨rfl, rfl⟩ := hc
          refine Or.inr ⟨?_, Or.inr hbelow⟩
          rw [hpte, m1.pte_setPte_self _ _ (by norm_num)]
        · exact Or.inl (hother t l j ht hj (by tauto))
      · intro j hj
        refine hother _ _ j hg.tables.kroot_level hj (Or.inl ?_)
        rintro rfl
        rw [hg.tables.kroot_level] at hl0
        simp at hl0
      · intro p
        rw [List.mem_singleton, Ne, hrole, not_not]
    · rw [if_neg hv]
      exact Prog.wp_pure.mpr (Prog.wp_pure.mpr ⟨_, .refl hg⟩)

theorem Shrinks.widen {P Q : Places} (h : Shrinks P role m role' m') (hPQ : ∀ r k, P r k → Q r k) :
    Shrinks Q role m role' m' := by
  have hb : ∀ {q : ℕ}, Below role P q → Below role Q q := by
    rintro q ⟨r, k, hP, hu⟩
    exact ⟨r, k, hPQ r k hP, hu⟩
  refine ⟨h.good, ?_, h.held, ?_, h.kernel, h.kernelRootPa, h.account, h.asks, h.firstFrame, h.log⟩
  · intro p
    exact (h.drop p).imp_right fun h1 => ⟨h1.1, hb h1.2⟩
  · intro t l i ht hi
    exact (h.pte t l i ht hi).imp_right fun h1 => ⟨h1.1, h1.2.imp (hPQ t i) hb⟩

theorem Shrinks.ownLeaf {P : Places} (h : Shrinks P role m role' m')
    (hown : OwnLeaf role m r va) : OwnLeaf role' m' r va := by
  rintro l0 ⟨l1, h1, h0⟩ hv
  have hhome : home role' m' r (vpn va 2) = home role m r (vpn va 2) := by
    have hs : Shared role' m' r (vpn va 2) ↔ Shared role m r (vpn va 2) := by
      refine shared_congr (h.root_iff r) fun _ => ?_
      rw [h.kernelRootPa]
      exact h.kernel _ (vpn_lt va 2)
    by_cases hsh : Shared role m r (vpn va 2)
    · simp [home, hsh, hs.mpr hsh, h.kernelRootPa]
    · simp [home, hsh, hs.not.mpr hsh]
  have hc : Chain role m r va l0 := by
    refine ⟨l1, ?_, ?_⟩
    · rw [← h.keep (by simp [h1]), ← hhome]
      exact h1
    · rw [← h.keep (by simp [h0])]
      exact h0
  rcases h.pte l0 0 _ (by simp [h0, Role.level]) (vpn_lt va 0) with he | ⟨he, -⟩
  · rw [he] at hv ⊢
    exact hown l0 hc hv
  · rw [he] at hv
    simp at hv

/-- The pages of a range that starts at `va`. -/
def rangeVas (va pages : ℕ) : List ℕ := (List.range pages).map fun i => va + i * pageSize

theorem munmapPages_spec (pages : ℕ) (hg : Good role m) (hr : role r = .root)
    (hown : ∀ a ∈ rangeVas va pages, OwnLeaf role m r a) :
    Prog.Wp (munmapPages r va pages) m (fun _ m' =>
      ∃ role', Shrinks (SlotsOf r m.kernelRootPa (slotsOf (rangeVas va pages))) role m role' m')
      (fun f => f = .panic .overflow ∧ ∃ a ∈ rangeVas va pages, usizeBound ≤ a) := by
  unfold munmapPages
  have hloop : ∀ is, (∀ i ∈ is, i < pages) → ∀ {role' : ℕ → Role} {m' : Machine},
      Shrinks (SlotsOf r m.kernelRootPa (slotsOf (rangeVas va pages))) role m role' m' →
      Prog.Wp (Prog.each (fun i => do
        let page ← Prog.ofExcept (checkedAdd va (i * pageSize))
        match ← PageTable.unmap r page with
        | some pa => pageFree pa 1
        | none => pure ()) is) m' (fun _ m' => ∃ role',
          Shrinks (SlotsOf r m.kernelRootPa (slotsOf (rangeVas va pages))) role m role' m')
        (fun f => f = .panic .overflow ∧ ∃ a ∈ rangeVas va pages, usizeBound ≤ a) := by
    intro is his role' m' h
    induction is generalizing role' m' with
    | nil => exact Prog.wp_pure.mpr ⟨role', h⟩
    | cons i is ih =>
      have hmem : va + i * pageSize ∈ rangeVas va pages :=
        List.mem_map.mpr ⟨i, List.mem_range.mpr (his i (by simp)), rfl⟩
      rw [Prog.each, Prog.wp_bind, Prog.wp_bind, Prog.wp_ofExcept]
      cases ha : checkedAdd va (i * pageSize) with
      | error f =>
        refine ⟨Elf.checkedAdd_error ha, _, hmem, ?_⟩
        unfold checkedAdd at ha
        split_ifs at ha with hlt
        omega
      | ok page =>
        obtain ⟨-, rfl⟩ := checkedAdd_ok.mp ha
        refine Prog.Wp.mono (unmap_free_spec h.good ((h.root_iff r).mpr hr)
          (h.ownLeaf (hown _ hmem))) ?_ fun _ h => h.elim
        rintro _ m1 ⟨role1, h1⟩
        rw [h.kernelRootPa] at h1
        refine ih (fun j hj => his j (by simp [hj])) (h.trans (h1.widen ?_))
        rintro h k ⟨hk, hh⟩
        exact ⟨⟨_, hmem, hk⟩, hh⟩
  exact hloop _ (fun i hi => List.mem_range.mp hi) (.refl hg)

end Unmap

end LightOS
