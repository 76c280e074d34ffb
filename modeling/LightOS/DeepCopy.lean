import LightOS.Contents

/-!
# Fork copies an address space

`clone_user_space` walks the tables of the source and builds the copy with frames
and tables from the same allocator. The copy shows the same bytes with the same
permissions at every user address, the source is as it was, and no frame of one is
a frame of the other: whatever is written through one address space later, the
other one does not see it.
-/
namespace LightOS
open Lib PageAllocator

/-! ### The frames of a user slot -/

section Nodes

variable {role : ℕ → Role} {m : Machine} {r r' t : ℕ} {p p' : List ℕ}

/-- Paths of entry numbers, the last one first, to a root, the tables of its user
slot and their pages. -/
def UserPath (p : List ℕ) : Prop :=
  p.length ≤ 3 ∧ (∀ i ∈ p, i < 512) ∧ ∀ i ∈ p.getLast?, i = userRootSlot

theorem UserPath.tail {i : ℕ} (h : UserPath (i :: p)) : UserPath p := by
  refine ⟨?_, fun j hj => h.2.1 j (by simp [hj]), fun j hj => ?_⟩
  · have := h.1
    simp only [List.length_cons] at this
    omega
  · cases p with
    | nil => cases hj
    | cons a p => exact h.2.2 j (by rw [List.getLast?_cons_cons]; exact hj)

/-- The frame at the end of a path, by its place in the forest. -/
def NodeOf (role : ℕ → Role) (r : ℕ) : List ℕ → ℕ → Prop
  | [], t => t = r
  | i :: p, t => ∃ s, NodeOf role r p s ∧ role t = .child (2 - p.length) s i

theorem NodeOf.level (hr : role r = .root) (h : NodeOf role r p t) (hp : p.length ≤ 2) :
    (role t).level = some (2 - p.length) := by
  cases p with
  | nil =>
    obtain rfl : t = r := h
    rw [hr]
    rfl
  | cons i p =>
    obtain ⟨s, -, ht⟩ := h
    simp only [List.length_cons] at hp ⊢
    rw [ht]
    obtain h0 | h1 : p.length = 0 ∨ p.length = 1 := by omega
    · rw [h0]
      rfl
    · rw [h1]
      rfl

/-- Every frame of a user slot has its place in the forest. -/
theorem Good.nodeOf (hg : Good role m) (hr : role r = .root) (hp : UserPath p)
    (h : tableAt m r p = some t) : NodeOf role r p t := by
  induction p generalizing t with
  | nil => exact (Option.some.inj h).symm
  | cons i p ih =>
    rw [tableAt, Option.bind_eq_some_iff] at h
    obtain ⟨s, hs, hc⟩ := h
    have hnode := ih hp.tail hs
    have hlen : p.length ≤ 2 := by
      have := hp.1
      simp only [List.length_cons] at this
      omega
    have hi := hp.2.1 i (by simp)
    have hlevel := hnode.level hr hlen
    rw [child] at hc
    by_cases hv : pteValid (m.pte s i) = true
    · rw [if_pos hv, Option.some.injEq] at hc
      subst hc
      have hns : ¬ Shared role m s i := by
        rintro ⟨hroot, hne, -⟩
        rw [hroot] at hlevel
        have h2 : 2 = 2 - p.length := Option.some.inj hlevel
        obtain rfl : p = [] := List.length_eq_zero_iff.mp (by omega)
        exact hne (hp.2.2 i rfl)
      refine ⟨s, hnode, ?_⟩
      obtain ⟨hup, hzero⟩ := hg.tables.down s _ i hlevel hi hv hns
      by_cases h0 : 2 - p.length = 0
      · -- a page: below the user slot every leaf is a user page
        have h2 : p.length = 2 := by omega
        obtain ⟨i1, i2, rfl⟩ := List.length_eq_two.mp h2
        obtain ⟨l1, ⟨l2, rfl, hl1⟩, hl0⟩ := hnode
        obtain rfl : i2 = userRootSlot := hp.2.2 i2 rfl
        exact (hg.tables.user_leaf hr hl1 hl0 hi hv).2
      · exact (hup (Nat.pos_of_ne_zero h0)).2
    · rw [if_neg hv] at hc
      cases hc

/-- A frame belongs to one root and is at the end of one path. -/
theorem NodeOf.unique (hr : role r = .root) (hr' : role r' = .root) (hp : p.length ≤ 3)
    (hp' : p'.length ≤ 3) (h : NodeOf role r p t) (h' : NodeOf role r' p' t) : r = r' ∧ p = p' := by
  induction p generalizing t p' with
  | nil =>
    obtain rfl : t = r := h
    cases p' with
    | nil => exact ⟨h', rfl⟩
    | cons i p' =>
      obtain ⟨s, -, hs⟩ := h'
      exact absurd (hs.symm.trans hr) (Role.child_ne_root _ _ _)
  | cons i p ih =>
    obtain ⟨s, hs, ht⟩ := h
    cases p' with
    | nil =>
      obtain rfl : t = r' := h'
      exact absurd (ht.symm.trans hr') (Role.child_ne_root _ _ _)
    | cons i' p' =>
      obtain ⟨s', hs', ht'⟩ := h'
      obtain ⟨hl, rfl, rfl⟩ := Role.child_inj (ht.symm.trans ht')
      simp only [List.length_cons] at hp hp'
      obtain ⟨rfl, rfl⟩ := ih (by omega) (by omega) hs hs'
      exact ⟨rfl, rfl⟩

end Nodes

/-! ### The copy loops -/

section Loops

variable {role role' role0 : ℕ → Role} {m m' m0 : Machine} {src dst va e0 l1 l0 i1 : ℕ}

/-- The work of a copy is behind the user slot. -/
abbrev userSlots : ℕ → Prop := (· = userRootSlot)

/-- A page of the source as it is to be in the copy. -/
def copyOf (m : Machine) (va e0 : ℕ) : PageSpec :=
  ⟨va, pteFlags e0, fun o => m.mem (pteAddr e0 + o)⟩

/-- One page is copied to a frame of its own. -/
theorem clonePage_filled {bytes : ℕ → UInt8} (hg : Good role m) (hr : role dst = .root)
    (hva : va % pageSize = 0) (hslot : vpn va 2 = userRootSlot) (hu : pteUser e0 = true)
    (hsrc : m.Held (pteAddr e0)) (hb : m.PageIs (pteAddr e0) bytes) :
    Prog.Wp (clonePage dst va e0) m (fun res m' =>
      FilledUpTo dst userSlots [⟨va, pteFlags e0, bytes⟩] res.isOk role m m') Prog.Never := by
  unfold clonePage
  refine (pageAlloc_one hg).bind fun res m1 h1 => ?_
  cases res with
  | none =>
    obtain ⟨rfl, -⟩ := h1
    exact Prog.wp_pure.mpr ⟨role, 0, .nil hg, by simp [isOk_error]⟩
  | some q =>
    dsimp only
    rw [Prog.wp_bind, Prog.wp_modify]
    have hgot : Got m q { m1 with mem := copyBytes m1.mem (pteAddr e0) q pageSize } := by
      refine h1.1.fill fun a ha => ?_
      simp only [copyBytes]
      rw [if_neg (by omega)]
    refine map_filled hg hgot (Or.inl hr) (fun he => absurd he (hg.root_ne hr)) hva ?_
      (pteFlags_spec hu).2 (fun o ho => ?_) hslot
    · rw [FlagsOk, pteFlags, pteFlags, Nat.and_assoc, Nat.and_self]
    · simp only [copyBytes]
      rw [if_pos ⟨by omega, by omega⟩, show pteAddr e0 + (q + o - q) = pteAddr e0 + o by omega]
      rw [h1.1.agree hsrc (pteAddr e0 + o) (by omega) (by omega), hb o ho]

/-- The copies of the pages of one level-0 table. -/
def leafCopies (m : Machine) (l0 i1 i0 : ℕ) : List PageSpec :=
  if pteValid (m.pte l0 i0) then [copyOf m (userVa i1 i0) (m.pte l0 i0)] else []

/-- The copies of the pages below entry `i1` of a level-1 table. -/
def tableCopies (m : Machine) (l1 i1 : ℕ) : List PageSpec :=
  if pteValid (m.pte l1 i1) then
    (List.range 512).flatMap (leafCopies m (pteAddr (m.pte l1 i1)) i1)
  else []

/-- The copies of all user pages of a root. -/
def userCopies (m : Machine) (src : ℕ) : List PageSpec :=
  if pteValid (m.pte src userRootSlot) then
    (List.range 512).flatMap (tableCopies m (pteAddr (m.pte src userRootSlot)))
  else []

/-- The state of a copy under way: pages have been added to `dst` and that is all. -/
def CopyState (dst : ℕ) (role0 : ℕ → Role) (m0 : Machine) (role : ℕ → Role) (m : Machine) : Prop :=
  ∃ ps, Filled dst userSlots ps role0 m0 role m

theorem Filled.window {ps : List PageSpec} (h : Filled dst userSlots ps role m role' m') :
    Grows (Window dst) role m role' m' :=
  h.grows.widen fun _ _ hp => SlotsOf.window (fun _ hk => hk) hp

/-- The source is not touched: its entries and the bytes of its pages stay. -/
theorem CopyState.source (h : CopyState dst role0 m0 role m) (hg : Good role0 m0)
    (hd : role0 dst = .root) (hne : src ≠ dst) {t k l i : ℕ} (hu : Under role0 src k t)
    (hl : (role0 t).level = some l) (hi : i < 512) : m.pte t i = m0.pte t i := by
  obtain ⟨ps, h⟩ := h
  exact h.window.other_window hg.tables hd hne hu hl hi

/-- Its pages keep their bytes. -/
theorem CopyState.pageIs (h : CopyState dst role0 m0 role m) (hg : Good role0 m0) {q t i : ℕ}
    (hq : role0 q = .page t i) : m.PageIs q fun o => m0.mem (q + o) := by
  obtain ⟨ps, h⟩ := h
  have hagree := h.data q (hg.tables.held q (by simp [hq])) (by rw [hq]; rfl)
  exact fun o ho => hagree (q + o) (by omega) (by omega)

theorem CopyState.next {ps : List PageSpec} (hg : Good role0 m0) (h : CopyState dst role0 m0 role m)
    (h' : Filled dst userSlots ps role m role' m') : CopyState dst role0 m0 role' m' := by
  obtain ⟨ps0, h⟩ := h
  exact ⟨ps0 ++ ps, h.append hg h'⟩

/-- The inner loop: the pages of one level-0 table. -/
theorem cloneTable_filled (hi1 : i1 < 512) (hg0 : Good role0 m0) (hs : role0 src = .root)
    (hd0 : role0 dst = .root) (hne : src ≠ dst) (h1 : role0 l1 = .table 1 src userRootSlot)
    (h0 : role0 l0 = .table 0 l1 i1) (hg : Good role m) (hd : role dst = .root)
    (hc : CopyState dst role0 m0 role m) : Prog.Wp (Prog.tryEach (fun i0 => do
      let m ← get
      let e0 := m.pte l0 i0
      if !pteValid e0 then return .ok ()
      clonePage dst (userVa i1 i0) e0) (List.range 512)) m (fun res m' =>
      FilledUpTo dst userSlots ((List.range 512).flatMap (leafCopies m0 l0 i1)) res.isOk role m m')
      Prog.Never := by
  refine filled_rounds (J := CopyState dst role0 m0) _ (List.range 512) hg hd hc
    (fun _ hc h => hc.next hg0 h) fun i0 hi0 role m hg hd hc => ?_
  have hi0 := List.mem_range.mp hi0
  have hentry : m.pte l0 i0 = m0.pte l0 i0 :=
    hc.source hg0 hd0 hne (.step (l := 1) h0 (.top h1)) (l := 0) (by simp [h0, Role.level]) hi0
  rw [Prog.wp_bind, Prog.wp_get]
  dsimp only
  rw [hentry]
  unfold leafCopies
  by_cases hv : pteValid (m0.pte l0 i0) = true
  · obtain ⟨hu, hpage⟩ := hg0.tables.user_leaf hs h1 h0 hi0 hv
    simp only [hv, Bool.not_true, Bool.false_eq_true, if_false, if_true]
    obtain ⟨ps, hf⟩ := hc
    refine clonePage_filled hg hd (userVa_aligned hi1 hi0) (vpn_userVa hi1 hi0).1 hu ?_
      (CopyState.pageIs ⟨ps, hf⟩ hg0 hpage)
    exact hf.grows.held _ (hg0.tables.held _ (by simp [hpage]))
  · rw [Bool.not_eq_true] at hv
    simp only [hv, Bool.not_false, if_true, Prog.wp_pure, Bool.false_eq_true, if_false]
    exact ⟨role, 0, .nil hg, fun _ => rfl⟩

/-- All user pages of the source are copied, in order. -/
theorem cloneUserSpace_filled (hg : Good role m) (hs : role src = .root) (hd : role dst = .root)
    (hne : src ≠ dst) : Prog.Wp (cloneUserSpace src dst) m (fun res m' =>
      FilledUpTo dst userSlots (userCopies m src) res.isOk role m m') Prog.Never := by
  unfold cloneUserSpace userCopies
  rw [Prog.wp_bind, Prog.wp_get]
  dsimp only
  by_cases hv : pteValid (m.pte src userRootSlot) = true
  · have hns : ¬ Shared role m src userRootSlot := fun hsh => hsh.2.1 rfl
    have h1 : role (pteAddr (m.pte src userRootSlot)) = .table 1 src userRootSlot :=
      ((hg.tables.down src 2 userRootSlot (by simp [hs, Role.level]) (by decide) hv hns).1
        (by omega)).2
    simp only [hv, Bool.not_true, Bool.false_eq_true, if_false, if_true]
    refine filled_rounds (J := CopyState dst role m) _ (List.range 512) hg hd ⟨[], .nil hg⟩
      (fun _ hc h => hc.next hg h) fun i1 hi1 role1 m1 hg1 hd1 hc => ?_
    have hi1 := List.mem_range.mp hi1
    have hentry : m1.pte (pteAddr (m.pte src userRootSlot)) i1 =
        m.pte (pteAddr (m.pte src userRootSlot)) i1 :=
      hc.source hg hd hne (.top h1) (l := 1) (by simp [h1, Role.level]) hi1
    rw [Prog.wp_bind, Prog.wp_get, hentry]
    unfold tableCopies
    by_cases hv1 : pteValid (m.pte (pteAddr (m.pte src userRootSlot)) i1) = true
    · have hns1 : ¬ Shared role m (pteAddr (m.pte src userRootSlot)) i1 := by
        intro hsh
        have := hsh.1.symm.trans h1
        simp at this
      obtain ⟨-, h0⟩ := (hg.tables.down _ 1 i1 (by simp [h1, Role.level]) hi1 hv1 hns1).1 (by omega)
      simp only [hv1, Bool.not_true, Bool.false_eq_true, if_false, if_true]
      exact cloneTable_filled hi1 hg hs hd hne h1 h0 hg1 hd1 hc
    · rw [Bool.not_eq_true] at hv1
      simp only [hv1, Bool.not_false, if_true, Prog.wp_pure, Bool.false_eq_true, if_false]
      exact ⟨role1, 0, .nil hg1, fun _ => rfl⟩
  · rw [Bool.not_eq_true] at hv
    simp only [hv, Bool.not_false, if_true, Prog.wp_pure, Bool.false_eq_true, if_false]
    exact ⟨role, 0, .nil hg, fun _ => rfl⟩

end Loops

/-! ### What the two address spaces show -/

section Views

variable {role role' : ℕ → Role} {m m' : Machine} {src dst r va : ℕ}

/-- What a user address shows: its permissions and the byte there. -/
def userView (m : Machine) (r va : ℕ) : Option (ℕ × UInt8) :=
  (translation m r va).map fun x => (x.2, m.mem (x.1 + va % pageSize))

/-- Growth in the window of one root does not show in another one. -/
theorem Grows.other_translation (h : Grows (Window dst) role m role' m') (hg : Good role m)
    (hd : role dst = .root) (hs : role src = .root) (hne : src ≠ dst) :
    LightOS.translation m' src va = LightOS.translation m src va := by
  refine h.translation hg (Or.inl hs) ?_
  rintro ⟨l0, hc, hv⟩
  have hhome : LightOS.home role m src (vpn va 2) ≠ dst := by
    unfold LightOS.home
    split_ifs
    · exact (hg.root_ne hd).symm
    · exact hne
  obtain ⟨l1, h1, h0⟩ := hc
  rw [h.home (vpn_lt va 2)] at h1
  have hunder : Under role' (LightOS.home role m src (vpn va 2)) (vpn va 2) l0 :=
    .step (l := 1) h0 (.top h1)
  have hold : role l0 ≠ .other := by
    intro ho
    obtain ⟨r', k', hP, hu⟩ := (h.fresh l0 ho (by simp [h0])).2
    exact hhome ((hunder.unique h.good.tables hu).1.trans hP.1)
  have hlevel : (role l0).level = some 0 := by
    rw [← h.keep l0 hold, h0]
    rfl
  have hc' := h.chain_reflect hg ⟨l1, (h.home (vpn_lt va 2)).symm ▸ h1, h0⟩ hlevel
  refine ⟨l0, hc', ?_⟩
  obtain ⟨l1', h1', h0'⟩ := hc'
  rw [← h.other_window hg.tables hd hhome (.step (l := 1) h0' (.top h1')) hlevel (vpn_lt va 0)]
  exact hv

/-- Tables that are not written lead to the same frames. -/
theorem tableAt_agree (hg : Good role m) (hr : role r = .root)
    (hpte : ∀ t l i, (role t).level = some l → i < 512 → m'.pte t i = m.pte t i) {p : List ℕ}
    (hp : UserPath p) : tableAt m' r p = tableAt m r p := by
  induction p with
  | nil => rw [tableAt, tableAt]
  | cons i p ih =>
    rw [tableAt, tableAt, ih hp.tail]
    cases hs : tableAt m r p with
    | none => rw [Option.bind_none, Option.bind_none]
    | some s =>
      have hlen := hp.1
      simp only [List.length_cons] at hlen
      have hlevel := (hg.nodeOf hr hp.tail hs).level hr (by omega)
      rw [Option.bind_some, Option.bind_some, child, child, hpte s _ i hlevel (hp.2.1 i (by simp))]

theorem userPath_window (hw : InWindow va) : UserPath [vpn va 1, vpn va 2] :=
  ⟨by simp, by simpa using ⟨vpn_lt va 1, vpn_lt va 2⟩, by simpa using vpn_window hw.1 hw.2⟩

/-- Writes to user pages change no translation. -/
theorem DataOnly.keeps_translation (h : DataOnly role m m') (hg : Good role m) (hr : role r = .root)
    (hw : InWindow va) : translation m' r va = translation m r va := by
  have hpte : ∀ t l i, (role t).level = some l → i < 512 → m'.pte t i = m.pte t i :=
    fun _ _ _ hl hi => h.pte hg.tables hl hi
  refine translation_eq ?_
  rw [leafEntry, leafEntry, tableAt_agree hg hr hpte (userPath_window hw)]
  cases hs : tableAt m r [vpn va 1, vpn va 2] with
  | none => rw [Option.elim_none, Option.elim_none]
  | some s =>
    have hlevel := (hg.nodeOf hr (userPath_window hw) hs).level hr le_rfl
    rw [Option.elim_some, Option.elim_some, hpte s _ _ hlevel (vpn_lt va 0)]

/-- A store to user address `va` of root `r`. -/
def writeVia (r va : ℕ) (b : UInt8) (m : Machine) : Machine :=
  (physical m r va).elim m fun pa => { m with mem := writeBytes m.mem pa [b] }

/-- A store goes to a page of its own root. -/
theorem writeVia_spec (hg : Good role m) (hr : role r = .root) (hw : InWindow va) (b : UInt8) :
    writeVia r va b m = m ∨ ∃ q l0 l1, role l1 = .table 1 r userRootSlot ∧
      role l0 = .table 0 l1 (vpn va 1) ∧ role q = .page l0 (vpn va 0) ∧
      writeVia r va b m = { m with mem := writeBytes m.mem (q + va % pageSize) [b] } := by
  cases ht : translation m r va with
  | none =>
    left
    rw [writeVia, physical, ht, Option.map_none, Option.elim_none]
  | some x =>
    obtain ⟨q, f⟩ := x
    obtain ⟨l1, l0, h1, h0, hq⟩ := hg.window_page hr hw ht
    refine Or.inr ⟨q, l0, l1, h1, h0, hq, ?_⟩
    rw [writeVia, physical, ht, Option.map_some, Option.elim_some]

theorem writeVia_dataOnly (hg : Good role m) (hr : role r = .root) (hw : InWindow va) (b : UInt8) :
    DataOnly role m (writeVia r va b m) := by
  rcases writeVia_spec hg hr hw b with he | ⟨q, l0, l1, -, -, hq, he⟩
  · rw [he]
    exact .refl role m
  · rw [he]
    have hlt : va % pageSize < pageSize := Nat.mod_lt _ (by decide)
    exact .store hq (by simpa using hlt)

/-- What is stored through one root is not seen through another one. -/
theorem writeVia_view (hg : Good role m) (hr : role r = .root) (hs : role src = .root)
    (hne : src ≠ r) (hw : InWindow va) {a : ℕ} (ha : InWindow a) (b : UInt8) :
    userView (writeVia r va b m) src a = userView m src a := by
  have htr := (writeVia_dataOnly hg hr hw b).keeps_translation hg hs ha
  unfold userView
  rw [htr]
  cases ht : translation m src a with
  | none => rw [Option.map_none, Option.map_none]
  | some x =>
    obtain ⟨q', f⟩ := x
    rcases writeVia_spec hg hr hw b with he | ⟨q, l0, l1, h1, h0, hq, he⟩
    · rw [he]
    · obtain ⟨l1', l0', h1', h0', hq'⟩ := hg.window_page hs ha ht
      have hqne : q' ≠ q := by
        rintro rfl
        obtain ⟨rfl, -⟩ := Role.page.inj (hq'.symm.trans hq)
        obtain ⟨-, rfl, -⟩ := Role.table.inj (h0'.symm.trans h0)
        exact hne (Role.table.inj (h1'.symm.trans h1)).2.1
      have hd := frames_disjoint (hg.tables.held q' (by simp [hq'])).aligned
        (hg.tables.held q (by simp [hq])).aligned hqne
      have hlt : va % pageSize < pageSize := Nat.mod_lt _ (by decide)
      have hlt' : a % pageSize < pageSize := Nat.mod_lt _ (by decide)
      rw [he, Option.map_some, Option.map_some]
      dsimp only
      rw [writeBytes, if_neg]
      simp only [List.length_singleton]
      omega

end Views

/-! ### The copy -/

section Copy

variable {role role' : ℕ → Role} {m m' m0 : Machine} {src dst r va : ℕ}

theorem samePage_userVa (hw : InWindow va) : SamePage va (userVa (vpn va 1) (vpn va 0)) := by
  obtain ⟨h2, h1, h0⟩ := vpn_userVa (vpn_lt va 1) (vpn_lt va 0)
  exact ⟨(vpn_window hw.1 hw.2).trans h2.symm, h1.symm, h0.symm⟩

/-- Every user page of the source is copied. -/
theorem copy_mem_userCopies (hg : Good role m) (hr : role src = .root) (hw : InWindow va) {q f : ℕ}
    (h : translation m src va = some (q, f)) :
    ⟨userVa (vpn va 1) (vpn va 0), f, fun o => m.mem (q + o)⟩ ∈ userCopies m src := by
  obtain ⟨l0, hc, hv, rfl, rfl⟩ := (hg.translation_iff (Or.inl hr)).mp h
  obtain ⟨hv2, hv1, hl0⟩ := (hg.chain_iff (Or.inl hr)).mp hc
  rw [vpn_window hw.1 hw.2] at hv2 hv1 hl0
  unfold userCopies
  rw [if_pos hv2]
  refine List.mem_flatMap.mpr ⟨vpn va 1, List.mem_range.mpr (vpn_lt va 1), ?_⟩
  unfold tableCopies
  rw [if_pos hv1]
  refine List.mem_flatMap.mpr ⟨vpn va 0, List.mem_range.mpr (vpn_lt va 0), ?_⟩
  unfold leafCopies
  rw [← hl0, if_pos hv]
  exact List.mem_singleton.mpr rfl

/-- Nothing else is: every copy is of a page that the source maps. -/
theorem of_mem_userCopies (hg : Good role m) (hr : role src = .root) {a : PageSpec}
    (ha : a ∈ userCopies m src) : translation m src a.va ≠ none := by
  unfold userCopies at ha
  split_ifs at ha with hv2
  · obtain ⟨i1, hi1, ha⟩ := List.mem_flatMap.mp ha
    unfold tableCopies at ha
    split_ifs at ha with hv1
    · obtain ⟨i0, hi0, ha⟩ := List.mem_flatMap.mp ha
      unfold leafCopies at ha
      split_ifs at ha with hv0
      · obtain rfl := List.mem_singleton.mp ha
        have hi1 := List.mem_range.mp hi1
        have hi0 := List.mem_range.mp hi0
        obtain ⟨h2, h1, h0⟩ := vpn_userVa hi1 hi0
        refine (hg.hasPage_iff (Or.inl hr)).mp ⟨_, (hg.chain_iff (Or.inl hr)).mpr ⟨?_, ?_, rfl⟩, ?_⟩
        · rw [copyOf, h2]
          exact hv2
        · rw [copyOf, h2, h1]
          exact hv1
        · rw [copyOf, h2, h1, h0]
          exact hv0
      · cases ha
    · cases ha
  · cases ha

/-- A fresh root maps nothing in the user window. -/
theorem FreshRoot.empty (h : FreshRoot role m dst m') (hw : InWindow va) :
    translation m' dst va = none := by
  refine translation_missing ?_
  rw [tableAt, tableAt, tableAt, Option.bind_some, child, vpn_window hw.1 hw.2, h.user,
    if_neg Bool.false_ne_true, Option.bind_none]

/-- Making a root changes no translation. -/
theorem FreshRoot.keeps_translation (h : FreshRoot role m dst m') (hg : Good role m)
    (hr : role r = .root) : translation m' r va = translation m r va := by
  have hgrows : Grows (Window dst) role m role m' := h.got.grows hg
  refine hgrows.translation hg (Or.inl hr) ?_
  rintro ⟨l0, hc, hv⟩
  obtain ⟨hold, hv'⟩ := h.got.sameLeaves hg l0 _ hc.level (vpn_lt va 0) hv
  exact ⟨l0, hgrows.chain_reflect hg hc hold, hv'⟩

/-- Nor does copying a space change those of the original. -/
theorem clone_keeps_source {m0 : Machine} (hg : Good role m0) (hs : role src = .root)
    {res : Except String Unit} (hnew : newUserRoot m0 = .ok (some dst, m))
    (hcopy : cloneUserSpace src dst m = .ok (res, m')) (va : ℕ) :
    translation m' src va = translation m0 src va := by
  have hfresh : FreshRoot role m0 dst m := (newUserRoot_spec hg).ok hnew
  have hne : src ≠ dst := by
    rintro rfl
    exact hfresh.got.free (hg.tables.held src (by simp [hs]))
  have hd1 : Function.update role dst .root dst = .root := Function.update_self _ _ _
  have hs1 : Function.update role dst .root src = .root := by
    rw [Function.update_of_ne hne]
    exact hs
  obtain ⟨role', n, hfill, -⟩ := (cloneUserSpace_filled hfresh.good hs1 hd1 hne).ok hcopy
  exact (hfill.window.other_translation hfresh.good hd1 hs1 hne).trans (hfresh.keeps_translation hg hs)

/-- Stores through two roots, in any order; the flag chooses the root. -/
def writeAll (r r' : ℕ) (ws : List (Bool × ℕ × UInt8)) (m : Machine) : Machine :=
  ws.foldl (fun m w => writeVia (if w.1 then r else r') w.2.1 w.2.2 m) m

theorem writeAll_good (hr : role src = .root) (hr' : role dst = .root)
    (ws : List (Bool × ℕ × UInt8)) (hws : ∀ w ∈ ws, InWindow w.2.1) (hg : Good role m) :
    Good role (writeAll src dst ws m) := by
  rw [writeAll]
  induction ws generalizing m with
  | nil =>
    rw [List.foldl_nil]
    exact hg
  | cons w ws ih =>
    have hroot : role (if w.1 then src else dst) = .root := by
      split_ifs
      · exact hr
      · exact hr'
    rw [List.foldl_cons]
    exact ih (fun w hw => hws w (by simp [hw]))
      ((writeVia_dataOnly hg hroot (hws w (by simp)) w.2.2).good hg)

/-- `dst` is a deep copy in `m'` of what `src` was in `m`. -/
structure Cloned (src dst : ℕ) (m m' : Machine) : Prop where
  same : ∀ va, InWindow va → userView m' dst va = userView m src va
  translations : ∀ va, translation m' src va = translation m src va
  contents : ∀ va, InWindow va → userView m' src va = userView m src va
  apart : ∀ p p' t t', UserPath p → UserPath p' → tableAt m' dst p = some t →
    tableAt m' src p' = some t' → t ≠ t'
  distinct : ∀ p p' t, UserPath p → UserPath p' → tableAt m' dst p = some t →
    tableAt m' dst p' = some t → p = p'
  independent : ∀ ws : List (Bool × ℕ × UInt8), (∀ w ∈ ws, InWindow w.2.1) →
    ∀ va a b, InWindow va → InWindow a →
      userView (writeVia dst va b (writeAll src dst ws m')) src a =
        userView (writeAll src dst ws m') src a ∧
      userView (writeVia src va b (writeAll src dst ws m')) dst a =
        userView (writeAll src dst ws m') dst a

/-- fork deep-copies the address space. -/
theorem cloneUserSpace_cloned (hg : Good role m0) (hs : role src = .root)
    (hnew : newUserRoot m0 = .ok (some dst, m))
    (hcopy : cloneUserSpace src dst m = .ok (.ok (), m')) : Cloned src dst m0 m' := by
  have hfresh : FreshRoot role m0 dst m := (newUserRoot_spec hg).ok hnew
  have hne : src ≠ dst := by
    rintro rfl
    exact hfresh.got.free (hg.tables.held src (by simp [hs]))
  have hg1 := hfresh.good
  have hd1 : Function.update role dst .root dst = .root := Function.update_self _ _ _
  have hs1 : Function.update role dst .root src = .root := by
    rw [Function.update_of_ne hne]
    exact hs
  obtain ⟨role', n, hfill, hn⟩ := (cloneUserSpace_filled hg1 hs1 hd1 hne).ok hcopy
  rw [hn rfl, List.take_length] at hfill
  have hg' := hfill.grows.good
  have hs' : role' src = .root := (hfill.grows.root_iff src).mpr hs1
  have hd' : role' dst = .root := (hfill.grows.root_iff dst).mpr hd1
  have htr : ∀ va, translation m src va = translation m0 src va := fun va =>
    hfresh.keeps_translation hg hs
  have htr' : ∀ va, translation m' src va = translation m src va := fun va =>
    hfill.window.other_translation hg1 hd1 hs1 hne
  -- the bytes of a source page, before, between and after
  have hbytes : ∀ {va q f}, InWindow va → translation m0 src va = some (q, f) →
      m.PageIs q (fun o => m0.mem (q + o)) ∧ m'.PageIs q fun o => m0.mem (q + o) := by
    intro va q f hw ht
    obtain ⟨l1, l0, -, -, hq⟩ := hg.window_page hs hw ht
    have hheld := hg.tables.held q (by simp [hq])
    have h1 : m.PageIs q fun o => m0.mem (q + o) := fun o ho =>
      hfresh.got.agree hheld (q + o) (by omega) (by omega)
    refine ⟨h1, h1.agree (hfill.data q ((hfresh.got.held q).mpr (Or.inl hheld)) ?_)⟩
    have hqd : q ≠ dst := by
      rintro rfl
      exact hfresh.got.free hheld
    rw [Function.update_of_ne hqd, hq]
    rfl
  have hlt : ∀ va, va % pageSize < pageSize := fun va => Nat.mod_lt _ (by decide)
  refine ⟨fun va hw => ?_, fun va => (htr' va).trans (htr va), fun va hw => ?_, ?_, ?_, ?_⟩
  · unfold userView
    cases ht : translation m0 src va with
    | none =>
      have hnone : translation m' dst va = none := by
        rw [hfill.other va fun a ha hsame => ?_]
        · exact hfresh.empty hw
        · refine of_mem_userCopies hg1 hs1 ha ?_
          rw [← hsame.translation, htr, ht]
      rw [hnone, Option.map_none, Option.map_none]
    | some x =>
      obtain ⟨q, f⟩ := x
      have hmem := copy_mem_userCopies hg1 hs1 hw ((htr va).trans ht)
      obtain ⟨q', t, i, hq', -, -, hpage⟩ := hfill.after _ hmem
      have hdst : translation m' dst va = some (q', f) := by
        rw [(samePage_userVa hw).translation]
        exact hq'
      rw [hdst, Option.map_some, Option.map_some]
      dsimp only
      rw [hpage _ (hlt va)]
      dsimp only
      rw [(hbytes hw ht).1 _ (hlt va)]
  · unfold userView
    rw [htr', htr]
    cases ht : translation m0 src va with
    | none => rw [Option.map_none, Option.map_none]
    | some x =>
      obtain ⟨q, f⟩ := x
      rw [Option.map_some, Option.map_some]
      dsimp only
      rw [(hbytes hw ht).2 _ (hlt va)]
  · rintro p p' t t' hp hp' ht ht' rfl
    exact hne ((hg'.nodeOf hd' hp ht).unique hd' hs' hp.1 hp'.1 (hg'.nodeOf hs' hp' ht')).1.symm
  · intro p p' t hp hp' ht ht'
    exact ((hg'.nodeOf hd' hp ht).unique hd' hd' hp.1 hp'.1 (hg'.nodeOf hd' hp' ht')).2
  · intro ws hws va a b hw ha
    have hgw := writeAll_good hs' hd' ws hws hg'
    exact ⟨writeVia_view hgw hd' hs' hne hw ha b, writeVia_view hgw hs' hd' hne.symm hw ha b⟩

/-- The address space of the first process is copied. -/
theorem cloneUserSpace_cloned_first : ∃ m0 m m' src dst va, InWindow va ∧
    userView m0 src va ≠ none ∧ newUserRoot m0 = .ok (some dst, m) ∧
    cloneUserSpace src dst m = .ok (.ok (), m') ∧ Cloned src dst m0 m' := by
  obtain ⟨k, p, h⟩ := exists_firstRun
  obtain ⟨role, hm⟩ := h.reached.memory
  have hs := hm.root _ p h.slot
  have hfree := h.room.free
  have hpages := h.room.pages
  obtain ⟨dst, m1, m2, -, h1, h2, -⟩ := clone_succeeds hm h.slot 2 (by omega)
  obtain ⟨va, hva⟩ := h.mappedPage
  obtain ⟨hwindow, x, hx⟩ : InWindow va ∧ ∃ x, translation k.machine p.rootPa va = some x := by
    have hready := hva 1 (by decide)
    have hstop := hready.stop
    exact ⟨⟨hready.start, by omega⟩,
      Option.isSome_iff_exists.mp (hready.mapped va le_rfl (by omega))⟩
  have hg := hm.good.account 2
  have hx' : translation { k.machine with account := 2 } p.rootPa va = some x := hx
  generalize { k.machine with account := 2 } = m0 at hg h1 hx'
  refine ⟨m0, m1, m2, p.rootPa, dst, va, hwindow, ?_, h1, h2, cloneUserSpace_cloned hg hs h1 h2⟩
  rw [userView, hx']
  exact nofun

end Copy

end LightOS
