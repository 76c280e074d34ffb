import LightOS.Mmu

/-!
# Which page is what

The page tables of all processes form a forest in physical memory: roots, the
tables and user pages below them, and the kernel subtrees that every root shares
by reference. A role map names the place of every page in that forest by the
entry that points to it. `Tables` says that roles and entries agree in both
directions, so two entries can never lead to the same page. Each of the few ways
the kernel edits the forest has one lemma here; the page-table operations are
then read as sequences of such edits.
-/
namespace LightOS
open Lib PageAllocator

/-- The place of a page in the forest. -/
inductive Role where
  /-- Free, reserved, kernel heap, device memory, or allocated and not linked. -/
  | other
  | root
  | kroot
  /-- Table of the given level under entry `i` of table `t`. -/
  | table (level t i : ℕ)
  /-- User page under entry `i` of the level-0 table `t`. -/
  | page (t i : ℕ)
  deriving DecidableEq

namespace Role

/-- Level of a table: 2 is a root. -/
def level : Role → Option ℕ
  | root => some 2
  | kroot => some 2
  | table l _ _ => some l
  | _ => none

/-- What entry `i` of a level-`l` table `t` points to. -/
def child : ℕ → ℕ → ℕ → Role
  | 0, t, i => page t i
  | l + 1, t, i => table l t i

theorem child_inj {l t i l' t' i' : ℕ} (h : child l t i = child l' t' i') :
    l = l' ∧ t = t' ∧ i = i' := by
  cases l <;> cases l' <;> simp_all [child]

@[simp] theorem child_ne_other (l t i : ℕ) : child l t i ≠ other := by cases l <;> simp [child]
@[simp] theorem child_ne_root (l t i : ℕ) : child l t i ≠ root := by cases l <;> simp [child]
@[simp] theorem child_ne_kroot (l t i : ℕ) : child l t i ≠ kroot := by cases l <;> simp [child]

theorem level_child {l t i n : ℕ} (h : (child l t i).level = some n) : l = n + 1 := by
  cases l with
  | zero => simp [child, level] at h
  | succ l =>
    simp only [child, level, Option.some.injEq] at h
    omega

theorem ne_other_of_level {r : Role} {l : ℕ} (h : r.level = some l) : r ≠ other := by
  rintro rfl
  simp [level] at h

/-- Every role is one of four shapes. -/
theorem shapes (r : Role) : r = other ∨ r = root ∨ r = kroot ∨ ∃ l t i, r = child l t i := by
  cases r with
  | other => simp
  | root => simp
  | kroot => simp
  | table l t i => exact Or.inr (Or.inr (Or.inr ⟨l + 1, t, i, rfl⟩))
  | page t i => exact Or.inr (Or.inr (Or.inr ⟨0, t, i, rfl⟩))

end Role

/-- Frame index of a physical address. -/
def frameOf (p : ℕ) : ℕ := (p - ramStart) / pageSize

/-- `p` is the address of an allocatable frame. -/
def Machine.IsFrame (m : Machine) (p : ℕ) : Prop :=
  p % pageSize = 0 ∧ ramStart + m.pages.firstFrame * pageSize ≤ p ∧ p < ramEnd

/-- An allocatable frame that is marked in use. -/
def Machine.Held (m : Machine) (p : ℕ) : Prop :=
  m.IsFrame p ∧ m.pages.bitmap (frameOf p) = true

theorem Machine.Held.aligned {m : Machine} {p : ℕ} (h : m.Held p) : p % pageSize = 0 := h.1.1

theorem Machine.IsFrame.lt {m : Machine} {p : ℕ} (h : m.IsFrame p) : p < 2 ^ 56 := by
  have := h.2.2
  simp only [ramEnd, ramStart, ramSize] at this
  omega

/-- Entry `i` of a process root is inherited from the kernel root. -/
def Shared (role : ℕ → Role) (m : Machine) (t i : ℕ) : Prop :=
  role t = .root ∧ i ≠ userRootSlot ∧ pteValid (m.pte m.kernelRootPa i) = true

/-- A level-0 table below the kernel root. -/
def KernelTable (role : ℕ → Role) (m : Machine) (t : ℕ) : Prop :=
  ∃ q i j, role t = .table 0 q j ∧ role q = .table 1 m.kernelRootPa i

/-- What a valid entry `e` at index `i` of a level-`l` table `t` must be. -/
def Points (role : ℕ → Role) (m : Machine) (l t i e : ℕ) : Prop :=
  (0 < l → pteLeaf e = false ∧ role (pteAddr e) = .child l t i) ∧
  (l = 0 → (pteUser e = true → role (pteAddr e) = .child 0 t i) ∧
    (pteUser e = false → KernelTable role m t))

/-- Roles and page-table entries agree. -/
structure Tables (role : ℕ → Role) (m : Machine) : Prop where
  held : ∀ p, role p ≠ .other → m.Held p
  kroot : ∀ p, role p = .kroot ↔ p = m.kernelRootPa
  kroot_user : pteValid (m.pte m.kernelRootPa userRootSlot) = false
  shared : ∀ t i, Shared role m t i → i < 512 → m.pte t i = m.pte m.kernelRootPa i
  level_le : ∀ t l, (role t).level = some l → l ≤ 2
  down : ∀ t l i, (role t).level = some l → i < 512 → pteValid (m.pte t i) = true →
    ¬ Shared role m t i → Points role m l t i (m.pte t i)
  up : ∀ q l t i, role q = .child l t i → (role t).level = some l ∧ i < 512 ∧
    pteValid (m.pte t i) = true ∧ pteAddr (m.pte t i) = q ∧ ¬ Shared role m t i ∧
    (l = 0 → pteUser (m.pte t i) = true)

namespace Tables

variable {role : ℕ → Role} {m m' : Machine}

theorem aligned (h : Tables role m) {t l : ℕ} (ht : (role t).level = some l) :
    t % pageSize = 0 := (h.held t (Role.ne_other_of_level ht)).aligned

/-- Edits outside the tables do not matter. -/
theorem of_agree (h : Tables role m) (hk : m'.kernelRootPa = m.kernelRootPa)
    (hheld : ∀ p, role p ≠ .other → m'.Held p)
    (hpte : ∀ t l i, (role t).level = some l → i < 512 → m'.pte t i = m.pte t i) :
    Tables role m' := by
  have hkl : (role m.kernelRootPa).level = some 2 := by rw [(h.kroot _).mpr rfl]; rfl
  have hkp : ∀ i, i < 512 → m'.pte m'.kernelRootPa i = m.pte m.kernelRootPa i := by
    intro i hi
    rw [hk]
    exact hpte _ _ i hkl hi
  have hsh : ∀ t i, i < 512 → (Shared role m' t i ↔ Shared role m t i) := by
    intro t i hi
    simp only [Shared, hkp i hi]
  have hkt : ∀ t, KernelTable role m' t ↔ KernelTable role m t := by
    intro t
    simp only [KernelTable, hk]
  refine ⟨hheld, fun p => by rw [hk]; exact h.kroot p, ?_, ?_, h.level_le, ?_, ?_⟩
  · rw [hkp _ (by decide)]
    exact h.kroot_user
  · intro t i hs hi
    have hs' := (hsh t i hi).mp hs
    have hl : (role t).level = some 2 := by rw [hs'.1]; rfl
    rw [hpte t 2 i hl hi, hkp i hi]
    exact h.shared t i hs' hi
  · intro t l i hl hi hv hs
    rw [hpte t l i hl hi] at hv ⊢
    obtain ⟨hpos, hzero⟩ := h.down t l i hl hi hv (fun hs' => hs ((hsh t i hi).mpr hs'))
    exact ⟨hpos, fun hz => ⟨(hzero hz).1, fun hu => (hkt t).mpr ((hzero hz).2 hu)⟩⟩
  · intro q l t i hq
    obtain ⟨hl, hi, hv, ha, hs, hu⟩ := h.up q l t i hq
    rw [hpte t l i hl hi]
    exact ⟨hl, hi, hv, ha, fun hs' => hs ((hsh t i hi).mp hs'), hu⟩

end Tables

section Edits

variable {role : ℕ → Role} {m m' : Machine}

/-- Inheritance from the kernel root depends only on who the roots are and on
the entries of the kernel root. -/
theorem shared_congr {role' : ℕ → Role} {t i : ℕ} (hr : role' t = .root ↔ role t = .root)
    (hp : role t = .root → m'.pte m'.kernelRootPa i = m.pte m.kernelRootPa i) :
    Shared role' m' t i ↔ Shared role m t i := by
  constructor
  · rintro ⟨h1, h2, h3⟩
    exact ⟨hr.mp h1, h2, by rw [← hp (hr.mp h1)]; exact h3⟩
  · rintro ⟨h1, h2, h3⟩
    exact ⟨hr.mpr h1, h2, by rw [hp h1]; exact h3⟩

theorem Tables.kroot_level (h : Tables role m) : (role m.kernelRootPa).level = some 2 := by
  rw [(h.kroot _).mpr rfl]
  rfl

/-- An edit of one entry `(t, i)` of a level-`l` table to the value `v`. -/
structure EntryEdit (role : ℕ → Role) (m : Machine) (l t i v : ℕ) : Prop where
  tables : Tables role m
  level : (role t).level = some l
  index : i < 512
  bound : v < usizeBound
  /-- The kernel root changes only while no process root exists. -/
  kernel : t = m.kernelRootPa → i ≠ userRootSlot ∧ ∀ p, role p ≠ .root

namespace EntryEdit

variable {l t i v : ℕ}

theorem self (h : EntryEdit role m l t i v) : (m.setPte t i v).pte t i = v :=
  m.pte_setPte_self t i h.bound

theorem other (h : EntryEdit role m l t i v) {t' j : ℕ} (ht : t' % pageSize = 0) (hj : j < 512)
    (hne : t' ≠ t ∨ j ≠ i) : (m.setPte t i v).pte t' j = m.pte t' j :=
  m.pte_setPte_ne v (h.tables.aligned h.level) ht h.index hj hne

theorem other_level (h : EntryEdit role m l t i v) {t' l' j : ℕ} (ht : (role t').level = some l')
    (hj : j < 512) (hne : t' ≠ t ∨ j ≠ i) : (m.setPte t i v).pte t' j = m.pte t' j :=
  h.other (h.tables.aligned ht) hj hne

/-- The kernel root's entries matter only when there are process roots, and then
they do not change. -/
theorem kernel_pte (h : EntryEdit role m l t i v) {t' j : ℕ} (hr : role t' = .root) (hj : j < 512) :
    (m.setPte t i v).pte m.kernelRootPa j = m.pte m.kernelRootPa j :=
  h.other_level h.tables.kroot_level hj (Or.inl fun he => (h.kernel he.symm).2 t' hr)

theorem kernel_user (h : EntryEdit role m l t i v) :
    pteValid ((m.setPte t i v).pte m.kernelRootPa userRootSlot) = false := by
  have hne : m.kernelRootPa ≠ t ∨ userRootSlot ≠ i := by
    by_cases he : t = m.kernelRootPa
    · exact Or.inr (h.kernel he).1.symm
    · exact Or.inl (Ne.symm he)
  rw [h.other_level h.tables.kroot_level (by decide) hne]
  exact h.tables.kroot_user

/-- With the roots unchanged, so is what they inherit. -/
theorem shared_iff (h : EntryEdit role m l t i v) {role' : ℕ → Role}
    (hr : ∀ p, role' p = .root ↔ role p = .root) {t' j : ℕ} (hj : j < 512) :
    Shared role' (m.setPte t i v) t' j ↔ Shared role m t' j :=
  shared_congr (hr t') fun hroot => h.kernel_pte hroot hj

/-- Inherited entries survive an edit of an entry that is not inherited. -/
theorem shared (h : EntryEdit role m l t i v) {role' : ℕ → Role}
    (hr : ∀ p, role' p = .root ↔ role p = .root) (hns : ¬ Shared role m t i) {t' j : ℕ}
    (hs : Shared role' (m.setPte t i v) t' j) (hj : j < 512) :
    (m.setPte t i v).pte t' j = (m.setPte t i v).pte m.kernelRootPa j := by
  have hs' := (h.shared_iff hr hj).mp hs
  have hl' : (role t').level = some 2 := by rw [hs'.1]; rfl
  have hne : t' ≠ t ∨ j ≠ i := by
    by_contra hc
    push Not at hc
    exact hns (hc.1 ▸ hc.2 ▸ hs')
  rw [h.other_level hl' hj hne, h.kernel_pte hs'.1 hj]
  exact h.tables.shared t' j hs' hj

end EntryEdit

/-- Link the page `q`, which has no place yet, below the empty entry `(t, i)`. -/
structure Link (role : ℕ → Role) (m : Machine) (l t i q v : ℕ) : Prop
    extends EntryEdit role m l t i v where
  empty : pteValid (m.pte t i) = false
  held : m.Held q
  fresh : role q = .other
  blank : l ≠ 0 → ∀ j, j < 512 → pteValid (m.pte q j) = false
  valid : pteValid v = true
  addr : pteAddr v = q
  inner : 0 < l → pteLeaf v = false
  user : l = 0 → pteUser v = true

namespace Link

variable {l t i q v : ℕ}

/-- Roles after the link. -/
abbrev newRole (role : ℕ → Role) (l t i q : ℕ) : ℕ → Role := Function.update role q (.child l t i)

theorem ne (h : Link role m l t i q v) : t ≠ q := by
  rintro rfl
  exact Role.ne_other_of_level h.level h.fresh

theorem keep (h : Link role m l t i q v) {p : ℕ} (hp : role p ≠ .other) :
    newRole role l t i q p = role p := by
  have : p ≠ q := by rintro rfl; exact hp h.fresh
  simp [newRole, this]

theorem roots (h : Link role m l t i q v) (p : ℕ) :
    newRole role l t i q p = .root ↔ role p = .root := by
  by_cases he : p = q
  · subst he
    simp [newRole, h.fresh]
  · simp [newRole, he]

theorem not_shared (h : Link role m l t i q v) : ¬ Shared role m t i := by
  intro hs
  have he := h.empty
  rw [h.tables.shared t i hs h.index] at he
  simp [hs.2.2] at he

theorem kernelTable (h : Link role m l t i q v) {t' : ℕ} (hk : KernelTable role m t') :
    KernelTable (newRole role l t i q) (m.setPte t i v) t' := by
  obtain ⟨q', i', j', h1, h2⟩ := hk
  exact ⟨q', i', j', by rw [h.keep (by simp [h1])]; exact h1,
    by rw [h.keep (by simp [h2])]; exact h2⟩

theorem points (h : Link role m l t i q v) {l' t' j e : ℕ} (hp : Points role m l' t' j e) :
    Points (newRole role l t i q) (m.setPte t i v) l' t' j e := by
  obtain ⟨hpos, hz⟩ := hp
  refine ⟨fun hl' => ?_, fun hl' => ⟨fun hu => ?_, fun hu => h.kernelTable ((hz hl').2 hu)⟩⟩
  · obtain ⟨h1, h2⟩ := hpos hl'
    exact ⟨h1, by rw [h.keep (by rw [h2]; simp)]; exact h2⟩
  · have h2 := (hz hl').1 hu
    rw [h.keep (by rw [h2]; simp)]
    exact h2

theorem points_new (h : Link role m l t i q v) :
    Points (newRole role l t i q) (m.setPte t i v) l t i v := by
  refine ⟨fun hpos => ⟨h.inner hpos, ?_⟩, fun hz => ⟨fun _ => ?_, fun hu => ?_⟩⟩
  · simp [newRole, h.addr]
  · subst hz
    simp [newRole, h.addr]
  · simp [h.user hz] at hu

theorem down (h : Link role m l t i q v) (t' l' j : ℕ)
    (hl : (newRole role l t i q t').level = some l') (hj : j < 512)
    (hv : pteValid ((m.setPte t i v).pte t' j) = true)
    (hs : ¬ Shared (newRole role l t i q) (m.setPte t i v) t' j) :
    Points (newRole role l t i q) (m.setPte t i v) l' t' j ((m.setPte t i v).pte t' j) := by
  by_cases he : t' = q
  · -- the new page is blank, so it has no valid entry
    subst he
    rw [newRole, Function.update_self] at hl
    have hl0 := Role.level_child hl
    rw [h.other h.held.aligned hj (Or.inl h.ne.symm), h.blank (by omega) j hj] at hv
    exact absurd hv (by simp)
  · rw [newRole, Function.update_of_ne he] at hl
    by_cases hti : t' = t ∧ j = i
    · obtain ⟨rfl, rfl⟩ := hti
      obtain rfl : l' = l := by simpa using hl.symm.trans h.level
      rw [h.self]
      exact h.points_new
    · have hne : t' ≠ t ∨ j ≠ i := by tauto
      rw [h.other_level hl hj hne] at hv ⊢
      exact h.points (h.tables.down t' l' j hl hj hv fun hs' => hs ((h.shared_iff h.roots hj).mpr hs'))

theorem up (h : Link role m l t i q v) (p l' t' j : ℕ)
    (hp : newRole role l t i q p = .child l' t' j) :
    (newRole role l t i q t').level = some l' ∧ j < 512 ∧
      pteValid ((m.setPte t i v).pte t' j) = true ∧ pteAddr ((m.setPte t i v).pte t' j) = p ∧
      ¬ Shared (newRole role l t i q) (m.setPte t i v) t' j ∧
      (l' = 0 → pteUser ((m.setPte t i v).pte t' j) = true) := by
  by_cases he : p = q
  · subst he
    rw [newRole, Function.update_self] at hp
    obtain ⟨rfl, rfl, rfl⟩ := Role.child_inj hp
    rw [h.self, newRole, Function.update_of_ne h.ne]
    exact ⟨h.level, h.index, h.valid, h.addr,
      fun hs => h.not_shared ((h.shared_iff h.roots h.index).mp hs), h.user⟩
  · rw [newRole, Function.update_of_ne he] at hp
    obtain ⟨h1, h2, h3, h4, h5, h6⟩ := h.tables.up p l' t' j hp
    have hne : t' ≠ t ∨ j ≠ i := by
      by_contra hc
      push Not at hc
      obtain ⟨rfl, rfl⟩ := hc
      simp [h.empty] at h3
    rw [h.other_level h1 h2 hne, h.keep (Role.ne_other_of_level h1)]
    exact ⟨h1, h2, h3, h4, fun hs => h5 ((h.shared_iff h.roots h2).mp hs), h6⟩

/-- The forest after a link. -/
theorem tables' (h : Link role m l t i q v) :
    Tables (newRole role l t i q) (m.setPte t i v) := by
  refine ⟨?_, ?_, h.kernel_user, fun t' j hs hj => h.shared h.roots h.not_shared hs hj, ?_,
    h.down, h.up⟩
  · intro p hp
    by_cases he : p = q
    · rw [he]; exact h.held
    · exact h.tables.held p (by simpa [newRole, he] using hp)
  · intro p
    change _ ↔ p = m.kernelRootPa
    by_cases he : p = q
    · subst he
      have hne : p ≠ m.kernelRootPa := by
        rintro rfl
        simpa [(h.tables.kroot _).mpr rfl] using h.fresh
      simp [newRole, hne]
    · simpa [newRole, he] using h.tables.kroot p
  · intro t' l' hl'
    by_cases he : t' = q
    · subst he
      rw [newRole, Function.update_self] at hl'
      have := Role.level_child hl'
      have := h.tables.level_le t l h.level
      omega
    · exact h.tables.level_le t' l' (by simpa [newRole, he] using hl')

end Link

/-- A leaf without the U bit goes into an empty entry of a kernel table. -/
theorem EntryEdit.kernelLeaf {t i v : ℕ} (h : EntryEdit role m 0 t i v)
    (he : pteValid (m.pte t i) = false) (hu : pteUser v = false)
    (hk : KernelTable role m t) : Tables role (m.setPte t i v) := by
  have hroots : ∀ p, role p = .root ↔ role p = .root := fun _ => Iff.rfl
  have hns : ¬ Shared role m t i := by
    intro hs
    have hl := h.level
    simp [hs.1, Role.level] at hl
  refine ⟨h.tables.held, h.tables.kroot, h.kernel_user,
    fun t' j hs hj => h.shared hroots hns hs hj, h.tables.level_le, ?_, ?_⟩
  · intro t' l' j hl hj hv hs
    by_cases hti : t' = t ∧ j = i
    · obtain ⟨rfl, rfl⟩ := hti
      obtain rfl : l' = 0 := by simpa using hl.symm.trans h.level
      rw [h.self]
      exact ⟨fun h0 => absurd h0 (by simp), fun _ => ⟨fun hu' => by simp [hu] at hu', fun _ => hk⟩⟩
    · rw [h.other_level hl hj (by tauto)] at hv ⊢
      exact h.tables.down t' l' j hl hj hv fun hs' => hs ((h.shared_iff hroots hj).mpr hs')
  · intro q l' t' j hq
    obtain ⟨h1, h2, h3, h4, h5, h6⟩ := h.tables.up q l' t' j hq
    have hne : t' ≠ t ∨ j ≠ i := by
      by_contra hc
      push Not at hc
      obtain ⟨rfl, rfl⟩ := hc
      simp [he] at h3
    rw [h.other_level h1 h2 hne]
    exact ⟨h1, h2, h3, h4, fun hs => h5 ((h.shared_iff hroots h2).mp hs), h6⟩

/-- Take the pages in `S` out of the forest: whatever hangs below them goes too,
and every entry that led into `S` from outside has been cleared. -/
structure Drop (role : ℕ → Role) (m : Machine) (S : ℕ → Prop) (m' : Machine) : Prop where
  tables : Tables role m
  root : m'.kernelRootPa = m.kernelRootPa
  kernel : ¬ S m.kernelRootPa
  kernel_child : ∀ q l i, role q = .child l m.kernelRootPa i → ¬ S q
  closed : ∀ q l t i, role q = .child l t i → S t → S q
  held : ∀ p, role p ≠ .other → ¬ S p → m'.Held p
  same : ∀ t l i, (role t).level = some l → ¬ S t → i < 512 →
    (∀ q, S q → role q ≠ .child l t i) → m'.pte t i = m.pte t i
  cut : ∀ q l t i, role q = .child l t i → S q → ¬ S t → pteValid (m'.pte t i) = false

namespace Drop

variable {S : ℕ → Prop} [DecidablePred S]

/-- Roles after the pages in `S` are gone. -/
abbrev newRole (role : ℕ → Role) (S : ℕ → Prop) [DecidablePred S] : ℕ → Role :=
  fun p => if S p then .other else role p

omit [DecidablePred S] in
/-- The kernel root points only to kernel tables, so it loses nothing. -/
theorem kernel_same (h : Drop role m S m') {i : ℕ} (hi : i < 512) :
    m'.pte m.kernelRootPa i = m.pte m.kernelRootPa i :=
  h.same _ _ i h.tables.kroot_level h.kernel hi fun q hq he => h.kernel_child q _ i he hq

theorem tables' (h : Drop role m S m') : Tables (newRole role S) m' := by
  have hkp : ∀ i, i < 512 → m'.pte m'.kernelRootPa i = m.pte m.kernelRootPa i := by
    intro i hi
    rw [h.root]
    exact h.kernel_same hi
  have hkeep : ∀ p, newRole role S p ≠ .other → ¬ S p ∧ newRole role S p = role p := by
    intro p hp
    by_cases hs : S p
    · simp [newRole, hs] at hp
    · exact ⟨hs, by simp [newRole, hs]⟩
  have hsh : ∀ t i, ¬ S t → i < 512 → (Shared (newRole role S) m' t i ↔ Shared role m t i) := by
    intro t i hs hi
    exact shared_congr (by simp [newRole, hs]) fun _ => hkp i hi
  refine ⟨?_, ?_, ?_, ?_, ?_, ?_, ?_⟩
  · intro p hp
    obtain ⟨hs, he⟩ := hkeep p hp
    exact h.held p (by rwa [he] at hp) hs
  · intro p
    rw [h.root]
    by_cases hs : S p
    · have hne : p ≠ m.kernelRootPa := by
        rintro rfl
        exact h.kernel hs
      simp [newRole, hs, hne]
    · simpa [newRole, hs] using h.tables.kroot p
  · rw [hkp _ (by decide)]
    exact h.tables.kroot_user
  · intro t i hsr hi
    have hst : ¬ S t := (hkeep t (by simp [hsr.1])).1
    have hsr' := (hsh t i hst hi).mp hsr
    have hl : (role t).level = some 2 := by rw [hsr'.1]; rfl
    have hno : ∀ q, S q → role q ≠ .child 2 t i := by
      intro q _ hq
      exact (h.tables.up q 2 t i hq).2.2.2.2.1 hsr'
    rw [h.same t 2 i hl hst hi hno, hkp i hi]
    exact h.tables.shared t i hsr' hi
  · intro t l hl
    obtain ⟨-, he⟩ := hkeep t (Role.ne_other_of_level hl)
    exact h.tables.level_le t l (he ▸ hl)
  · intro t l i hl hi hv hns
    obtain ⟨hst, he⟩ := hkeep t (Role.ne_other_of_level hl)
    rw [he] at hl
    have hno : ∀ q, S q → role q ≠ .child l t i := by
      intro q hq hrole
      simp [h.cut q l t i hrole hq hst] at hv
    have hsame := h.same t l i hl hst hi hno
    rw [hsame] at hv ⊢
    obtain ⟨hpos, hzero⟩ := h.tables.down t l i hl hi hv fun hs => hns ((hsh t i hst hi).mpr hs)
    have hstay : ∀ q, role q = .child l t i → newRole role S q = .child l t i := by
      intro q hq
      have hsq : ¬ S q := fun hs => hno q hs hq
      simpa [newRole, hsq] using hq
    refine ⟨fun hl0 => ⟨(hpos hl0).1, hstay _ (hpos hl0).2⟩, fun hl0 => ?_⟩
    subst hl0
    refine ⟨fun hu => hstay _ ((hzero rfl).1 hu), fun hu => ?_⟩
    have hkt0 := (hzero rfl).2 hu
    obtain ⟨q, i', j, h1, h2⟩ := hkt0
    have hq : ¬ S q := h.kernel_child q 2 i' h2
    exact ⟨q, i', j, by simpa [newRole, hst] using h1, by rw [h.root]; simpa [newRole, hq] using h2⟩
  · intro q l t i hq
    obtain ⟨hsq, he⟩ := hkeep q (by simp [hq])
    rw [he] at hq
    obtain ⟨h1, h2, h3, h4, h5, h6⟩ := h.tables.up q l t i hq
    have hst : ¬ S t := fun hs => hsq (h.closed q l t i hq hs)
    have hno : ∀ q', S q' → role q' ≠ .child l t i := by
      intro q' hs' hq'
      obtain ⟨-, -, -, h4', -⟩ := h.tables.up q' l t i hq'
      exact hsq (by rwa [← h4, h4'])
    rw [h.same t l i h1 hst h2 hno]
    exact ⟨by simpa [newRole, hst] using h1, h2, h3, h4, fun hs => h5 ((hsh t i hst h2).mp hs), h6⟩

end Drop

/-- A fresh page that copies the kernel's entries is a process root. -/
theorem Tables.newRoot (h : Tables role m) {q : ℕ} (hq : m.Held q) (hf : role q = .other)
    (hcopy : ∀ i, i < 512 → i ≠ userRootSlot → m.pte q i = m.pte m.kernelRootPa i)
    (huser : pteValid (m.pte q userRootSlot) = false) :
    Tables (Function.update role q .root) m := by
  have hkeep : ∀ p, role p ≠ .other → Function.update role q .root p = role p := by
    intro p hp
    have hne : p ≠ q := by rintro rfl; exact hp hf
    simp [hne]
  have hsh : ∀ t i, t ≠ q → (Shared (Function.update role q .root) m t i ↔ Shared role m t i) := by
    intro t i hne
    exact shared_congr (by simp [hne]) fun _ => rfl
  have hsq : ∀ i, i < 512 → pteValid (m.pte q i) = true →
      Shared (Function.update role q .root) m q i := by
    intro i hi hv
    have hne : i ≠ userRootSlot := by
      rintro rfl
      simp [huser] at hv
    exact ⟨by simp, hne, by rw [← hcopy i hi hne]; exact hv⟩
  refine ⟨?_, ?_, h.kroot_user, ?_, ?_, ?_, ?_⟩
  · intro p hp
    by_cases he : p = q
    · rw [he]; exact hq
    · exact h.held p (by simpa [he] using hp)
  · intro p
    by_cases he : p = q
    · subst he
      have hne : p ≠ m.kernelRootPa := by
        rintro rfl
        simp [(h.kroot _).mpr rfl] at hf
      simp [hne]
    · simpa [he] using h.kroot p
  · intro t i hs hi
    by_cases he : t = q
    · rw [he]
      exact hcopy i hi hs.2.1
    · exact h.shared t i ((hsh t i he).mp hs) hi
  · intro t l hl
    by_cases he : t = q
    · simp only [he, Function.update_self, Role.level, Option.some.injEq] at hl
      omega
    · exact h.level_le t l (by simpa [he] using hl)
  · intro t l i hl hi hv hns
    by_cases he : t = q
    · subst he
      exact absurd (hsq i hi hv) hns
    · obtain ⟨hpos, hzero⟩ := h.down t l i (by simpa [he] using hl) hi hv
        fun hs => hns ((hsh t i he).mpr hs)
      refine ⟨fun hl0 => ⟨(hpos hl0).1, ?_⟩, fun hl0 => ⟨fun hu => ?_, fun hu => ?_⟩⟩
      · rw [hkeep _ (by rw [(hpos hl0).2]; simp)]
        exact (hpos hl0).2
      · rw [hkeep _ (by rw [(hzero hl0).1 hu]; simp)]
        exact (hzero hl0).1 hu
      · obtain ⟨q', i', j, h1, h2⟩ := (hzero hl0).2 hu
        exact ⟨q', i', j, by rw [hkeep _ (by simp [h1])]; exact h1,
          by rw [hkeep _ (by simp [h2])]; exact h2⟩
  · intro p l t i hp
    have he : p ≠ q := by
      rintro rfl
      rw [Function.update_self] at hp
      exact Role.child_ne_root l t i hp.symm
    obtain ⟨h1, h2, h3, h4, h5, h6⟩ := h.up p l t i (by simpa [he] using hp)
    have hte : t ≠ q := by
      rintro rfl
      exact Role.ne_other_of_level h1 hf
    exact ⟨by simpa [hte] using h1, h2, h3, h4, fun hs => h5 ((hsh t i hte).mp hs), h6⟩

/-- The pages below entry `k` of the root table `r`. -/
inductive Under (role : ℕ → Role) (r k : ℕ) : ℕ → Prop
  | top {q : ℕ} : role q = .child 2 r k → Under role r k q
  | step {q l t i : ℕ} : role q = .child l t i → Under role r k t → Under role r k q

namespace Under

variable {r k q : ℕ}

theorem ne_other (h : Under role r k q) : role q ≠ .other := by
  cases h with
  | top h => simp [h]
  | step h _ => simp [h]

theorem not_root (h : Under role r k q) (hr : role q = .root ∨ role q = .kroot) : False := by
  cases h with
  | top h => rcases hr with hr | hr <;> simp [h] at hr
  | step h _ => rcases hr with hr | hr <;> simp [h] at hr

/-- A page is below one entry of one root only. -/
theorem unique (ht : Tables role m) {r' k' : ℕ} (h : Under role r k q) (h' : Under role r' k' q) :
    r = r' ∧ k = k' := by
  have hroot : ∀ {q' t k : ℕ}, role q' = .child 2 t k → role t = .root ∨ role t = .kroot := by
    intro q' t k hq
    have hl := (ht.up q' 2 t k hq).1
    have hshape := (role t).shapes
    rcases hshape with hs | hs | hs | ⟨l, t', i, hs⟩
    · simp [hs, Role.level] at hl
    · exact Or.inl hs
    · exact Or.inr hs
    · rw [hs] at hl
      have h3 := Role.level_child hl
      have h2 := ht.level_le t' l (ht.up t l t' i hs).1
      omega
  induction h with
  | top hq =>
    cases h' with
    | top hq' =>
      obtain ⟨-, h1, h2⟩ := Role.child_inj (hq.symm.trans hq')
      exact ⟨h1, h2⟩
    | step hq' hu =>
      obtain ⟨-, rfl, -⟩ := Role.child_inj (hq.symm.trans hq')
      exact (hu.not_root (hroot hq)).elim
  | step hq hu ih =>
    cases h' with
    | top hq' =>
      obtain ⟨-, rfl, -⟩ := Role.child_inj (hq.symm.trans hq')
      exact (hu.not_root (hroot hq')).elim
    | step hq' hu' =>
      obtain ⟨-, rfl, -⟩ := Role.child_inj (hq.symm.trans hq')
      exact ih hu'

/-- Pages keep their place when roles are only added. -/
theorem mono {role' : ℕ → Role} (hk : ∀ p, role p ≠ .other → role' p = role p)
    (h : Under role r k q) : Under role' r k q := by
  induction h with
  | top hq => exact top ((hk _ (by simp [hq])).trans hq)
  | step hq _ ih => exact step ((hk _ (by simp [hq])).trans hq) ih

end Under

end Edits

end LightOS
