import LightOS.Frames

/-!
# Building address spaces

Every operation that maps pages allocates frames and fills empty entries of page
tables, and does nothing else to the forest. `Grows` says so, with the root
entries below which the operation works. It is reflexive and transitive, so a
loop of such operations is again one.
-/
namespace LightOS
open Lib PageAllocator

variable {role role' role'' : ℕ → Role} {m m' m'' : Machine}

/-- A set of entries of root tables, as (table, index). -/
abbrev Places := ℕ → ℕ → Prop

/-- The page lies below one of the given root entries. -/
def Below (role : ℕ → Role) (P : Places) (q : ℕ) : Prop := ∃ r k, P r k ∧ Under role r k q

/-- Entry `i` of table `t` is one of the given root entries or below one. -/
def AtOrBelow (role : ℕ → Role) (P : Places) (t i : ℕ) : Prop := P t i ∨ Below role P t

theorem AtOrBelow.child {P : Places} {t i l q : ℕ} (h : AtOrBelow role P t i)
    (hl : (role t).level = some l) (hroot : P t i → l = 2) (hq : role q = .child l t i) :
    Below role P q := by
  rcases h with h | ⟨r, k, hP, hu⟩
  · obtain rfl := hroot h
    exact ⟨t, i, h, .top hq⟩
  · exact ⟨r, k, hP, .step hq hu⟩

/-- Places seen through more roles are the same for pages that had one. -/
theorem Under.reflect (ht : Tables role m) (hk : ∀ p, role p ≠ .other → role' p = role p)
    {r k q : ℕ} (h : Under role' r k q) (hq : role q ≠ .other) : Under role r k q := by
  induction h with
  | top hr => exact .top ((hk _ hq).symm.trans hr)
  | @step q l t i hr _ ih =>
    have hr' : role q = .child l t i := (hk _ hq).symm.trans hr
    exact .step hr' (ih (Role.ne_other_of_level (ht.up q l t i hr').1))

/-- Frames were allocated and empty entries filled, below the entries `P`. -/
structure Grows (P : Places) (role : ℕ → Role) (m : Machine) (role' : ℕ → Role) (m' : Machine) :
    Prop where
  good : Good role' m'
  keep : ∀ p, role p ≠ .other → role' p = role p
  fresh : ∀ p, role p = .other → role' p ≠ .other → ¬ m.Held p ∧ Below role' P p
  held : ∀ p, m.Held p → m'.Held p
  pte : ∀ t l i, (role t).level = some l → i < 512 →
    m'.pte t i = m.pte t i ∨ pteValid (m.pte t i) = false ∧ AtOrBelow role P t i
  kernel : ∀ p, role p = .root → ∀ i, i < 512 →
    m'.pte m.kernelRootPa i = m.pte m.kernelRootPa i
  kernelRootPa : m'.kernelRootPa = m.kernelRootPa
  account : m'.account = m.account
  firstFrame : m'.pages.firstFrame = m.pages.firstFrame
  log : ∃ fs : List ℕ, m'.log = m.log ++ fs.map (.alloc · m.account) ∧
    m.pages.freeFrames = m'.pages.freeFrames + fs.length ∧
    ∀ f ∈ fs, ¬ m.Held (frameToAddr f) ∧ m'.Held (frameToAddr f)

/-- Every frame allocated on the way has found a place. -/
def NoLoose (m : Machine) (role' : ℕ → Role) (m' : Machine) : Prop :=
  ∀ p, m'.Held p → m.Held p ∨ role' p ≠ .other

namespace Grows

variable {P Q : Places}

theorem refl (hg : Good role m) : Grows P role m role m :=
  ⟨hg, fun _ _ => rfl, fun _ h h' => absurd h h', fun _ h => h, fun _ _ _ _ _ => Or.inl rfl,
    fun _ _ _ _ => rfl, rfl, rfl, rfl, [], by simp⟩

theorem level (h : Grows P role m role' m') {t l : ℕ} (ht : (role t).level = some l) :
    (role' t).level = some l := by rw [h.keep t (Role.ne_other_of_level ht)]; exact ht

theorem isFrame_iff (h : Grows P role m role' m') (p : ℕ) : m'.IsFrame p ↔ m.IsFrame p := by
  simp only [Machine.IsFrame, h.firstFrame]

theorem below (h : Grows P role m role' m') {q : ℕ} (hq : Below role P q) : Below role' P q := by
  obtain ⟨r, k, hP, hu⟩ := hq
  exact ⟨r, k, hP, hu.mono h.keep⟩

theorem below_reflect (h : Grows P role m role' m') (ht : Tables role m) {q : ℕ}
    (hq : Below role' P q) (hr : role q ≠ .other) : Below role P q := by
  obtain ⟨r, k, hP, hu⟩ := hq
  exact ⟨r, k, hP, hu.reflect ht h.keep hr⟩

/-- No page that has a place becomes a root, and none of the roots changes. -/
theorem root_iff (h : Grows P role m role' m') (p : ℕ) : role' p = .root ↔ role p = .root := by
  by_cases hp : role p = .other
  · simp only [hp, reduceCtorEq, iff_false]
    intro hr
    obtain ⟨-, r, k, -, hu⟩ := h.fresh p hp (by simp [hr])
    exact hu.not_root (Or.inl hr)
  · rw [h.keep p hp]

theorem widen (h : Grows P role m role' m') (hPQ : ∀ r k, P r k → Q r k) :
    Grows Q role m role' m' := by
  have hb : ∀ {role : ℕ → Role} {q : ℕ}, Below role P q → Below role Q q := by
    rintro role q ⟨r, k, hP, hu⟩
    exact ⟨r, k, hPQ r k hP, hu⟩
  refine ⟨h.good, h.keep, ?_, h.held, ?_, h.kernel, h.kernelRootPa, h.account, h.firstFrame, h.log⟩
  · intro p hp hp'
    exact ⟨(h.fresh p hp hp').1, hb (h.fresh p hp hp').2⟩
  · intro t l i ht hi
    rcases h.pte t l i ht hi with he | ⟨he, hat⟩
    · exact Or.inl he
    · exact Or.inr ⟨he, hat.imp (hPQ t i) hb⟩

theorem trans (ht : Tables role m) (h : Grows P role m role' m') (h' : Grows P role' m' role'' m'') :
    Grows P role m role'' m'' := by
  have hkeep : ∀ p, role p ≠ .other → role'' p = role p := by
    intro p hp
    rw [h'.keep p (by rw [h.keep p hp]; exact hp), h.keep p hp]
  refine ⟨h'.good, hkeep, ?_, fun p hp => h'.held p (h.held p hp), ?_, ?_,
    h'.kernelRootPa.trans h.kernelRootPa, h'.account.trans h.account,
    h'.firstFrame.trans h.firstFrame, ?_⟩
  · intro p hp hp''
    by_cases hp' : role' p = .other
    · obtain ⟨h1, h2⟩ := h'.fresh p hp' hp''
      exact ⟨fun hh => h1 (h.held p hh), h2⟩
    · obtain ⟨h1, h2⟩ := h.fresh p hp hp'
      exact ⟨h1, h'.below h2⟩
  · intro t l i hl hi
    have hne := Role.ne_other_of_level hl
    rcases h.pte t l i hl hi with he | hfill
    · rcases h'.pte t l i (h.level hl) hi with he' | ⟨hinv, hat⟩
      · exact Or.inl (he'.trans he)
      · rw [he] at hinv
        exact Or.inr ⟨hinv, hat.imp_right fun hb => h.below_reflect ht hb hne⟩
    · exact Or.inr hfill
  · intro p hp i hi
    rw [← h.kernel p hp i hi, ← h.kernelRootPa]
    exact h'.kernel p ((h.root_iff p).mpr hp) i hi
  · obtain ⟨fs, h1, h2, h3⟩ := h.log
    obtain ⟨fs', h1', h2', h3'⟩ := h'.log
    refine ⟨fs ++ fs', ?_, ?_, ?_⟩
    · rw [h1', h1, h.account]
      simp
    · simp only [List.length_append]
      omega
    · intro f hf
      rcases List.mem_append.mp hf with hf | hf
      · exact ⟨(h3 f hf).1, h'.held _ (h3 f hf).2⟩
      · exact ⟨fun hh => (h3' f hf).1 (h.held _ hh), (h3' f hf).2⟩

end Grows

theorem NoLoose.refl (role : ℕ → Role) (m : Machine) : NoLoose m role m := fun _ h => Or.inl h

theorem NoLoose.trans {P : Places} (h : NoLoose m role' m') (h' : NoLoose m' role'' m'')
    (hg : Grows P role' m' role'' m'') : NoLoose m role'' m'' := by
  intro p hp
  rcases h' p hp with hp' | hp'
  · rcases h p hp' with h1 | h1
    · exact Or.inl h1
    · exact Or.inr (by rw [hg.keep p h1]; exact h1)
  · exact Or.inr hp'

/-- A frame allocated at the start is linked at the end. -/
theorem Grows.link {P : Places} {l t i q v : ℕ} (hg : Good role m) (hgot : Got m q m')
    (hw : Grows P role m' role'' m'') (hl : Link role'' m'' l t i q v)
    (hat : AtOrBelow role'' P t i) (hroot : P t i → l = 2) :
    Grows P role m (Link.newRole role'' l t i q) (m''.setPte t i v) := by
  have hq : role q = .other := hgot.role_other hg
  have hkeep' : ∀ p, role'' p ≠ .other → Link.newRole role'' l t i q p = role'' p :=
    fun p hp => hl.keep hp
  have hkeep : ∀ p, role p ≠ .other → Link.newRole role'' l t i q p = role p := by
    intro p hp
    rw [hkeep' p (by rw [hw.keep p hp]; exact hp), hw.keep p hp]
  have hpages := hw.good.pages
  have hrec : (m''.setPte t i v).Recorded := ⟨hw.good.recorded.balanced, hw.good.recorded.held⟩
  refine ⟨⟨hl.tables', hpages, hrec⟩, hkeep, ?_, ?_, ?_, ?_, ?_, ?_, ?_, ?_⟩
  · intro p hp hp'
    by_cases he : p = q
    · subst he
      refine ⟨hgot.free, ?_⟩
      have hlevel : (Link.newRole role'' l t i p t).level = some l := by
        rw [hkeep' t (Role.ne_other_of_level hl.level)]
        exact hl.level
      refine AtOrBelow.child (i := i) ?_ hlevel hroot (by simp)
      refine hat.imp_right ?_
      rintro ⟨r, k, hP, hu⟩
      exact ⟨r, k, hP, hu.mono hkeep'⟩
    · have hp'' : role'' p ≠ .other := by simpa [he] using hp'
      obtain ⟨h1, r, k, hP, hu⟩ := hw.fresh p hp hp''
      exact ⟨fun hh => h1 ((hgot.held p).mpr (Or.inl hh)), r, k, hP, hu.mono hkeep'⟩
  · exact fun p hp => hw.held p ((hgot.held p).mpr (Or.inl hp))
  · intro t' l' j ht' hj
    have hgot' := hgot.pte hg ht' hj
    have ht'' := hw.level ht'
    by_cases hti : t' = t ∧ j = i
    · obtain ⟨rfl, rfl⟩ := hti
      refine Or.inr ⟨?_, hat.imp_right fun hb => hw.below_reflect (hgot.good hg).tables hb
        (Role.ne_other_of_level ht')⟩
      rcases hw.pte t' l' j ht' hj with he | ⟨he, -⟩
      · rw [← hgot', ← he]
        exact hl.empty
      · rw [← hgot']
        exact he
    · rw [hl.other_level ht'' hj (by tauto), ← hgot']
      exact hw.pte t' l' j ht' hj
  · intro p hp j hj
    have hroot'' : role'' p = .root := (hw.root_iff p).mpr hp
    have hkr : m''.kernelRootPa = m.kernelRootPa := hw.kernelRootPa.trans hgot.kernelRootPa
    rw [← hkr, hl.kernel_pte hroot'' hj, hw.kernelRootPa, hw.kernel p hp j hj, hgot.kernelRootPa,
      hgot.pte hg hg.tables.kroot_level hj]
  · exact hw.kernelRootPa.trans hgot.kernelRootPa
  · exact hw.account.trans hgot.account
  · exact hw.firstFrame.trans hgot.firstFrame
  · obtain ⟨fs, h1, h2, h3⟩ := hw.log
    refine ⟨frameOf q :: fs, ?_, ?_, ?_⟩
    · change m''.log = _
      rw [h1, hgot.log, hgot.account]
      simp
    · have := hgot.freeFrames
      change _ = m''.pages.freeFrames + _
      simp only [List.length_cons]
      omega
    · intro f hf
      rcases List.mem_cons.mp hf with rfl | hf
      · rw [hgot.frame.frameToAddr]
        exact ⟨hgot.free, hw.held q hgot.mine⟩
      · exact ⟨fun hh => (h3 f hf).1 ((hgot.held _).mpr (Or.inl hh)), (h3 f hf).2⟩

/-- No leaf entry becomes valid. -/
def SameLeaves (role : ℕ → Role) (m : Machine) (role' : ℕ → Role) (m' : Machine) : Prop :=
  ∀ t i, (role' t).level = some 0 → i < 512 → pteValid (m'.pte t i) = true →
    (role t).level = some 0 ∧ pteValid (m.pte t i) = true

theorem SameLeaves.refl (role : ℕ → Role) (m : Machine) : SameLeaves role m role m :=
  fun _ _ h _ hv => ⟨h, hv⟩

theorem SameLeaves.trans (h : SameLeaves role m role' m') (h' : SameLeaves role' m' role'' m'') :
    SameLeaves role m role'' m'' := by
  intro t i ht hi hv
  obtain ⟨h1, h2⟩ := h' t i ht hi hv
  exact h t i h1 hi h2

/-- What a walk that may create tables does to the forest. -/
structure Walked (P : Places) (role : ℕ → Role) (m : Machine) (create : Bool) (n : ℕ)
    (role' : ℕ → Role) (m' : Machine) : Prop where
  grows : Grows P role m role' m'
  noLoose : NoLoose m role' m'
  leaves : SameLeaves role m role' m'
  pure : create = false → role' = role ∧ m' = m
  cost : m.pages.freeFrames ≤ m'.pages.freeFrames + n

namespace Walked

variable {P : Places} {create : Bool} {n : ℕ}

theorem refl (hg : Good role m) : Walked P role m create n role m :=
  ⟨.refl hg, .refl role m, .refl role m, fun _ => ⟨rfl, rfl⟩, by omega⟩

end Walked

/-- Entries become valid only on the way to `va`. -/
def OnPath (va : ℕ) (role : ℕ → Role) (m : Machine) (role' : ℕ → Role) (m' : Machine) : Prop :=
  ∀ t l i, (role' t).level = some l → i < 512 → pteValid (m'.pte t i) = true →
    i = vpn va l ∨ (role t).level = some l ∧ m'.pte t i = m.pte t i

theorem OnPath.refl (va : ℕ) (role : ℕ → Role) (m : Machine) : OnPath va role m role m :=
  fun _ _ _ h _ _ => Or.inr ⟨h, rfl⟩

theorem OnPath.trans {va : ℕ} (h : OnPath va role m role' m') (h' : OnPath va role' m' role'' m'') :
    OnPath va role m role'' m'' := by
  intro t l i ht hi hv
  rcases h' t l i ht hi hv with h1 | ⟨h1, he⟩
  · exact Or.inl h1
  · rcases h t l i h1 hi (he ▸ hv) with h2 | ⟨h2, he'⟩
    · exact Or.inl h2
    · exact Or.inr ⟨h2, he.trans he'⟩

/-- Frames in use keep their contents, unless they belong to the places `P`. -/
def Spares (P : Places) (role : ℕ → Role) (m m' : Machine) : Prop :=
  ∀ p, m.Held p → (∀ k, ¬ P p k) → ¬ Below role P p → AgreeOn m.mem m'.mem p pageSize

namespace Spares

variable {P Q : Places}

theorem refl (P : Places) (role : ℕ → Role) (m : Machine) : Spares P role m m :=
  fun _ _ _ _ _ _ _ => rfl

theorem trans (h : Spares P role m m') (hg : Grows P role m role' m') (ht : Tables role m)
    (h' : Spares P role' m' m'') : Spares P role m m'' := by
  intro p hp hP hb b h1 h2
  have hb' : ¬ Below role' P p := by
    intro hbelow
    have hne : role p ≠ .other := by
      intro ho
      obtain ⟨r, k, -, hu⟩ := hbelow
      exact (hg.fresh p ho hu.ne_other).1 hp
    exact hb (hg.below_reflect ht hbelow hne)
  rw [h' p (hg.held p hp) hP hb' b h1 h2, h p hp hP hb b h1 h2]

theorem widen (h : Spares P role m m') (hPQ : ∀ r k, P r k → Q r k) : Spares Q role m m' := by
  intro p hp hQ hb
  refine h p hp (fun k hk => hQ k (hPQ p k hk)) ?_
  rintro ⟨r, k, hP, hu⟩
  exact hb ⟨r, k, hPQ r k hP, hu⟩

/-- An entry of a table that belongs to the places is written. -/
theorem setPte {t i l v : ℕ} (h : Spares P role m m') (hg : Good role m)
    (ht : (role t).level = some l) (hi : i < 512) (hat : AtOrBelow role P t i) :
    Spares P role m (m'.setPte t i v) := by
  intro p hp hP hb
  have hne : p ≠ t := by
    rintro rfl
    exact hat.elim (hP i) hb
  have hd := frames_disjoint hp.aligned (hg.tables.aligned ht) hne
  intro b h1 h2
  rw [← h p hp hP hb b h1 h2]
  simp only [Machine.setPte, writeWord]
  simp only [pageSize] at *
  rw [if_neg (by omega)]

end Spares

theorem Got.spares {P : Places} {q : ℕ} (hgot : Got m q m') : Spares P role m m' :=
  fun _ hp _ _ => hgot.agree hp

/-- A walk to `va` that has created exactly `n` tables. -/
structure Traced (P : Places) (va : ℕ) (role : ℕ → Role) (m : Machine) (n : ℕ) (role' : ℕ → Role)
    (m' : Machine) : Prop where
  grows : Grows P role m role' m'
  noLoose : NoLoose m role' m'
  leaves : SameLeaves role m role' m'
  path : OnPath va role m role' m'
  spares : Spares P role m m'
  used : m.pages.freeFrames = m'.pages.freeFrames + n

namespace Traced

variable {P : Places} {va n n' : ℕ}

theorem refl (hg : Good role m) : Traced P va role m 0 role m :=
  ⟨.refl hg, .refl role m, .refl role m, .refl va role m, .refl P role m, rfl⟩

theorem trans (hg : Good role m) (h : Traced P va role m n role' m')
    (h' : Traced P va role' m' n' role'' m'') : Traced P va role m (n + n') role'' m'' := by
  refine ⟨h.grows.trans hg.tables h'.grows, h.noLoose.trans h'.noLoose h'.grows,
    h.leaves.trans h'.leaves, h.path.trans h'.path, h.spares.trans h.grows hg.tables h'.spares, ?_⟩
  have := h.used
  have := h'.used
  omega

theorem walked (h : Traced P va role m n role' m') (hn : n ≤ n') :
    Walked P role m true n' role' m' :=
  ⟨h.grows, h.noLoose, h.leaves, by simp, by have := h.used; omega⟩

end Traced

section Walk

variable {P : Places} {l t i q : ℕ}

/-- A new table goes into an empty entry. -/
theorem Got.table_link (hgot : Got m q m') (hg : Good role m) (ht : (role t).level = some (l + 1))
    (hi : i < 512) (hzero : ∀ a, q ≤ a → a < q + pageSize → m'.mem a = 0)
    (he : pteValid (m.pte t i) = false)
    (hk : t = m.kernelRootPa → i ≠ userRootSlot ∧ ∀ p, role p ≠ .root) :
    Link role m' (l + 1) t i q (tablePte q) := by
  have hlt := hgot.frame.lt
  refine ⟨⟨(hgot.good hg).tables, ht, hi, tablePte_lt hlt, ?_⟩, ?_, hgot.mine, hgot.role_other hg,
    ?_, tablePte_valid q, pteAddr_tablePte hgot.frame.1 ?_, fun _ => tablePte_leaf q, by omega⟩
  · rw [hgot.kernelRootPa]
    exact hk
  · rw [hgot.pte hg ht hi]
    exact he
  · intro _ j hj
    have h0 : m'.pte q j = 0 := by
      refine readWord_zero fun b h1 h2 => hzero b (by omega) ?_
      simp only [pageSize]
      omega
    simp [h0]
  · simp only [usizeBound]
    omega

/-- After linking a new table no leaf is new: the table is blank. -/
theorem Got.table_leaves (hgot : Got m q m') (hg : Good role m)
    (hzero : ∀ a, q ≤ a → a < q + pageSize → m'.mem a = 0)
    (hl : Link role m' (l + 1) t i q (tablePte q)) :
    SameLeaves role m (Link.newRole role (l + 1) t i q) (m'.setPte t i (tablePte q)) := by
  intro t' j ht' hj hv
  by_cases he : t' = q
  · subst he
    have h0 : (m'.setPte t i (tablePte t')).pte t' j = 0 := by
      rw [hl.other hgot.frame.1 hj (Or.inl hl.ne.symm)]
      refine readWord_zero fun b h1 h2 => hzero b (by omega) ?_
      simp only [pageSize]
      omega
    simp [h0] at hv
  · have ht0 : (role t').level = some 0 := by simpa [he] using ht'
    refine ⟨ht0, ?_⟩
    have hne : t' ≠ t := by
      rintro rfl
      have := ht0.symm.trans hl.level
      simp at this
    rwa [hl.other_level ht0 hj (Or.inl hne), hgot.pte hg ht0 hj] at hv

/-- After linking a new table every other entry is as it was. -/
theorem Got.table_path {va : ℕ} (hgot : Got m q m') (hg : Good role m)
    (hzero : ∀ a, q ≤ a → a < q + pageSize → m'.mem a = 0)
    (hl : Link role m' (l + 1) t (vpn va (l + 1)) q (tablePte q)) :
    OnPath va role m (Link.newRole role (l + 1) t (vpn va (l + 1)) q)
      (m'.setPte t (vpn va (l + 1)) (tablePte q)) := by
  intro t' l' j ht' hj hv
  by_cases he : t' = q
  · subst he
    have h0 : (m'.setPte t (vpn va (l + 1)) (tablePte t')).pte t' j = 0 := by
      rw [hl.other hgot.frame.1 hj (Or.inl hl.ne.symm)]
      refine readWord_zero fun b h1 h2 => hzero b (by omega) ?_
      simp only [pageSize]
      omega
    simp [h0] at hv
  · have ht0 : (role t').level = some l' := by simpa [he] using ht'
    by_cases hti : t' = t ∧ j = vpn va (l + 1)
    · left
      rw [hti.1, hl.level, Option.some.injEq] at ht0
      rw [hti.2, ht0]
    · right
      refine ⟨ht0, ?_⟩
      rw [hl.other_level ht0 hj (by tauto), hgot.pte hg ht0 hj]

/-- A table was there already, or a blank one was made. -/
def FoundOrMade (found : Bool) (q : ℕ) (role : ℕ → Role) (m : Machine) (n : ℕ) (role' : ℕ → Role)
    (m' : Machine) : Prop :=
  match found with
  | true => n = 0 ∧ role' = role ∧ m' = m
  | false => n = 1 ∧ ∀ j, j < 512 → pteValid (m'.pte q j) = false

/-- One level of a walk that may create a table. -/
theorem walkLevel_makes {va : ℕ} (hg : Good role m)
    (ht : (role t).level = some (l + 1)) (hns : ¬ Shared role m t (vpn va (l + 1)))
    (hk : t = m.kernelRootPa → vpn va (l + 1) ≠ userRootSlot ∧ ∀ p, role p ≠ .root)
    (hat : AtOrBelow role P t (vpn va (l + 1))) (hroot : P t (vpn va (l + 1)) → l + 1 = 2) :
    Prog.Wp (PageTable.walkLevel t va (l + 1) true) m (fun r m' =>
      ∃ role' n, Traced P va role m n role' m' ∧ match r with
        | none => n = 0 ∧ pteValid (m.pte t (vpn va (l + 1))) = false ∧ m.pages.freeFrames = 0
        | some q => role' q = .table l t (vpn va (l + 1)) ∧
            FoundOrMade (pteValid (m.pte t (vpn va (l + 1)))) q role m n role' m') Prog.Never := by
  have hi := vpn_lt va (l + 1)
  unfold PageTable.walkLevel
  rw [Prog.wp_bind, Prog.wp_get]
  dsimp only
  by_cases hv : pteValid (m.pte t (vpn va (l + 1))) = true
  · obtain ⟨hleaf, hrole⟩ := (hg.tables.down t _ _ ht hi hv hns).1 (by omega)
    simp only [hv, Bool.not_true, Bool.false_eq_true, if_false, hleaf, Prog.wp_pure]
    exact ⟨role, 0, .refl hg, hrole, rfl, rfl, rfl⟩
  · rw [Bool.not_eq_true] at hv
    simp only [hv, Bool.not_false, if_true, Bool.not_true, Bool.false_eq_true, if_false]
    refine (pageAlloc_one hg).bind fun r m1 h1 => ?_
    cases r with
    | none =>
      obtain ⟨rfl, h0⟩ := h1
      exact Prog.wp_pure.mpr ⟨role, 0, .refl hg, rfl, trivial, h0⟩
    | some q =>
      obtain ⟨hgot, hzero⟩ := h1
      have hl := hgot.table_link hg ht hi hzero hv hk
      dsimp only
      rw [Prog.wp_bind, wp_writePte, Prog.wp_pure]
      refine ⟨Link.newRole role (l + 1) t (vpn va (l + 1)) q, 1, ?_, ?_, rfl, fun j hj => ?_⟩
      · refine ⟨Grows.link hg hgot (.refl (hgot.good hg)) hl hat hroot, ?_,
          hgot.table_leaves hg hzero hl, hgot.table_path hg hzero hl,
          hgot.spares.setPte hg ht hi hat, ?_⟩
        · intro p hp
          rcases (hgot.held p).mp hp with h | rfl
          · exact Or.inl h
          · exact Or.inr (by simp)
        · have := hgot.freeFrames
          change _ = m1.pages.freeFrames + 1
          omega
      · rw [hl.addr]
        simp [Role.child]
      · have h0 : (m1.setPte t (vpn va (l + 1)) (tablePte q)).pte q j = 0 := by
          rw [hl.other hgot.frame.1 hj (Or.inl hl.ne.symm)]
          refine readWord_zero fun b h1 h2 => hzero b (by omega) ?_
          simp only [pageSize]
          omega
        rw [hl.addr, h0]
        rfl

/-- One level of a walk that creates nothing. -/
theorem walkLevel_finds {va : ℕ} (hg : Good role m) (ht : (role t).level = some (l + 1))
    (hns : ¬ Shared role m t (vpn va (l + 1))) :
    Prog.Wp (PageTable.walkLevel t va (l + 1) false) m (fun r m' => m' = m ∧ match r with
      | none => pteValid (m.pte t (vpn va (l + 1))) = false
      | some q => role q = .table l t (vpn va (l + 1))) Prog.Never := by
  unfold PageTable.walkLevel
  rw [Prog.wp_bind, Prog.wp_get]
  dsimp only
  by_cases hv : pteValid (m.pte t (vpn va (l + 1))) = true
  · obtain ⟨hleaf, hrole⟩ := (hg.tables.down t _ _ ht (vpn_lt va _) hv hns).1 (by omega)
    simp only [hv, Bool.not_true, Bool.false_eq_true, if_false, hleaf, Prog.wp_pure]
    exact ⟨trivial, hrole⟩
  · rw [Bool.not_eq_true] at hv
    simp only [hv, Bool.not_false, if_true, Prog.wp_pure]
    exact ⟨trivial, trivial⟩

end Walk

open Classical in
/-- The root table that owns what root `r` finds behind entry `k`. -/
noncomputable def home (role : ℕ → Role) (m : Machine) (r k : ℕ) : ℕ :=
  if Shared role m r k then m.kernelRootPa else r

/-- The entries behind which root `r` works when it uses the slots `K`. -/
def SlotsOf (r kr : ℕ) (K : ℕ → Prop) : Places :=
  fun h k => K k ∧ (h = r ∨ h = kr ∧ k ≠ userRootSlot)

/-- The user window of root `r` and nothing else. -/
def Window (r : ℕ) : Places := fun h k => h = r ∧ k = userRootSlot

theorem SlotsOf.window {r kr : ℕ} {K : ℕ → Prop} (hK : ∀ k, K k → k = userRootSlot) {h k : ℕ}
    (hp : SlotsOf r kr K h k) : Window r h k := by
  obtain ⟨hk, hh | ⟨-, hne⟩⟩ := hp
  · exact ⟨hh, hK k hk⟩
  · exact absurd (hK k hk) hne

/-- A table from which the kernel maps pages: a process root, or the kernel root
before any process exists. -/
def IsRoot (role : ℕ → Role) (m : Machine) (r : ℕ) : Prop :=
  role r = .root ∨ r = m.kernelRootPa ∧ ∀ p, role p ≠ .root

/-- `l0` is the level-0 table of `va` under root `r`. -/
def Chain (role : ℕ → Role) (m : Machine) (r va l0 : ℕ) : Prop :=
  ∃ l1, role l1 = .table 1 (home role m r (vpn va 2)) (vpn va 2) ∧ role l0 = .table 0 l1 (vpn va 1)

section Chains

variable {P : Places} {r va l0 k : ℕ}

theorem IsRoot.level (hg : Good role m) (hr : IsRoot role m r) : (role r).level = some 2 := by
  rcases hr with hr | ⟨rfl, -⟩
  · rw [hr]; rfl
  · exact hg.tables.kroot_level

theorem home_user (role : ℕ → Role) (m : Machine) (r : ℕ) : home role m r userRootSlot = r := by
  have hs : ¬ Shared role m r userRootSlot := fun hs => hs.2.1 rfl
  simp [home, hs]

theorem home_slots (role : ℕ → Role) (m : Machine) (r k : ℕ) {K : ℕ → Prop} (hK : K k) :
    SlotsOf r m.kernelRootPa K (home role m r k) k := by
  by_cases hs : Shared role m r k
  · exact ⟨hK, Or.inr ⟨by simp [home, hs], hs.2.1⟩⟩
  · exact ⟨hK, Or.inl (by simp [home, hs])⟩

theorem Grows.isRoot (h : Grows P role m role' m') (hr : IsRoot role m r) : IsRoot role' m' r := by
  rcases hr with hr | ⟨rfl, hn⟩
  · exact Or.inl ((h.root_iff r).mpr hr)
  · exact Or.inr ⟨h.kernelRootPa.symm, fun p hp => hn p ((h.root_iff p).mp hp)⟩

/-- Growth does not change who owns what a root sees. -/
theorem Grows.home (h : Grows P role m role' m') (hk : k < 512) :
    LightOS.home role' m' r k = LightOS.home role m r k := by
  have hs : Shared role' m' r k ↔ Shared role m r k := by
    refine shared_congr (h.root_iff r) fun hroot => ?_
    rw [h.kernelRootPa]
    exact h.kernel r hroot k hk
  by_cases hsh : Shared role m r k
  · simp [LightOS.home, hsh, hs.mpr hsh, h.kernelRootPa]
  · simp [LightOS.home, hsh, hs.not.mpr hsh]

theorem Grows.chain (h : Grows P role m role' m') (hc : Chain role m r va l0) :
    Chain role' m' r va l0 := by
  obtain ⟨l1, h1, h2⟩ := hc
  refine ⟨l1, ?_, ?_⟩
  · rw [h.home (vpn_lt va 2), h.keep l1 (by simp [h1])]
    exact h1
  · rw [h.keep l0 (by simp [h2])]
    exact h2

theorem Grows.chain_reflect (h : Grows P role m role' m') (hg : Good role m)
    (hc : Chain role' m' r va l0) (hl : (role l0).level = some 0) : Chain role m r va l0 := by
  obtain ⟨l1, h1, h2⟩ := hc
  have h0 : role l0 = .table 0 l1 (vpn va 1) := by
    rw [← h.keep l0 (Role.ne_other_of_level hl)]
    exact h2
  have hl1 := (hg.tables.up l0 1 l1 (vpn va 1) h0).1
  refine ⟨l1, ?_, h0⟩
  rw [← h.keep l1 (Role.ne_other_of_level hl1), ← h.home (vpn_lt va 2)]
  exact h1

theorem Chain.unique (hg : Good role m) {l0' : ℕ} (h : Chain role m r va l0)
    (h' : Chain role m r va l0') : l0 = l0' := by
  obtain ⟨l1, h1, h2⟩ := h
  obtain ⟨l1', h1', h2'⟩ := h'
  have e1 : l1 = l1' := by
    rw [← (hg.tables.up l1 2 _ _ h1).2.2.2.1, ← (hg.tables.up l1' 2 _ _ h1').2.2.2.1]
  subst e1
  rw [← (hg.tables.up l0 1 _ _ h2).2.2.2.1, ← (hg.tables.up l0' 1 _ _ h2').2.2.2.1]

theorem Chain.under (h : Chain role m r va l0) :
    Under role (LightOS.home role m r (vpn va 2)) (vpn va 2) l0 := by
  obtain ⟨l1, h1, h2⟩ := h
  exact .step (l := 1) h2 (.top h1)

theorem Chain.below (h : Chain role m r va l0) {K : ℕ → Prop} (hK : K (vpn va 2)) :
    Below role (SlotsOf r m.kernelRootPa K) l0 := ⟨_, _, home_slots role m r _ hK, h.under⟩

theorem Chain.level (h : Chain role m r va l0) : (role l0).level = some 0 := by
  obtain ⟨l1, -, h2⟩ := h
  simp [h2, Role.level]

end Chains

section Operations

variable {P : Places} {r va : ℕ}

/-- The slot of an address, as the set of root slots an operation on it uses. -/
abbrev slotOf (va : ℕ) : ℕ → Prop := (· = vpn va 2)

/-- An entry that a root inherits is there and leads to a table of the kernel. -/
theorem Shared.table {k : ℕ} (hg : Good role m) (hs : Shared role m r k) (hi : k < 512) :
    pteValid (m.pte r k) = true ∧ pteLeaf (m.pte r k) = false ∧
      role (pteAddr (m.pte r k)) = .table 1 m.kernelRootPa k := by
  have hnk : ¬ Shared role m m.kernelRootPa k := by
    intro hs'
    have := hs'.1.symm.trans ((hg.tables.kroot _).mpr rfl)
    simp at this
  obtain ⟨hleaf, hrole⟩ :=
    (hg.tables.down _ 2 _ hg.tables.kroot_level hi hs.2.2 hnk).1 (by omega)
  rw [hg.tables.shared r _ hs hi]
  exact ⟨hs.2.2, hleaf, hrole⟩

/-- The kernel root is used as a root only before there are others. -/
theorem IsRoot.kernel (hg : Good role m) (hr : IsRoot role m r) (he : r = m.kernelRootPa) :
    ∀ p, role p ≠ .root := by
  rcases hr with hr | ⟨-, hn⟩
  · rw [he, (hg.tables.kroot _).mpr rfl] at hr
    simp at hr
  · exact hn

/-- Behind an empty root entry there is no table. -/
theorem no_chain_slot (hg : Good role m) (hv : pteValid (m.pte r (vpn va 2)) = false) (l0 : ℕ) :
    ¬ Chain role m r va l0 := by
  rintro ⟨l1, hl1, -⟩
  obtain ⟨-, -, hvalid, -, -, -⟩ := hg.tables.up l1 2 _ _ hl1
  by_cases hs : Shared role m r (vpn va 2)
  · rw [(hs.table hg (vpn_lt va 2)).1] at hv
    simp at hv
  · rw [home, if_neg hs, hv] at hvalid
    simp at hvalid

/-- Nor behind an empty entry of the level-1 table. -/
theorem no_chain_table (hg : Good role m) {l1 : ℕ}
    (h1 : role l1 = .table 1 (home role m r (vpn va 2)) (vpn va 2))
    (hv : pteValid (m.pte l1 (vpn va 1)) = false) (l0 : ℕ) : ¬ Chain role m r va l0 := by
  rintro ⟨l1', h1', h2'⟩
  have e1 : l1' = l1 := by
    rw [← (hg.tables.up l1 2 _ _ h1).2.2.2.1, ← (hg.tables.up l1' 2 _ _ h1').2.2.2.1]
  obtain ⟨-, -, hvalid, -⟩ := hg.tables.up l0 1 l1' _ h2'
  rw [e1, hv] at hvalid
  simp at hvalid

/-- The second level of a walk works below the slot of the address. -/
theorem second_level (hg : Good role m) (hr : IsRoot role m r) {l1 : ℕ}
    (h1 : role l1 = .table 1 (home role m r (vpn va 2)) (vpn va 2)) :
    (role l1).level = some 1 ∧ ¬ Shared role m l1 (vpn va 1) ∧ l1 ≠ m.kernelRootPa ∧
      Below role (SlotsOf r m.kernelRootPa (slotOf va)) l1 ∧
      ¬ SlotsOf r m.kernelRootPa (slotOf va) l1 (vpn va 1) := by
  have hl1 : (role l1).level = some 1 := by rw [h1]; rfl
  have hnk : l1 ≠ m.kernelRootPa := by
    intro he
    have := ((hg.tables.kroot l1).mpr he).symm.trans h1
    simp at this
  refine ⟨hl1, ?_, hnk, ⟨_, _, home_slots role m r _ rfl, .top h1⟩, ?_⟩
  · intro hs
    have := hs.1.symm.trans h1
    simp at this
  · rintro ⟨-, he | ⟨he, -⟩⟩
    · have := hr.level hg
      rw [← he, hl1] at this
      simp at this
    · exact hnk he

/-- The first level of a walk, through an entry of its own or an inherited one. -/
theorem walkRoot_makes (hg : Good role m) (hr : IsRoot role m r)
    (hk : r = m.kernelRootPa → vpn va 2 ≠ userRootSlot) :
    Prog.Wp (PageTable.walkLevel r va 2 true) m (fun res m' =>
      ∃ role' n, Traced (SlotsOf r m.kernelRootPa (slotOf va)) va role m n role' m' ∧
        match res with
        | none => n = 0 ∧ pteValid (m.pte r (vpn va 2)) = false ∧ m.pages.freeFrames = 0
        | some q => role' q = .table 1 (home role m r (vpn va 2)) (vpn va 2) ∧
            FoundOrMade (pteValid (m.pte r (vpn va 2))) q role m n role' m') Prog.Never := by
  by_cases hs : Shared role m r (vpn va 2)
  · obtain ⟨hv, hleaf, hrole⟩ := hs.table hg (vpn_lt va 2)
    unfold PageTable.walkLevel
    rw [Prog.wp_bind, Prog.wp_get]
    simp only [hv, Bool.not_true, Bool.false_eq_true, if_false, hleaf, Prog.wp_pure]
    exact ⟨role, 0, .refl hg, by simpa [home, hs] using hrole, rfl, rfl, rfl⟩
  · have hhome : home role m r (vpn va 2) = r := by simp [home, hs]
    have hspec := walkLevel_makes (P := SlotsOf r m.kernelRootPa (slotOf va)) (l := 1) hg
      (hr.level hg) hs (fun he => ⟨hk he, hr.kernel hg he⟩) (Or.inl ⟨rfl, Or.inl rfl⟩)
      (fun _ => rfl)
    rw [hhome]
    exact hspec

theorem walkRoot_finds (hg : Good role m) (hr : IsRoot role m r) :
    Prog.Wp (PageTable.walkLevel r va 2 false) m (fun res m' => m' = m ∧ match res with
      | none => pteValid (m.pte r (vpn va 2)) = false
      | some q => role q = .table 1 (home role m r (vpn va 2)) (vpn va 2)) Prog.Never := by
  by_cases hs : Shared role m r (vpn va 2)
  · obtain ⟨hv, hleaf, hrole⟩ := hs.table hg (vpn_lt va 2)
    unfold PageTable.walkLevel
    rw [Prog.wp_bind, Prog.wp_get]
    simp only [hv, Bool.not_true, Bool.false_eq_true, if_false, hleaf, Prog.wp_pure]
    exact ⟨trivial, by simpa [home, hs] using hrole⟩
  · have hhome : home role m r (vpn va 2) = r := by simp [home, hs]
    rw [hhome]
    exact walkLevel_finds (l := 1) hg (hr.level hg) hs

open Classical in
/-- The tables that a walk to `va` has to create. -/
noncomputable def shortage (role : ℕ → Role) (m : Machine) (r va : ℕ) : ℕ :=
  if ∃ l0, Chain role m r va l0 then 0 else if pteValid (m.pte r (vpn va 2)) then 1 else 2

theorem shortage_le (role : ℕ → Role) (m : Machine) (r va : ℕ) : shortage role m r va ≤ 2 := by
  unfold shortage
  split_ifs <;> omega

/-- Software walk that creates the tables on its way. -/
theorem walk_makes (hg : Good role m) (hr : IsRoot role m r)
    (hk : r = m.kernelRootPa → vpn va 2 ≠ userRootSlot) :
    Prog.Wp (PageTable.walk r va true) m (fun res m' =>
      ∃ role' n, Traced (SlotsOf r m.kernelRootPa (slotOf va)) va role m n role' m' ∧
        match res with
        | none => (∀ l0, ¬ Chain role m r va l0) ∧ n ≤ 2 ∧ m.pages.freeFrames < shortage role m r va
        | some l0 => Chain role' m' r va l0 ∧ n = shortage role m r va) Prog.Never := by
  unfold PageTable.walk
  refine (walkRoot_makes hg hr hk).bind fun res m1 h1 => ?_
  obtain ⟨role1, n1, htr, hres⟩ := h1
  have hg1 := htr.grows.good
  have hhome := htr.grows.home (r := r) (vpn_lt va 2)
  have hkr := htr.grows.kernelRootPa
  cases res with
  | none =>
    rw [Prog.wp_pure]
    obtain ⟨rfl, hv, hfree⟩ := hres
    have hno := no_chain_slot hg hv
    refine ⟨role1, 0, htr, hno, by omega, ?_⟩
    rw [shortage, if_neg (fun ⟨l0, hc⟩ => hno l0 hc), hv]
    simp [hfree]
  | some l1 =>
    obtain ⟨hl1, hmade⟩ := hres
    have hl1' : role1 l1 = .table 1 (home role1 m1 r (vpn va 2)) (vpn va 2) := by
      rw [hhome]
      exact hl1
    obtain ⟨hlevel, hns, hnk, hbelow, hnP⟩ := second_level hg1 (htr.grows.isRoot hr) hl1'
    rw [hkr] at hbelow hnP
    refine (walkLevel_makes (P := SlotsOf r m.kernelRootPa (slotOf va)) (l := 0) hg1 hlevel hns
      (fun he => absurd he hnk) (Or.inr hbelow) (fun h => absurd h hnP)).mono
      (fun res m2 h2 => ?_) fun _ h => h
    obtain ⟨role2, n2, htr2, hres2⟩ := h2
    have hcount : (n1 + if pteValid (m1.pte l1 (vpn va 1)) then 0 else 1) = shortage role m r va := by
      rw [shortage]
      cases hv : pteValid (m.pte r (vpn va 2)) with
      | true =>
        rw [hv] at hmade
        obtain ⟨rfl, rfl, rfl⟩ := hmade
        by_cases hv1 : pteValid (m1.pte l1 (vpn va 1)) = true
        · obtain ⟨-, hrole⟩ := (hg1.tables.down l1 1 _ hlevel (vpn_lt va 1) hv1 hns).1 (by omega)
          rw [if_pos hv1, if_pos ⟨_, l1, hl1', hrole⟩]
        · rw [Bool.not_eq_true] at hv1
          have hno : ¬ ∃ l0, Chain role1 m1 r va l0 := fun ⟨l0, hc⟩ =>
            no_chain_table hg1 hl1' hv1 l0 hc
          rw [if_neg hno, hv1]
          rfl
      | false =>
        rw [hv] at hmade
        have hno : ¬ ∃ l0, Chain role m r va l0 := fun ⟨l0, hc⟩ => no_chain_slot hg hv l0 hc
        rw [if_neg hno, hmade.2 _ (vpn_lt va 1), hmade.1]
        rfl
    cases res with
    | none =>
      obtain ⟨rfl, hv1, hfree⟩ := hres2
      rw [hv1] at hcount
      have hused := htr.used
      refine ⟨role2, n1 + 0, htr.trans hg htr2, fun l0 hc => ?_, ?_, ?_⟩
      · exact no_chain_table hg1 hl1' hv1 l0 (htr.grows.chain hc)
      · have := shortage_le role m r va
        simp only [Bool.false_eq_true, if_false] at hcount
        omega
      · simp only [Bool.false_eq_true, if_false] at hcount
        omega
    | some l0 =>
      obtain ⟨hl0, hmade2⟩ := hres2
      refine ⟨role2, n1 + n2, htr.trans hg htr2, ⟨l1, ?_, hl0⟩, ?_⟩
      · rw [htr2.grows.home (vpn_lt va 2), hhome, htr2.grows.keep l1 (by simp [hl1])]
        exact hl1
      · rw [← hcount]
        cases hv1 : pteValid (m1.pte l1 (vpn va 1)) with
        | true =>
          rw [hv1] at hmade2
          simp [hmade2.1]
        | false =>
          rw [hv1] at hmade2
          simp [hmade2.1]

/-- Software walk to the level-0 table of `va`. -/
theorem walk_spec (create : Bool) (hg : Good role m) (hr : IsRoot role m r)
    (hk : r = m.kernelRootPa → vpn va 2 ≠ userRootSlot) :
    Prog.Wp (PageTable.walk r va create) m (fun res m' =>
      ∃ role', Walked (SlotsOf r m.kernelRootPa (slotOf va)) role m create 2 role' m' ∧
        match res with
        | none => (∀ l0, ¬ Chain role m r va l0) ∧ (create = true → m.pages.freeFrames < 2)
        | some l0 => Chain role' m' r va l0) Prog.Never := by
  cases create with
  | true =>
    refine (walk_makes hg hr hk).mono ?_ fun _ h => h
    rintro res m' ⟨role', n, htr, hres⟩
    have hle := shortage_le role m r va
    cases res with
    | none => exact ⟨role', htr.walked hres.2.1, hres.1, fun _ => lt_of_lt_of_le hres.2.2 hle⟩
    | some l0 => exact ⟨role', htr.walked (by rw [hres.2]; exact hle), hres.1⟩
  | false =>
    unfold PageTable.walk
    refine (walkRoot_finds hg hr).bind fun res m1 h1 => ?_
    obtain ⟨rfl, hres⟩ := h1
    cases res with
    | none => exact Prog.wp_pure.mpr ⟨role, .refl hg, no_chain_slot hg hres, by simp⟩
    | some l1 =>
      obtain ⟨hlevel, hns, -, -, -⟩ := second_level hg hr hres
      refine (walkLevel_finds hg hlevel hns).mono (fun res m2 h2 => ?_) fun _ h => h
      obtain ⟨rfl, hres2⟩ := h2
      cases res with
      | none => exact ⟨role, .refl hg, no_chain_table hg hres hres2, by simp⟩
      | some l0 => exact ⟨role, .refl hg, l1, hres, hres2⟩

/-- Root `r` maps a page at `va`. -/
def HasPage (role : ℕ → Role) (m : Machine) (r va : ℕ) : Prop :=
  ∃ l0, Chain role m r va l0 ∧ pteValid (m.pte l0 (vpn va 0)) = true

/-- What mapping one new page at `va` does, and whether it succeeds. -/
structure NewPage (r va : ℕ) (ok : Bool) (role : ℕ → Role) (m : Machine) (role' : ℕ → Role)
    (m' : Machine) : Prop where
  grows : Grows (SlotsOf r m.kernelRootPa (slotOf va)) role m role' m'
  cost : m.pages.freeFrames ≤ m'.pages.freeFrames + 3
  noLoose : ok = true → NoLoose m role' m'
  leaves : ∀ t i, (role' t).level = some 0 → i < 512 → pteValid (m'.pte t i) = true →
    Chain role' m' r va t ∧ i = vpn va 0 ∨ (role t).level = some 0 ∧ pteValid (m.pte t i) = true
  mapped : ok = true → HasPage role' m' r va
  fails : ok = false → m.pages.freeFrames < 3 ∨ HasPage role m r va

theorem Got.grows {P : Places} {q : ℕ} (hgot : Got m q m') (hg : Good role m) :
    Grows P role m role m' := by
  refine ⟨hgot.good hg, fun _ _ => rfl, fun _ h h' => absurd h h',
    fun p hp => (hgot.held p).mpr (Or.inl hp), fun t l i ht hi => Or.inl (hgot.pte hg ht hi),
    fun _ _ i hi => hgot.pte hg hg.tables.kroot_level hi, hgot.kernelRootPa, hgot.account,
    hgot.firstFrame, [frameOf q], by simp [hgot.log], ?_, ?_⟩
  · have := hgot.freeFrames
    simp only [List.length_cons, List.length_nil]
    omega
  · intro f hf
    rw [List.mem_singleton.mp hf, hgot.frame.frameToAddr]
    exact ⟨hgot.free, hgot.mine⟩

/-- No page but the one mapped gains a leaf. -/
theorem Got.sameLeaves {q : ℕ} (hgot : Got m q m') (hg : Good role m) :
    SameLeaves role m role m' := by
  intro t i ht hi hv
  rw [hgot.pte hg ht hi] at hv
  exact ⟨ht, hv⟩

/-- A frame in hand goes into an empty leaf entry. -/
theorem Got.page_link {q l0 i flags : ℕ} (hgot : Got m q m')
    (hw : Grows P role m' role'' m'') (hq : role'' q = .other) (hl0 : (role'' l0).level = some 0)
    (hi : i < 512) (he : pteValid (m''.pte l0 i) = false) (hf : flags < 2 ^ 10)
    (hu : flags.testBit 4 = true) : Link role'' m'' 0 l0 i q (leafPte q flags) := by
  have hlt := hgot.frame.lt
  have hnk : l0 ≠ m''.kernelRootPa := by
    rintro rfl
    have := hl0.symm.trans hw.good.tables.kroot_level
    simp at this
  refine ⟨⟨hw.good.tables, hl0, hi, leafPte_lt hlt hf, fun h => absurd h hnk⟩, he,
    hw.held q hgot.mine, hq, by simp, leafPte_valid q flags, pteAddr_leafPte hgot.frame.1 ?_ hf,
    by omega, fun _ => by rw [leafPte_user]; exact hu⟩
  simp only [usizeBound]
  omega

theorem Got.onPath {q : ℕ} (hgot : Got m q m') (hg : Good role m) : OnPath va role m role m' :=
  fun _ _ _ ht hi _ => Or.inr ⟨ht, hgot.pte hg ht hi⟩

/-- A frame in hand does not change what a walk finds. -/
theorem Got.shortage {q : ℕ} (hgot : Got m q m') (hg : Good role m) (hr : IsRoot role m r) :
    LightOS.shortage role m' r va = LightOS.shortage role m r va := by
  have hhome := (hgot.grows (P := Window r) hg).home (r := r) (vpn_lt va 2)
  unfold LightOS.shortage Chain
  rw [hhome, hgot.pte hg (hr.level hg) (vpn_lt va 2)]

/-- What mapping the frame `q` at `va` does, whether it succeeds, and what is left of the
frame if it does not. -/
structure PageStep (r va q : ℕ) (ok : Bool) (role : ℕ → Role) (m : Machine) (role' : ℕ → Role)
    (m' : Machine) : Prop where
  page : NewPage r va ok role m role' m'
  path : OnPath va role m role' m'
  spares : Spares (SlotsOf r m.kernelRootPa (slotOf va)) role m m'
  used : ok = true → ¬ HasPage role m r va ∧
    m.pages.freeFrames = m'.pages.freeFrames + (1 + shortage role m r va)
  stuck : ok = false → (m.pages.freeFrames < 1 + shortage role m r va ∨ HasPage role m r va) ∧
    m'.Held q ∧ role' q = .other

theorem map_step {m1 : Machine} {q flags : ℕ} (hg : Good role m) (hgot : Got m q m1)
    (hr : IsRoot role m r) (hk : r = m.kernelRootPa → vpn va 2 ≠ userRootSlot)
    (hva : va % pageSize = 0) (hf : flags < 2 ^ 10) (hu : flags.testBit 4 = true) :
    Prog.Wp (PageTable.map r va q flags) m1 (fun res m' =>
      ∃ role', PageStep r va q res.isOk role m role' m') Prog.Never := by
  have hg1 := hgot.good hg
  have hr1 : IsRoot role m1 r := (hgot.grows (P := Window r) hg).isRoot hr
  have hkr := hgot.kernelRootPa
  have hmiss : shortage role m1 r va = shortage role m r va := hgot.shortage hg hr
  have hfree := hgot.freeFrames
  unfold PageTable.map
  rw [if_neg (by simpa using hva), if_neg (by simpa using hgot.frame.1)]
  refine (walk_makes hg1 hr1 (by rw [hkr]; exact hk)).bind fun res m2 h2 => ?_
  obtain ⟨role2, n, htr, hres⟩ := h2
  rw [hkr] at htr
  rw [hmiss] at hres
  have hused := htr.used
  have hle := shortage_le role m r va
  have hgrows := (hgot.grows hg).trans hg.tables htr.grows
  have hspares : Spares (SlotsOf r m.kernelRootPa (slotOf va)) role m m2 :=
    hgot.spares.trans (hgot.grows hg) hg.tables htr.spares
  have hpath : OnPath va role m role2 m2 := (hgot.onPath hg).trans htr.path
  have hsame := (hgot.sameLeaves hg).trans htr.leaves
  have hq2 : role2 q = .other := by
    by_contra hne
    exact (htr.grows.fresh q (hgot.role_other hg) hne).1 hgot.mine
  have hheld2 : m2.Held q := htr.grows.held q hgot.mine
  cases res with
  | none =>
    obtain ⟨-, hn, hshort⟩ := hres
    refine Prog.wp_pure.mpr ⟨role2, ⟨hgrows, by omega, by simp [Except.isOk, Except.toBool],
      fun t i ht hi hv => Or.inr (hsame t i ht hi hv),
      by simp [Except.isOk, Except.toBool], fun _ => Or.inl (by omega)⟩, hpath, hspares,
      by simp [Except.isOk, Except.toBool], fun _ => ⟨Or.inl (by omega), hheld2, hq2⟩⟩
  | some l0 =>
    obtain ⟨hres, rfl⟩ := hres
    have hl0 : (role2 l0).level = some 0 := hres.level
    have hg2 := htr.grows.good
    have hi := vpn_lt va 0
    dsimp only
    rw [Prog.wp_bind, Prog.wp_get]
    by_cases hv : pteValid (m2.pte l0 (vpn va 0)) = true
    · rw [if_pos hv]
      obtain ⟨hold, hv'⟩ := hsame l0 _ hl0 hi hv
      have hhas : HasPage role m r va := ⟨l0, hgrows.chain_reflect hg hres hold, hv'⟩
      exact Prog.wp_pure.mpr ⟨role2, ⟨hgrows, by omega, by simp [Except.isOk, Except.toBool],
        fun t i ht hi hv => Or.inr (hsame t i ht hi hv),
        by simp [Except.isOk, Except.toBool], fun _ => Or.inr hhas⟩, hpath, hspares,
        by simp [Except.isOk, Except.toBool], fun _ => ⟨Or.inr hhas, hheld2, hq2⟩⟩
    · rw [if_neg hv, Prog.wp_bind, wp_writePte, Prog.wp_pure]
      rw [Bool.not_eq_true] at hv
      have hl := hgot.page_link htr.grows hq2 hl0 hi hv hf hu
      have hbelow : Below role2 (SlotsOf r m.kernelRootPa (slotOf va)) l0 := by
        have := hres.below (K := slotOf va) rfl
        rwa [htr.grows.kernelRootPa, hkr] at this
      have hnP : ¬ SlotsOf r m.kernelRootPa (slotOf va) l0 (vpn va 0) := by
        rintro ⟨-, he | ⟨he, -⟩⟩
        · have := (hgrows.isRoot hr).level hg2
          rw [← he, hl0] at this
          simp at this
        · have := hg2.tables.kroot_level
          rw [hgrows.kernelRootPa, ← he, hl0] at this
          simp at this
      have hfinal := Grows.link hg hgot htr.grows hl (Or.inr hbelow) fun h => absurd h hnP
      have hkeep2 : ∀ p, role2 p ≠ .other →
          Link.newRole role2 0 l0 (vpn va 0) q p = role2 p := fun p hp => hl.keep hp
      have hchain : Chain (Link.newRole role2 0 l0 (vpn va 0) q)
          (m2.setPte l0 (vpn va 0) (leafPte q flags)) r va l0 := by
        obtain ⟨l1, h1, h2⟩ := hres
        refine ⟨l1, ?_, by rw [hkeep2 l0 (by simp [h2])]; exact h2⟩
        rw [hkeep2 l1 (by simp [h1]), hfinal.home (vpn_lt va 2), ← hgrows.home (vpn_lt va 2)]
        exact h1
      -- the entry that was filled is the one the walk led to
      have hother {t l i : ℕ} (ht : (Link.newRole role2 0 l0 (vpn va 0) q t).level = some l)
          (hi' : i < 512) (hti : ¬ (t = l0 ∧ i = vpn va 0)) : (role2 t).level = some l ∧
            (m2.setPte l0 (vpn va 0) (leafPte q flags)).pte t i = m2.pte t i := by
        have hne : t ≠ q := by
          rintro rfl
          simp [Role.child, Role.level] at ht
        have ht2 : (role2 t).level = some l := by simpa [hne] using ht
        exact ⟨ht2, hl.other_level ht2 hi' (by tauto)⟩
      refine ⟨_, ⟨hfinal, ?_, ?_, ?_, fun _ => ⟨l0, hchain, ?_⟩, by
        simp [Except.isOk, Except.toBool]⟩, ?_, ?_, fun _ => ⟨?_, ?_⟩, by
        simp [Except.isOk, Except.toBool]⟩
      · change _ ≤ m2.pages.freeFrames + 3
        omega
      · intro _ p hp
        rcases htr.noLoose p hp with h1 | h1
        · rcases (hgot.held p).mp h1 with h0 | rfl
          · exact Or.inl h0
          · exact Or.inr (by simp)
        · exact Or.inr (by rw [hkeep2 p h1]; exact h1)
      · intro t i ht hi' hv'
        by_cases hti : t = l0 ∧ i = vpn va 0
        · obtain ⟨rfl, rfl⟩ := hti
          exact Or.inl ⟨hchain, rfl⟩
        · obtain ⟨ht2, he⟩ := hother ht hi' hti
          rw [he] at hv'
          exact Or.inr (hsame t i ht2 hi' hv')
      · rw [hl.self]
        exact leafPte_valid q flags
      · intro t l i ht hi' hv'
        by_cases hti : t = l0 ∧ i = vpn va 0
        · have h0 : l = 0 := by
            rw [hti.1, hkeep2 l0 (Role.ne_other_of_level hl0), hl0, Option.some.injEq] at ht
            exact ht.symm
          exact Or.inl (by rw [hti.2, h0])
        · obtain ⟨ht2, he⟩ := hother ht hi' hti
          rw [he] at hv' ⊢
          exact hpath t l i ht2 hi' hv'
      · intro p hp hP hb
        have hne : p ≠ l0 := by
          rintro rfl
          have hold : role p ≠ .other := by
            intro ho
            exact (hgrows.fresh p ho (Role.ne_other_of_level hl0)).1 hp
          exact hb (hgrows.below_reflect hg.tables hbelow hold)
        have hd := frames_disjoint hp.aligned (hg2.tables.aligned hl0) hne
        intro b h1 h2
        rw [← hspares p hp hP hb b h1 h2]
        simp only [Machine.setPte, writeWord]
        simp only [pageSize] at *
        rw [if_neg (by omega)]
      · rintro ⟨l0', hc, hvalid⟩
        obtain rfl := Chain.unique hg2 hres (hgrows.chain hc)
        rcases hgrows.pte l0 0 _ hc.level hi with he | ⟨he, -⟩
        · rw [he, hvalid] at hv
          simp at hv
        · rw [hvalid] at he
          simp at he
      · change _ = m2.pages.freeFrames + _
        omega

/-- Two addresses that the page tables cannot tell apart. -/
def SamePage (a b : ℕ) : Prop := vpn a 2 = vpn b 2 ∧ vpn a 1 = vpn b 1 ∧ vpn a 0 = vpn b 0

/-- Addresses that lead to the same entry of the same table. -/
theorem Chain.samePage {a b t : ℕ} (h : Chain role m r a t) (h' : Chain role m r b t)
    (h0 : vpn a 0 = vpn b 0) : SamePage a b := by
  obtain ⟨l1, h1, h2⟩ := h
  obtain ⟨l1', h1', h2'⟩ := h'
  have e2 := h2.symm.trans h2'
  simp only [Role.table.injEq, true_and] at e2
  rw [← e2.1] at h1'
  have e1 := h1.symm.trans h1'
  simp only [Role.table.injEq, true_and] at e1
  exact ⟨e1.2, e2.2, h0⟩

theorem NewPage.pages {ok : Bool} (h : NewPage r va ok role m role' m') (hg : Good role m) {va' : ℕ}
    (hp : HasPage role' m' r va') : HasPage role m r va' ∨ SamePage va' va := by
  obtain ⟨t, hc, hv⟩ := hp
  rcases h.leaves t _ hc.level (vpn_lt va' 0) hv with ⟨hc', h0⟩ | ⟨hl, hv'⟩
  · exact Or.inr (hc.samePage hc' h0)
  · exact Or.inl ⟨t, h.grows.chain_reflect hg hc hl, hv'⟩

theorem HasPage.congr {va' : ℕ} (hs : SamePage va va') (h : HasPage role m r va) :
    HasPage role m r va' := by
  obtain ⟨t, ⟨l1, h1, h2⟩, hv⟩ := h
  obtain ⟨e2, e1, e0⟩ := hs
  exact ⟨t, ⟨l1, by rw [← e2]; exact h1, by rw [← e1]; exact h2⟩, by rw [← e0]; exact hv⟩

theorem Grows.hasPage (h : Grows P role m role' m') (hp : HasPage role m r va) :
    HasPage role' m' r va := by
  obtain ⟨l0, hc, hv⟩ := hp
  refine ⟨l0, h.chain hc, ?_⟩
  rcases h.pte l0 0 _ hc.level (vpn_lt va 0) with he | ⟨he, -⟩
  · rw [he]
    exact hv
  · rw [hv] at he
    simp at he

/-- The slots that a list of addresses uses. -/
def slotsOf (vas : List ℕ) : ℕ → Prop := fun k => ∃ va ∈ vas, k = vpn va 2

/-- What mapping new pages at `vas` in order does, and whether it succeeds. -/
structure NewPages (r : ℕ) (vas : List ℕ) (ok : Bool) (role : ℕ → Role) (m : Machine)
    (role' : ℕ → Role) (m' : Machine) : Prop where
  grows : Grows (SlotsOf r m.kernelRootPa (slotsOf vas)) role m role' m'
  cost : m.pages.freeFrames ≤ m'.pages.freeFrames + 3 * vas.length
  noLoose : ok = true → NoLoose m role' m'
  pages : ∀ va, HasPage role' m' r va → HasPage role m r va ∨ ∃ va' ∈ vas, SamePage va va'
  mapped : ok = true → ∀ va ∈ vas, HasPage role' m' r va
  fails : ok = false → m.pages.freeFrames < 3 * vas.length ∨ (∃ va ∈ vas, HasPage role m r va) ∨
    ¬ vas.Pairwise fun a b => ¬ SamePage b a

namespace NewPages

variable {vas : List ℕ} {ok : Bool}

theorem nil (hg : Good role m) : NewPages r [] true role m role m :=
  ⟨.refl hg, by simp, fun _ => .refl role m, fun _ h => Or.inl h, by simp, by simp⟩

theorem one (hg : Good role m) (h : NewPage r va ok role m role' m') :
    NewPages r [va] ok role m role' m' := by
  refine ⟨h.grows.widen ?_, by simpa using h.cost, h.noLoose, ?_, by simpa using h.mapped, ?_⟩
  · rintro h k ⟨hk, hh⟩
    exact ⟨⟨va, by simp, hk⟩, hh⟩
  · intro va' hp
    rcases h.pages hg hp with h1 | h1
    · exact Or.inl h1
    · exact Or.inr ⟨va, by simp, h1⟩
  · intro ho
    rcases h.fails ho with h1 | h1
    · exact Or.inl (by simpa using h1)
    · exact Or.inr (Or.inl ⟨va, by simp, h1⟩)

theorem slots_left {vas' : List ℕ} (r kr h k : ℕ) (hs : SlotsOf r kr (slotsOf vas) h k) :
    SlotsOf r kr (slotsOf (vas ++ vas')) h k := by
  obtain ⟨⟨va, hva, hk⟩, hh⟩ := hs
  exact ⟨⟨va, by simp [hva], hk⟩, hh⟩

theorem slots_right {vas' : List ℕ} (r kr h k : ℕ) (hs : SlotsOf r kr (slotsOf vas') h k) :
    SlotsOf r kr (slotsOf (vas ++ vas')) h k := by
  obtain ⟨⟨va, hva, hk⟩, hh⟩ := hs
  exact ⟨⟨va, by simp [hva], hk⟩, hh⟩

/-- A loop that was left early: the rest of the addresses is never tried. -/
theorem stop (vas' : List ℕ) (h : NewPages r vas false role m role' m') :
    NewPages r (vas ++ vas') false role m role' m' := by
  refine ⟨h.grows.widen (slots_left _ _), ?_, by simp, ?_, by simp, fun _ => ?_⟩
  · have := h.cost
    simp only [List.length_append]
    omega
  · intro va hp
    rcases h.pages va hp with h1 | ⟨va', hva, hs⟩
    · exact Or.inl h1
    · exact Or.inr ⟨va', by simp [hva], hs⟩
  · rcases h.fails rfl with h1 | ⟨va, hva, h1⟩ | h1
    · left
      simp only [List.length_append]
      omega
    · exact Or.inr (Or.inl ⟨va, by simp [hva], h1⟩)
    · exact Or.inr (Or.inr fun hp => h1 (List.pairwise_append.mp hp).1)

theorem trans {vas' : List ℕ} (hg : Good role m) (h : NewPages r vas true role m role' m')
    (h' : NewPages r vas' ok role' m' role'' m'') :
    NewPages r (vas ++ vas') ok role m role'' m'' := by
  have hkr := h.grows.kernelRootPa
  refine ⟨?_, ?_, fun ho => ?_, ?_, fun ho va hva => ?_, fun ho => ?_⟩
  · have h2 := h'.grows
    rw [hkr] at h2
    exact (h.grows.widen (slots_left _ _)).trans hg.tables (h2.widen (slots_right _ _))
  · have := h.cost
    have := h'.cost
    simp only [List.length_append]
    omega
  · exact (h.noLoose rfl).trans (h'.noLoose ho) h'.grows
  · intro va hp
    rcases h'.pages va hp with h1 | ⟨va', hva, hs⟩
    · rcases h.pages va h1 with h2 | ⟨va', hva, hs⟩
      · exact Or.inl h2
      · exact Or.inr ⟨va', by simp [hva], hs⟩
    · exact Or.inr ⟨va', by simp [hva], hs⟩
  · rcases List.mem_append.mp hva with hva | hva
    · exact h'.grows.hasPage (h.mapped rfl va hva)
    · exact h'.mapped ho va hva
  · rcases h'.fails ho with h1 | ⟨va, hva, h1⟩ | h1
    · left
      have := h.cost
      simp only [List.length_append]
      omega
    · rcases h.pages va h1 with h2 | ⟨va', hva', hs⟩
      · exact Or.inr (Or.inl ⟨va, by simp [hva], h2⟩)
      · exact Or.inr (Or.inr fun hp => (List.pairwise_append.mp hp).2.2 va' hva' va hva hs)
    · exact Or.inr (Or.inr fun hp => h1 (List.pairwise_append.mp hp).2.1)

end NewPages

end Operations

end LightOS
