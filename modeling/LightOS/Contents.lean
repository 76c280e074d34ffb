import LightOS.Copies

/-!
# What new pages contain

Every way in which a process gets memory maps frames one by one: the segments of
an image, the stack, anonymous mappings and the pages of a fork. Here the frames
are followed together with their contents: a page that has been mapped translates
to a frame that was free before, holds what was put into it, and keeps it while
the tables of later pages are made. No other translation changes and no page that
was in use is touched.
-/
namespace LightOS
open Lib PageAllocator

section Data

variable {role role' role'' : ℕ → Role} {m m' m'' : Machine} {P : Places}

/-- Frames in use that are no tables keep their contents. -/
def KeepsData (role : ℕ → Role) (m m' : Machine) : Prop :=
  ∀ p, m.Held p → (role p).level = none → AgreeOn m.mem m'.mem p pageSize

namespace KeepsData

theorem refl (role : ℕ → Role) (m : Machine) : KeepsData role m m := fun _ _ _ _ _ _ => rfl

theorem trans (h : KeepsData role m m') (hg : Grows P role m role' m')
    (h' : KeepsData role' m' m'') : KeepsData role m m'' := by
  intro p hp hl b h1 h2
  have hl' : (role' p).level = none := by
    by_cases ho : role p = .other
    · have : role' p = .other := by
        by_contra hne
        exact (hg.fresh p ho hne).1 hp
      rw [this]
      rfl
    · rw [hg.keep p ho]
      exact hl
  rw [h' p (hg.held p hp) hl' b h1 h2, h p hp hl b h1 h2]

/-- Writing an entry of a table touches no data. -/
theorem setPte {t l i v : ℕ} (ht : (role t).level = some l) (ha : t % pageSize = 0) (hi : i < 512) :
    KeepsData role m (m.setPte t i v) := by
  intro p hp hl b h1 h2
  have hne : p ≠ t := by
    rintro rfl
    rw [ht] at hl
    cases hl
  have hd := frames_disjoint hp.aligned ha hne
  simp only [Machine.setPte, writeWord]
  rw [if_neg]
  simp only [pageSize] at *
  omega

end KeepsData

theorem Got.keepsData {q : ℕ} (h : Got m q m') : KeepsData role m m' := fun _ hp _ => h.agree hp

theorem walkLevel_data {t l : ℕ} (va level : ℕ) (create : Bool) (hg : Good role m)
    (ht : (role t).level = some l) :
    Prog.Wp (PageTable.walkLevel t va level create) m (fun _ m' => KeepsData role m m')
      fun _ => True := by
  unfold PageTable.walkLevel
  rw [Prog.wp_bind, Prog.wp_get]
  dsimp only
  split_ifs
  · exact Prog.wp_pure.mpr (.refl role m)
  · refine ((pageAlloc_one hg).mono (fun _ _ h => h) fun _ h => h.elim).bind fun r m1 h1 => ?_
    cases r with
    | none =>
      obtain ⟨rfl, -⟩ := h1
      exact Prog.wp_pure.mpr (.refl role m1)
    | some q =>
      dsimp only
      rw [Prog.wp_bind, wp_writePte]
      have hgot := h1.1
      refine Prog.wp_pure.mpr (hgot.keepsData.trans (hgot.grows (P := fun _ _ => False) hg) ?_)
      exact .setPte ht (hg.tables.aligned ht) (vpn_lt va level)
  · exact Prog.wp_stop.mpr trivial
  · exact Prog.wp_pure.mpr (.refl role m)

end Data

section Map

variable {role role' : ℕ → Role} {m m' : Machine} {r va : ℕ}

/-- A walk that creates tables leaves all data alone. -/
theorem walk_data (hg : Good role m) (hr : IsRoot role m r)
    (hk : r = m.kernelRootPa → vpn va 2 ≠ userRootSlot) :
    Prog.Wp (PageTable.walk r va true) m (fun _ m' => KeepsData role m m') Prog.Never := by
  unfold PageTable.walk
  have hboth := (walkRoot_makes hg hr hk).and (walkLevel_data va 2 true hg (hr.level hg))
  refine hboth.bind fun res m1 h => ?_
  obtain ⟨⟨role1, n, htr, hres⟩, hdata⟩ := h
  cases res with
  | none => exact Prog.wp_pure.mpr hdata
  | some l1 =>
    obtain ⟨hl1, -⟩ := hres
    have hg1 := htr.grows.good
    have hl1' : role1 l1 = .table 1 (home role1 m1 r (vpn va 2)) (vpn va 2) := by
      rw [htr.grows.home (vpn_lt va 2)]
      exact hl1
    obtain ⟨hlevel, hns, hnk, hbelow, hnP⟩ := second_level hg1 (htr.grows.isRoot hr) hl1'
    have hstep := (walkLevel_makes (P := SlotsOf r m1.kernelRootPa (slotOf va)) (l := 0) hg1 hlevel
      hns (fun he => absurd he hnk) (Or.inr hbelow) (fun h => absurd h hnP)).and
      (walkLevel_data va 1 true hg1 hlevel)
    exact hstep.mono (fun _ m2 h2 => hdata.trans htr.grows h2.2) fun _ h => h

/-- A page and what is to be in it. -/
structure PageSpec where
  va : ℕ
  flags : ℕ
  bytes : ℕ → UInt8

/-- The page at physical address `q` holds these bytes. -/
def Machine.PageIs (m : Machine) (q : ℕ) (bytes : ℕ → UInt8) : Prop :=
  ∀ o < pageSize, m.mem (q + o) = bytes o

theorem Machine.PageIs.agree {q : ℕ} {bytes : ℕ → UInt8} (h : m.PageIs q bytes)
    (ha : AgreeOn m.mem m'.mem q pageSize) : m'.PageIs q bytes := by
  intro o ho
  rw [ha (q + o) (by omega) (by omega), h o ho]

/-- Whether an address is mapped, by its place in the forest. -/
theorem Good.hasPage_iff (hg : Good role m) (hr : IsRoot role m r) :
    HasPage role m r va ↔ translation m r va ≠ none := by
  constructor
  · rintro ⟨l0, hc, hv⟩ hnone
    have := (hg.translation_iff hr).mpr ⟨l0, hc, hv, rfl, rfl⟩
    rw [hnone] at this
    cases this
  · intro hne
    obtain ⟨⟨q, f⟩, ht⟩ := Option.ne_none_iff_exists'.mp hne
    obtain ⟨l0, hc, hv, -⟩ := (hg.translation_iff hr).mp ht
    exact ⟨l0, hc, hv⟩

/-- A translation stays unless the address gets a new page. -/
theorem Grows.translation {P : Places} (h : Grows P role m role' m') (hg : Good role m)
    (hr : IsRoot role m r) (hn : HasPage role' m' r va → HasPage role m r va) :
    translation m' r va = translation m r va := by
  have hr' := h.isRoot hr
  cases ht : LightOS.translation m r va with
  | none =>
    by_contra hne
    exact (hg.hasPage_iff hr).mp (hn ((h.good.hasPage_iff hr').mpr hne)) ht
  | some x =>
    obtain ⟨q, f⟩ := x
    obtain ⟨l0, hc, hv, hq, hf⟩ := (hg.translation_iff hr).mp ht
    have hsame : m'.pte l0 (vpn va 0) = m.pte l0 (vpn va 0) := by
      rcases h.pte l0 0 _ hc.level (vpn_lt va 0) with he | ⟨he, -⟩
      · exact he
      · rw [hv] at he
        cases he
    refine (h.good.translation_iff hr').mpr ⟨l0, h.chain hc, ?_, ?_, ?_⟩
    · rw [hsame, hv]
    · rw [hsame, hq]
    · rw [hsame, hf]

theorem SamePage.translation {a b : ℕ} (h : SamePage a b) :
    translation m r a = translation m r b := by
  obtain ⟨h2, h1, h0⟩ := h
  rw [LightOS.translation, LightOS.translation, leafEntry, leafEntry, h2, h1, h0]

/-- Filling the entry of an address leads the walk to the same tables. -/
theorem tableAt_setPte {l0 v : ℕ} (hg : Good role m) (hr : IsRoot role m r)
    (hc : Chain role m r va l0) :
    tableAt (m.setPte l0 (vpn va 0) v) r [vpn va 1, vpn va 2] = some l0 := by
  obtain ⟨hv2, hv1, hl0⟩ := (hg.chain_iff hr).mp hc
  have hlevel := hc.level
  have halign := hg.tables.aligned hlevel
  have hl1 := root_entry hg hr (vpn_lt va 2) hv2
  have hother : ∀ t i, (∃ l, l ≠ 0 ∧ (role t).level = some l) → i < 512 →
      (m.setPte l0 (vpn va 0) v).pte t i = m.pte t i := by
    rintro t i ⟨l, hne, ht⟩ hi
    refine m.pte_setPte_ne v halign (hg.tables.aligned ht) (vpn_lt va 0) hi (Or.inl ?_)
    rintro rfl
    rw [hlevel] at ht
    exact hne (Option.some.inj ht).symm
  have hroot := hother r (vpn va 2) ⟨2, by decide, hr.level hg⟩ (vpn_lt va 2)
  have hmid := hother (pteAddr (m.pte r (vpn va 2))) (vpn va 1)
    ⟨1, by decide, by rw [hl1]; rfl⟩ (vpn_lt va 1)
  rw [tableAt_two, hroot, hmid]
  exact ⟨hv2, hv1, hl0⟩

/-- `map` after its walk: an error leaves what the walk did, success fills one entry. -/
theorem map_traced {q flags : ℕ} (hg : Good role m) (hr : IsRoot role m r)
    (hk : r = m.kernelRootPa → vpn va 2 ≠ userRootSlot) (hva : va % pageSize = 0)
    (hq : q % pageSize = 0) :
    Prog.Wp (PageTable.map r va q flags) m (fun res m' => ∃ role₁ m₁ n,
      Traced (SlotsOf r m.kernelRootPa (slotOf va)) va role m n role₁ m₁ ∧ KeepsData role m m₁ ∧
      match res with
      | .error _ => m' = m₁
      | .ok _ => ∃ l0, Chain role₁ m₁ r va l0 ∧
          m' = m₁.setPte l0 (vpn va 0) (leafPte q flags)) Prog.Never := by
  unfold PageTable.map
  rw [if_neg (by simpa using hva), if_neg (by simpa using hq)]
  refine ((walk_makes hg hr hk).and (walk_data hg hr hk)).bind fun res m₁ h => ?_
  obtain ⟨⟨role₁, n, htr, hres⟩, hdata⟩ := h
  cases res with
  | none => exact Prog.wp_pure.mpr ⟨role₁, m₁, n, htr, hdata, rfl⟩
  | some l0 =>
    dsimp only
    rw [Prog.wp_bind, Prog.wp_get]
    by_cases hv : pteValid (m₁.pte l0 (vpn va 0)) = true
    · rw [if_pos hv]
      exact Prog.wp_pure.mpr ⟨role₁, m₁, n, htr, hdata, rfl⟩
    · rw [if_neg hv, Prog.wp_bind, wp_writePte]
      exact Prog.wp_pure.mpr ⟨role₁, m₁, n, htr, hdata, l0, hres.1, rfl⟩

theorem pteFlags_user {e : ℕ} : (pteFlags e).testBit 4 = true ↔ pteUser e = true := by
  rw [pteUser_eq, pteFlags, Nat.testBit_and]
  have : (pteR ||| pteW ||| pteX ||| pteU).testBit 4 = true := by decide
  rw [this, Bool.and_true]

/-- The frame behind a user entry has its place in the forest. -/
theorem Good.leaf_page (hg : Good role m) {l0 i : ℕ} (hl : (role l0).level = some 0) (hi : i < 512)
    (hv : pteValid (m.pte l0 i) = true) (hu : pteUser (m.pte l0 i) = true) :
    role (pteAddr (m.pte l0 i)) = .page l0 i := by
  have hns : ¬ Shared role m l0 i := by
    intro hs
    rw [hs.1] at hl
    cases hl
  exact ((hg.tables.down l0 0 i hl hi hv hns).2 rfl).1 hu

/-- New pages of root `r`, in the order in which they were mapped, by work behind
the root slots `K`. -/
structure Filled (r : ℕ) (K : ℕ → Prop) (pages : List PageSpec) (role : ℕ → Role) (m : Machine)
    (role' : ℕ → Role) (m' : Machine) : Prop where
  grows : Grows (SlotsOf r m.kernelRootPa K) role m role' m'
  before : ∀ a ∈ pages, translation m r a.va = none
  after : ∀ a ∈ pages, ∃ q t i, translation m' r a.va = some (q, a.flags) ∧ ¬ m.Held q ∧
    role' q = .page t i ∧ m'.PageIs q a.bytes
  other : ∀ va, (∀ a ∈ pages, ¬ SamePage va a.va) → translation m' r va = translation m r va
  apart : pages.Pairwise fun a b => ¬ SamePage b.va a.va
  data : KeepsData role m m'

namespace Filled

variable {role'' : ℕ → Role} {m'' : Machine} {pages pages' : List PageSpec} {K : ℕ → Prop}

theorem nil (hg : Good role m) : Filled r K [] role m role m :=
  ⟨.refl hg, by simp, by simp, fun _ _ => rfl, .nil, .refl role m⟩

/-- More pages after the first ones. -/
theorem append (hg : Good role m) (h : Filled r K pages role m role' m')
    (h' : Filled r K pages' role' m' role'' m'') :
    Filled r K (pages ++ pages') role m role'' m'' := by
  have hkr := h.grows.kernelRootPa
  have hnew : ∀ a ∈ pages, ∀ b ∈ pages', ¬ SamePage b.va a.va := by
    intro a ha b hb hs
    obtain ⟨q, t, i, hq, -⟩ := h.after a ha
    have hnone := h'.before b hb
    rw [hs.translation, hq] at hnone
    cases hnone
  refine ⟨?_, fun a ha => ?_, fun a ha => ?_, fun va hva => ?_, ?_, h.data.trans h.grows h'.data⟩
  · have h2 := h'.grows
    rw [hkr] at h2
    exact h.grows.trans hg.tables h2
  · rcases List.mem_append.mp ha with ha | ha
    · exact h.before a ha
    · rw [← h.other a.va fun b hb => hnew b hb a ha]
      exact h'.before a ha
  · rcases List.mem_append.mp ha with ha | ha
    · obtain ⟨q, t, i, hq, hfree, hrole, hbytes⟩ := h.after a ha
      have hheld : m'.Held q := h.grows.good.tables.held q (by simp [hrole])
      refine ⟨q, t, i, ?_, hfree, ?_, ?_⟩
      · rw [h'.other a.va fun b hb hs => hnew a ha b hb ⟨hs.1.symm, hs.2.1.symm, hs.2.2.symm⟩, hq]
      · rw [h'.grows.keep q (by simp [hrole]), hrole]
      · exact hbytes.agree (h'.data q hheld (by rw [hrole]; rfl))
    · obtain ⟨q, t, i, hq, hfree, hrole, hbytes⟩ := h'.after a ha
      exact ⟨q, t, i, hq, fun hm => hfree (h.grows.held q hm), hrole, hbytes⟩
  · rw [h'.other va fun b hb => hva b (List.mem_append.mpr (Or.inr hb)),
      h.other va fun b hb => hva b (List.mem_append.mpr (Or.inl hb))]
  · exact List.pairwise_append.mpr ⟨h.apart, h'.apart, hnew⟩

/-- Different pages are at different frames. -/
theorem frames_ne (h : Filled r K pages role m role' m') (hr : IsRoot role m r) {a b : PageSpec}
    (hne : ¬ SamePage a.va b.va) {q q' f f' : ℕ}
    (hq : translation m' r a.va = some (q, f)) (hq' : translation m' r b.va = some (q', f'))
    (hu : f.testBit 4 = true) (hu' : f'.testBit 4 = true) : q ≠ q' := by
  have hg := h.grows.good
  have hr' := h.grows.isRoot hr
  obtain ⟨l0, hc, hv, rfl, rfl⟩ := (hg.translation_iff hr').mp hq
  obtain ⟨l0', hc', hv', rfl, rfl⟩ := (hg.translation_iff hr').mp hq'
  intro he
  have hp := hg.leaf_page hc.level (vpn_lt a.va 0) hv (pteFlags_user.mp hu)
  have hp' := hg.leaf_page hc'.level (vpn_lt b.va 0) hv' (pteFlags_user.mp hu')
  rw [he, hp', Role.page.injEq] at hp
  obtain ⟨rfl, h0⟩ := hp
  exact hne (hc.samePage hc' h0.symm)

end Filled

/-- The pages of a loop that was left after some of them. -/
def FilledUpTo (r : ℕ) (K : ℕ → Prop) (pages : List PageSpec) (ok : Bool) (role : ℕ → Role)
    (m m' : Machine) : Prop :=
  ∃ role' n, Filled r K (pages.take n) role m role' m' ∧ (ok = true → n = pages.length)

/-- A frame with its contents in hand goes to one page. -/
theorem map_filled {K : ℕ → Prop} {q flags : ℕ} {bytes : ℕ → UInt8} (hg : Good role m)
    (hgot : Got m q m') (hr : IsRoot role m r) (hk : r = m.kernelRootPa → vpn va 2 ≠ userRootSlot)
    (hva : va % pageSize = 0) (hf : FlagsOk flags) (hu : flags.testBit 4 = true)
    (hb : m'.PageIs q bytes) (hK : K (vpn va 2)) :
    Prog.Wp (PageTable.map r va q flags) m' (fun res m'' =>
      FilledUpTo r K [⟨va, flags, bytes⟩] res.isOk role m m'') Prog.Never := by
  have hg' := hgot.good hg
  have hr' : IsRoot role m' r := (hgot.grows (P := Window r) hg).isRoot hr
  have hkr := hgot.kernelRootPa
  have hslots : ∀ h k, SlotsOf r m.kernelRootPa (slotOf va) h k → SlotsOf r m.kernelRootPa K h k := by
    rintro h k ⟨rfl, hh⟩
    exact ⟨hK, hh⟩
  have hflt := flagsOk_lt hf
  refine ((map_step hg hgot hr hk hva hflt hu).and
    (map_traced hg' hr' (by rw [hkr]; exact hk) hva hgot.frame.1)).mono ?_ fun _ h => h
  rintro res m₂ ⟨⟨role₂, hstep⟩, role₁, m₁, n, htr, hdata, hres⟩
  rw [hkr] at htr
  have hgrows := (hgot.grows hg).trans hg.tables htr.grows
  have hkeeps : KeepsData role m m₁ :=
    hgot.keepsData.trans (hgot.grows (P := Window r) hg) hdata
  cases res with
  | error e =>
    obtain rfl : m₂ = m₁ := hres
    have hsame := (hgot.sameLeaves hg).trans htr.leaves
    refine ⟨role₁, 0, ⟨hgrows.widen hslots, by simp, by simp, fun a _ => ?_, .nil, hkeeps⟩,
      by simp [isOk_error]⟩
    refine hgrows.translation hg hr ?_
    rintro ⟨l0, hc, hv⟩
    obtain ⟨hold, hv'⟩ := hsame l0 _ hc.level (vpn_lt a 0) hv
    exact ⟨l0, hgrows.chain_reflect hg hc hold, hv'⟩
  | ok u =>
    obtain ⟨l0, hc, rfl⟩ := hres
    have hg₁ := htr.grows.good
    have hr₁ := hgrows.isRoot hr
    have hpage := hstep.page
    -- the entry of the address, as it was written
    have hentry : (m₁.setPte l0 (vpn va 0) (leafPte q flags)).pte l0 (vpn va 0) =
        leafPte q flags := m₁.pte_setPte_self _ _ (leafPte_lt hgot.frame.lt hflt)
    have htr₂ : translation (m₁.setPte l0 (vpn va 0) (leafPte q flags)) r va = some (q, flags) := by
      rw [translation, leafEntry_table (tableAt_setPte hg₁ hr₁ hc), hentry,
        if_pos (leafPte_valid q flags), pteFlags_leafPte hf,
        pteAddr_leafPte hgot.frame.1 (lt_trans hgot.frame.lt (by norm_num)) hflt]
    refine ⟨role₂, 1, ⟨hpage.grows.widen hslots, ?_, ?_, ?_, ?_, ?_⟩, fun _ => rfl⟩
    · intro a ha
      obtain rfl := List.mem_singleton.mp ha
      by_contra hne
      exact (hstep.used rfl).1 ((hg.hasPage_iff hr).mpr hne)
    · intro a ha
      obtain rfl := List.mem_singleton.mp ha
      have hg₂ := hpage.grows.good
      obtain ⟨t, hct, hvt, hqt, hft⟩ :=
        (hg₂.translation_iff (hpage.grows.isRoot hr)).mp htr₂
      have hrole := hg₂.leaf_page hct.level (vpn_lt va 0) hvt (pteFlags_user.mp (hft ▸ hu))
      rw [← hqt] at hrole
      refine ⟨q, t, vpn va 0, htr₂, hgot.free, hrole, ?_⟩
      have hother : (role q).level = none := by
        rw [hgot.role_other hg]
        rfl
      refine (hb.agree (hdata q hgot.mine hother)).agree ?_
      have hq₁ : (role₁ q).level = none := by
        have : role₁ q = .other := by
          by_contra hne
          exact (htr.grows.fresh q (hgot.role_other hg) hne).1 hgot.mine
        rw [this]
        rfl
      exact KeepsData.setPte hc.level (hg₁.tables.aligned hc.level) (vpn_lt va 0) q
        (htr.grows.held q hgot.mine) hq₁
    · intro a ha
      refine hpage.grows.translation hg hr fun hp => ?_
      rcases hpage.pages hg hp with h | h
      · exact h
      · exact absurd h (ha ⟨va, flags, bytes⟩ (List.mem_singleton.mpr rfl))
    · exact List.pairwise_singleton _ _
    · refine hkeeps.trans hgrows ?_
      exact .setPte hc.level (hg₁.tables.aligned hc.level) (vpn_lt va 0)

/-- A loop whose rounds fill new pages, under an invariant that new pages keep. -/
theorem filled_rounds {β γ : Type} {f : β → MachineM (Except γ PUnit)} {K : ℕ → Prop}
    {J : (ℕ → Role) → Machine → Prop} (pages : β → List PageSpec) (l : List β) (hg : Good role m)
    (hr : role r = .root) (hj : J role m)
    (hJ : ∀ {role m role' m' ps}, Good role m → J role m → Filled r K ps role m role' m' →
      J role' m')
    (hf : ∀ x ∈ l, ∀ {role m}, Good role m → role r = .root → J role m →
      Prog.Wp (f x) m (fun res m' => FilledUpTo r K (pages x) res.isOk role m m') Prog.Never) :
    Prog.Wp (Prog.tryEach f l) m (fun res m' =>
      FilledUpTo r K (l.flatMap pages) res.isOk role m m') Prog.Never := by
  induction l generalizing role m with
  | nil => exact Prog.wp_pure.mpr ⟨role, 0, .nil hg, fun _ => rfl⟩
  | cons x l ih =>
    refine (hf x (by simp) hg hr hj).bind fun res m1 h1 => ?_
    obtain ⟨role1, n, h1, hn⟩ := h1
    rw [List.flatMap_cons]
    cases res with
    | error e =>
      refine Prog.wp_pure.mpr ⟨role1, min n (pages x).length, ?_, by simp [isOk_error]⟩
      rw [List.take_append_of_le_length (min_le_right _ _), List.take_eq_take_min]
      rw [List.take_eq_take_min] at h1
      simpa using h1
    | ok u =>
      have hlen := hn rfl
      rw [hlen, List.take_length] at h1
      have hg1 := h1.grows.good
      refine (ih hg1 ((h1.grows.root_iff r).mpr hr) (hJ hg hj h1)
        fun x' hx' => hf x' (by simp [hx'])).mono (fun res m2 h2 => ?_) fun _ h => h
      obtain ⟨role2, n2, h2, hn2⟩ := h2
      refine ⟨role2, (pages x).length + n2, ?_, fun ho => by simp [hn2 ho]⟩
      rw [List.take_length_add_append]
      exact h1.append hg h2

/-- A loop that fills one new page in every round. -/
theorem filled_loop {β γ : Type} {f : β → MachineM (Except γ PUnit)} {K : ℕ → Prop}
    (page : β → PageSpec) (l : List β) (hg : Good role m) (hr : role r = .root)
    (hf : ∀ x ∈ l, ∀ {role m}, Good role m → role r = .root → Prog.Wp (f x) m (fun res m' =>
      FilledUpTo r K [page x] res.isOk role m m') Prog.Never) :
    Prog.Wp (Prog.tryEach f l) m (fun res m' =>
      FilledUpTo r K (l.map page) res.isOk role m m') Prog.Never := by
  rw [List.map_eq_flatMap]
  exact filled_rounds (J := fun _ _ => True) (fun x => [page x]) l hg hr trivial
    (fun _ _ _ => trivial) fun x hx _ _ hg hr _ => hf x hx hg hr

end Map

end LightOS
