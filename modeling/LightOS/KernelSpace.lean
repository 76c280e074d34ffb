import LightOS.Teardown
import LightOS.Sv39

/-!
# The kernel's address space

Before the first process exists the kernel maps its own sections and the devices
one page after the other under its root. The pages are not owned by anybody, only
the tables are; a table is needed once for every 2 MiB that a range touches.
-/
namespace LightOS
open Lib PageAllocator

variable {role role' role'' : ℕ → Role} {m m' m'' : Machine} {r va l0 : ℕ}

theorem walkLevel_found {t level : ℕ} (create : Bool)
    (hv : pteValid (m.pte t (vpn va level)) = true)
    (hl : pteLeaf (m.pte t (vpn va level)) = false) :
    PageTable.walkLevel t va level create m =
      .ok (some (pteAddr (m.pte t (vpn va level))), m) := by
  rw [PageTable.walkLevel, Prog.bind_apply, Prog.get_apply]
  dsimp only
  rw [hv, hl]
  rfl

/-- A walk along tables that exist changes nothing. -/
theorem walk_found (create : Bool) (hg : Good role m)
    (hc : Chain role m r va l0) : PageTable.walk r va create m = .ok (some l0, m) := by
  obtain ⟨l1, h1, h0⟩ := hc
  have hlevel {t l i q : ℕ} (hq : role q = .child (l + 1) t i) (ht : ¬ Shared role m t i) :
      pteValid (m.pte t i) = true ∧ pteLeaf (m.pte t i) = false ∧ pteAddr (m.pte t i) = q := by
    obtain ⟨hl, hi, hv, ha, -, -⟩ := hg.tables.up q (l + 1) t i hq
    exact ⟨hv, ((hg.tables.down t (l + 1) i hl hi hv ht).1 (by omega)).1, ha⟩
  have hroot : pteValid (m.pte r (vpn va 2)) = true ∧ pteLeaf (m.pte r (vpn va 2)) = false ∧
      pteAddr (m.pte r (vpn va 2)) = l1 := by
    by_cases hs : Shared role m r (vpn va 2)
    · have hhome : home role m r (vpn va 2) = m.kernelRootPa := by simp [home, hs]
      rw [hg.tables.shared r _ hs (vpn_lt va 2), ← hhome]
      refine hlevel (l := 1) h1 fun hs' => ?_
      have := hs'.1.symm.trans (hhome ▸ (hg.tables.kroot _).mpr rfl)
      simp at this
    · have hhome : home role m r (vpn va 2) = r := by simp [home, hs]
      rw [hhome] at h1
      exact hlevel (l := 1) h1 hs
  have htable := hlevel (l := 0) h0 fun hs => by
    have := hs.1.symm.trans h1
    simp at this
  have hstep1 := walkLevel_found create hroot.1 hroot.2.1
  have hstep0 := walkLevel_found create htable.1 htable.2.1
  rw [hroot.2.2] at hstep1
  rw [htable.2.2] at hstep0
  exact Prog.bind_ok.mpr ⟨some l1, m, hstep1, hstep0⟩

/-- Only the 2 MiB around an address decide where its level-0 table is. -/
theorem Chain.block {va' : ℕ} (hc : Chain role m r va l0) (hb : va / 2 ^ 21 = va' / 2 ^ 21) :
    Chain role m r va' l0 := by
  have h2 : vpn va 2 = vpn va' 2 := by
    rw [vpn_eq, vpn_eq]
    omega
  have h1 : vpn va 1 = vpn va' 1 := by
    rw [vpn_eq, vpn_eq]
    omega
  obtain ⟨l1, e1, e0⟩ := hc
  exact ⟨l1, h2 ▸ e1, h1 ▸ e0⟩

/-- What mapping one page of the kernel at `va` does, and whether it succeeds. -/
structure KernelPage (va : ℕ) (ok : Bool) (role : ℕ → Role) (m : Machine) (role' : ℕ → Role)
    (m' : Machine) : Prop where
  grows : Grows (SlotsOf m.kernelRootPa m.kernelRootPa (slotOf va)) role m role' m'
  noLoose : NoLoose m role' m'
  leaves : ∀ t i, (role' t).level = some 0 → i < 512 → pteValid (m'.pte t i) = true →
    Chain role' m' m.kernelRootPa va t ∧ i = vpn va 0 ∨
      (role t).level = some 0 ∧ pteValid (m.pte t i) = true
  chain : ok = true → ∃ l0, Chain role' m' m.kernelRootPa va l0
  cost : m.pages.freeFrames ≤ m'.pages.freeFrames + 2
  found : (∃ l0, Chain role m m.kernelRootPa va l0) → m'.pages.freeFrames = m.pages.freeFrames
  fails : ok = false → (¬ ∃ l0, Chain role m m.kernelRootPa va l0) ∧ m.pages.freeFrames < 2 ∨
    HasPage role m m.kernelRootPa va

/-- The root of the kernel before any process exists. -/
theorem kernel_isRoot (hn : ∀ p, role p ≠ .root) : IsRoot role m m.kernelRootPa := .inr ⟨rfl, hn⟩

theorem kernel_not_shared (hn : ∀ p, role p ≠ .root) (t i : ℕ) : ¬ Shared role m t i :=
  fun hs => hn t hs.1

theorem kernel_home (hn : ∀ p, role p ≠ .root) (k : ℕ) :
    home role m m.kernelRootPa k = m.kernelRootPa := by simp [home, kernel_not_shared hn]

theorem mapKernel_spec {pa flags : ℕ} (hg : Good role m) (hn : ∀ p, role p ≠ .root)
    (hslot : vpn va 2 ≠ userRootSlot) (hva : va % pageSize = 0) (hpa : pa % pageSize = 0)
    (hlt : pa < 2 ^ 56) (hf : flags < 2 ^ 10) (hu : flags.testBit 4 = false) :
    Prog.Wp (PageTable.map m.kernelRootPa va pa flags) m (fun res m' =>
      ∃ role', KernelPage va res.isOk role m role' m') Prog.Never := by
  have hr := kernel_isRoot (m := m) hn
  unfold PageTable.map
  rw [if_neg (by simpa using hva), if_neg (by simpa using hpa)]
  have hwalk : Prog.Wp (PageTable.walk m.kernelRootPa va true) m (fun res m' => ∃ role',
      Walked (SlotsOf m.kernelRootPa m.kernelRootPa (slotOf va)) role m true 2 role' m' ∧
      ((∃ l0, Chain role m m.kernelRootPa va l0) → role' = role ∧ m' = m) ∧
      (res = none → (∀ l0, ¬ Chain role m m.kernelRootPa va l0) ∧ m.pages.freeFrames < 2) ∧
      ∀ l0, res = some l0 → Chain role' m' m.kernelRootPa va l0) Prog.Never := by
    by_cases hc : ∃ l0, Chain role m m.kernelRootPa va l0
    · obtain ⟨l0, hc⟩ := hc
      refine .of_ok (walk_found true hg hc) ⟨role, .refl hg, fun _ => ⟨rfl, rfl⟩,
        fun h => absurd h (Option.some_ne_none l0), fun l0' h => ?_⟩
      exact Option.some.inj h ▸ hc
    · refine (walk_spec true hg hr fun _ => hslot).mono ?_ fun _ h => h
      rintro res m1 ⟨role1, hw, hres⟩
      refine ⟨role1, hw, fun h => absurd h hc, fun h => ?_, fun l0 h => ?_⟩
      · rw [h] at hres
        exact ⟨hres.1, hres.2 rfl⟩
      · rwa [h] at hres
  refine hwalk.bind ?_
  rintro res m1 ⟨role1, hw, hsame, hnone, hsome⟩
  have hcost : m.pages.freeFrames ≤ m1.pages.freeFrames + 2 := hw.cost
  have hfound : (∃ l0, Chain role m m.kernelRootPa va l0) →
      m1.pages.freeFrames = m.pages.freeFrames := by
    intro hc
    rw [(hsame hc).2]
  cases res with
  | none =>
    refine Prog.wp_pure.mpr ⟨role1, hw.grows, hw.noLoose, fun t i ht hi hv =>
      .inr (hw.leaves t i ht hi hv), by simp [Except.isOk, Except.toBool], hcost, hfound,
      fun _ => .inl ⟨not_exists.mpr (hnone rfl).1, (hnone rfl).2⟩⟩
  | some l0 =>
    have hres := hsome l0 rfl
    have hl0 := hres.level
    have hi := vpn_lt va 0
    have hg1 := hw.grows.good
    dsimp only
    rw [Prog.wp_bind, Prog.wp_get]
    by_cases hv : pteValid (m1.pte l0 (vpn va 0)) = true
    · rw [if_pos hv]
      obtain ⟨hold, hv'⟩ := hw.leaves l0 _ hl0 hi hv
      exact Prog.wp_pure.mpr ⟨role1, hw.grows, hw.noLoose, fun t i ht hi hv =>
        .inr (hw.leaves t i ht hi hv), by simp [Except.isOk, Except.toBool], hcost, hfound,
        fun _ => .inr ⟨l0, hw.grows.chain_reflect hg hres hold, hv'⟩⟩
    · rw [if_neg hv, Prog.wp_bind, wp_writePte, Prog.wp_pure]
      rw [Bool.not_eq_true] at hv
      have hn1 : ∀ p, role1 p ≠ .root := fun p hp => hn p ((hw.grows.root_iff p).mp hp)
      have hkr := hw.grows.kernelRootPa
      have hedit : EntryEdit role1 m1 0 l0 (vpn va 0) (leafPte pa flags) := by
        refine ⟨hg1.tables, hl0, hi, leafPte_lt hlt hf, fun he => ?_⟩
        rw [he, hg1.tables.kroot_level] at hl0
        simp at hl0
      have hkt : KernelTable role1 m1 l0 := by
        obtain ⟨l1, h1, h0⟩ := hres
        rw [← hkr, kernel_home hn1] at h1
        exact ⟨l1, _, _, h0, h1⟩
      have htables := hedit.kernelLeaf hv (by rw [leafPte_user]; exact hu) hkt
      have hg2 : Good role1 (m1.setPte l0 (vpn va 0) (leafPte pa flags)) :=
        ⟨htables, hg1.pages, hg1.recorded.balanced, hg1.recorded.held⟩
      have hgrow : Grows (SlotsOf m.kernelRootPa m.kernelRootPa (slotOf va)) role1 m1 role1
          (m1.setPte l0 (vpn va 0) (leafPte pa flags)) := by
        refine ⟨hg2, fun _ _ => rfl, fun _ h h' => absurd h h', fun _ h => h, ?_,
          fun p hp => absurd hp (hn1 p), rfl, rfl, rfl, [], by simp; rfl, by simp; rfl, by simp⟩
        intro t l i ht hi'
        by_cases hti : t = l0 ∧ i = vpn va 0
        · obtain ⟨rfl, rfl⟩ := hti
          refine .inr ⟨hv, .inr ?_⟩
          have hb := hres.below (K := slotOf va) rfl
          rwa [hkr] at hb
        · exact .inl (hedit.other_level ht hi' (by tauto))
      have hfinal := hw.grows.trans hg.tables hgrow
      have hchain : Chain role1 (m1.setPte l0 (vpn va 0) (leafPte pa flags)) m.kernelRootPa va l0 :=
        hgrow.chain hres
      refine ⟨role1, hfinal, hw.noLoose, ?_, fun _ => ⟨l0, hchain⟩, hcost, hfound, by
        simp [Except.isOk, Except.toBool]⟩
      intro t i ht hi' hv'
      by_cases hti : t = l0 ∧ i = vpn va 0
      · obtain ⟨rfl, rfl⟩ := hti
        exact .inl ⟨hchain, rfl⟩
      · rw [hedit.other_level ht hi' (by tauto)] at hv'
        exact .inr (hw.leaves t i ht hi' hv')

/-- The tables that mapping pages at ascending addresses takes, where the tables of
the 2 MiB before block `B` exist. -/
def tableCost : ℕ → List ℕ → ℕ
  | _, [] => 0
  | B, va :: vas => if va / 2 ^ 21 < B then tableCost B vas else 2 + tableCost (va / 2 ^ 21 + 1) vas

theorem rangeVas_succ (va n : ℕ) : rangeVas va (n + 1) = va :: rangeVas (va + pageSize) n := by
  simp only [rangeVas, List.range_succ_eq_map, List.map_cons, List.map_map, Nat.zero_mul,
    Nat.add_zero, List.cons.injEq, true_and]
  refine List.map_congr_left fun i _ => ?_
  simp only [Function.comp_apply, pageSize]
  omega

theorem tableCost_range (n : ℕ) : ∀ B va, va % pageSize = 0 →
    tableCost B (rangeVas va n) ≤ 2 * ((va + n * pageSize + (2 ^ 21 - 1)) / 2 ^ 21 - B) := by
  induction n with
  | zero => intro B va _; simp [rangeVas, tableCost]
  | succ n ih =>
      intro B va hva
      have hnext (B : ℕ) := ih B (va + pageSize) (by simp only [pageSize] at *; omega)
      rw [rangeVas_succ, tableCost]
      split_ifs with hB
      · have := hnext B
        simp only [pageSize] at *
        omega
      · have := hnext (va / 2 ^ 21 + 1)
        simp only [pageSize] at *
        omega

/-- What mapping pages of the kernel at `vas` in order does, and whether it
succeeds. -/
structure KernelPages (vas : List ℕ) (ok : Bool) (c : ℕ) (role : ℕ → Role) (m : Machine)
    (role' : ℕ → Role) (m' : Machine) : Prop where
  grows : Grows (SlotsOf m.kernelRootPa m.kernelRootPa (slotsOf vas)) role m role' m'
  noLoose : NoLoose m role' m'
  pages : ∀ va, HasPage role' m' m.kernelRootPa va →
    HasPage role m m.kernelRootPa va ∨ ∃ va' ∈ vas, SamePage va va'
  cost : m.pages.freeFrames ≤ m'.pages.freeFrames + c
  fails : ok = false → m.pages.freeFrames < c + 2 ∨
    (∃ va ∈ vas, HasPage role m m.kernelRootPa va) ∨ ¬ vas.Pairwise fun a b => ¬ SamePage b a

theorem KernelPage.pages {ok : Bool} (h : KernelPage va ok role m role' m') (hg : Good role m)
    {va' : ℕ} (hp : HasPage role' m' m.kernelRootPa va') :
    HasPage role m m.kernelRootPa va' ∨ SamePage va' va := by
  obtain ⟨t, hc, hv⟩ := hp
  rcases h.leaves t _ hc.level (vpn_lt va' 0) hv with ⟨hc', h0⟩ | ⟨hl, hv'⟩
  · exact .inr (hc.samePage hc' h0)
  · exact .inl ⟨t, h.grows.chain_reflect hg hc hl, hv'⟩

namespace KernelPages

variable {vas : List ℕ} {ok : Bool} {c c' : ℕ}

theorem nil (hg : Good role m) : KernelPages [] true 0 role m role m :=
  ⟨.refl hg, .refl role m, fun _ h => .inl h, by simp, by simp⟩

/-- The first page of a loop could not be mapped. -/
theorem stop (hg : Good role m) (h : KernelPage va false role m role' m')
    (hc : (¬ ∃ l0, Chain role m m.kernelRootPa va l0) → 2 ≤ c) (vas : List ℕ) :
    KernelPages (va :: vas) false c role m role' m' := by
  refine ⟨h.grows.widen ?_, h.noLoose, fun a ha => ?_, ?_, fun _ => ?_⟩
  · rintro t k ⟨rfl, ht⟩
    exact ⟨⟨va, by simp, rfl⟩, ht⟩
  · exact (h.pages hg ha).imp_right fun hs => ⟨va, by simp, hs⟩
  · by_cases hch : ∃ l0, Chain role m m.kernelRootPa va l0
    · have := h.found hch
      omega
    · have := h.cost
      have := hc hch
      omega
  · rcases h.fails rfl with ⟨-, h1⟩ | h1
    · exact .inl (by omega)
    · exact .inr (.inl ⟨va, by simp, h1⟩)

/-- The first page was mapped and the loop went on. -/
theorem cons (hg : Good role m) (h : KernelPage va true role m role' m')
    (hc : m.pages.freeFrames ≤ m'.pages.freeFrames + c)
    (h' : KernelPages vas ok c' role' m' role'' m'') :
    KernelPages (va :: vas) ok (c + c') role m role'' m'' := by
  have hkr := h.grows.kernelRootPa
  have hg' := h'.grows
  have hp' := h'.pages
  have hf' := h'.fails
  rw [hkr] at hg' hp' hf'
  refine ⟨(h.grows.widen ?_).trans hg.tables (hg'.widen ?_), h.noLoose.trans h'.noLoose h'.grows,
    fun a ha => ?_, ?_, fun ho => ?_⟩
  · rintro t k ⟨rfl, ht⟩
    exact ⟨⟨va, by simp, rfl⟩, ht⟩
  · rintro t k ⟨⟨a, ha, rfl⟩, ht⟩
    exact ⟨⟨a, by simp [ha], rfl⟩, ht⟩
  · rcases hp' a ha with h1 | ⟨b, hb, hs⟩
    · exact (h.pages hg h1).imp_right fun hs => ⟨va, by simp, hs⟩
    · exact .inr ⟨b, by simp [hb], hs⟩
  · have := h'.cost
    omega
  · rcases hf' ho with h1 | ⟨a, ha, h1⟩ | h1
    · exact .inl (by omega)
    · rcases h.pages hg h1 with h2 | hs
      · exact .inr (.inl ⟨a, by simp [ha], h2⟩)
      · exact .inr (.inr fun hp => (List.pairwise_cons.mp hp).1 a ha hs)
    · exact .inr (.inr fun hp => h1 (List.pairwise_cons.mp hp).2)

end KernelPages

/-- Where the kernel may map a page of its own. -/
structure KernelVa (va : ℕ) : Prop where
  slot : vpn va 2 ≠ userRootSlot
  aligned : va % pageSize = 0
  lt : va < 2 ^ 56

/-- A loop over ascending addresses, with the tables before block `B` in place. -/
theorem kernelPages_spec {flags : ℕ} (hf : flags < 2 ^ 10) (hu : flags.testBit 4 = false)
    (vas : List ℕ) (hvas : ∀ va ∈ vas, KernelVa va)
    (hasc : vas.Pairwise fun a b => a / 2 ^ 21 ≤ b / 2 ^ 21) :
    ∀ {role : ℕ → Role} {m : Machine} (B : ℕ), Good role m → (∀ p, role p ≠ .root) →
      (∀ va ∈ vas, B ≤ va / 2 ^ 21 + 1) →
      (∀ va, va / 2 ^ 21 + 1 = B → ∃ l0, Chain role m m.kernelRootPa va l0) →
      Prog.Wp (Prog.tryEach (fun va => PageTable.map m.kernelRootPa va va flags) vas) m
        (fun res m' => ∃ role', KernelPages vas res.isOk (tableCost B vas) role m role' m')
        Prog.Never := by
  induction vas with
  | nil => exact fun B hg _ _ _ => Prog.wp_pure.mpr ⟨_, .nil hg⟩
  | cons va vas ih =>
      intro role m B hg hn hB hchain
      obtain ⟨hva1, hva2, hva3⟩ := hvas va (by simp)
      obtain ⟨hle, hasc'⟩ := List.pairwise_cons.mp hasc
      have hBva := hB va (by simp)
      -- a table is missing at most where the loop enters a new block
      have hknown : va / 2 ^ 21 < B → ∃ l0, Chain role m m.kernelRootPa va l0 :=
        fun h => hchain va (by omega)
      refine (mapKernel_spec hg hn hva1 hva2 hva2 hva3 hf hu).bind ?_
      rintro res m1 ⟨role1, h1⟩
      cases res with
      | error e =>
        refine Prog.wp_pure.mpr ⟨role1, .stop hg h1 (fun hno => ?_) vas⟩
        rw [tableCost, if_neg fun h => hno (hknown h)]
        omega
      | ok u =>
        have hn1 : ∀ p, role1 p ≠ .root := fun p hp => hn p ((h1.grows.root_iff p).mp hp)
        have hkr := h1.grows.kernelRootPa
        obtain ⟨l0, hl0⟩ := h1.chain rfl
        have hblock : ∀ a, a / 2 ^ 21 + 1 = va / 2 ^ 21 + 1 →
            ∃ l0, Chain role1 m1 m1.kernelRootPa a l0 := by
          intro a ha
          rw [hkr]
          exact ⟨l0, hl0.block (by omega)⟩
        have hnext := ih (fun a ha => hvas a (by simp [ha])) hasc' (va / 2 ^ 21 + 1)
          h1.grows.good hn1 (fun a ha => by have := hle a ha; omega) hblock
        rw [hkr] at hnext
        refine hnext.mono ?_ fun _ h => h
        rintro res m2 ⟨role2, h2⟩
        refine ⟨role2, ?_⟩
        rw [tableCost]
        split_ifs with hB'
        · have hBeq : B = va / 2 ^ 21 + 1 := by omega
          have hfree := h1.found (hknown hB')
          have h := KernelPages.cons (c := 0) hg h1 (by omega) h2
          rwa [Nat.zero_add, ← hBeq] at h
        · exact .cons hg h1 h1.cost h2

end LightOS
