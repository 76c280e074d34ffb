import LightOS.Space

/-!
# What mapping pages costs

A new page needs a frame of its own and one for every table that is missing on the
way to it. A plan follows a loop of new pages on the level of addresses alone: it
tells in advance whether the frames suffice, and if they do not, whether they run
out between two pages or with a page in hand. The loops of the kernel follow it.
-/
namespace LightOS
open Lib PageAllocator

variable {role role' role'' : ℕ → Role} {m m' m'' : Machine}

/-! ### Plans -/

instance (a b : ℕ) : Decidable (SamePage a b) := inferInstanceAs (Decidable (_ ∧ _ ∧ _))

/-- What a root maps, as far as a plan has to know: for every address, whether the
root entry, the level-0 table and the page are there. -/
structure Present where
  slot : ℕ → Bool
  table : ℕ → Bool
  page : ℕ → Bool

/-- How a loop of new pages ends. -/
inductive Outcome where
  /-- All pages are mapped and so many frames are left. -/
  | enough (left : ℕ)
  /-- No frame was left for the next page. -/
  | dry
  /-- The next page had its frame, but could not be mapped. -/
  | stuck
  deriving DecidableEq, Repr

namespace Present

/-- The page at `va` and the tables on the way to it are there now. -/
def add (b : Present) (va : ℕ) : Present where
  slot v := b.slot v || decide (vpn v 2 = vpn va 2)
  table v := b.table v || decide (vpn v 2 = vpn va 2 ∧ vpn v 1 = vpn va 1)
  page v := b.page v || decide (SamePage v va)

/-- The frames that a new page at `va` takes. -/
def need (b : Present) (va : ℕ) : ℕ := 1 + if b.table va then 0 else if b.slot va then 1 else 2

/-- Map the pages in order with `n` frames to spend. -/
def plan : Present → ℕ → List ℕ → Outcome
  | _, n, [] => .enough n
  | b, n, va :: vas =>
    if n = 0 then .dry
    else if b.page va || n < b.need va then .stuck
    else plan (b.add va) (n - b.need va) vas

/-- What is there after all pages of the list are mapped. -/
def addAll (b : Present) (vas : List ℕ) : Present := vas.foldl add b

theorem plan_append (b : Present) (n : ℕ) (vas vas' : List ℕ) :
    b.plan n (vas ++ vas') = match b.plan n vas with
      | .enough left => (b.addAll vas).plan left vas'
      | .dry => .dry
      | .stuck => .stuck := by
  induction vas generalizing b n with
  | nil => rfl
  | cons va vas ih =>
    rw [List.cons_append, plan, plan]
    split_ifs
    · rfl
    · rfl
    · exact ih (b.add va) (n - b.need va)

/-- The frames that a list of new pages takes. -/
def cost : Present → List ℕ → ℕ
  | _, [] => 0
  | b, va :: vas => b.need va + cost (b.add va) vas

/-- No page of the list is there already when its turn comes. -/
def fresh : Present → List ℕ → Bool
  | _, [] => true
  | b, va :: vas => !b.page va && fresh (b.add va) vas

theorem plan_enough_iff {b : Present} {n left : ℕ} {vas : List ℕ} :
    b.plan n vas = .enough left ↔ b.fresh vas = true ∧ n = b.cost vas + left := by
  induction vas generalizing b n with
  | nil => simp [plan, fresh, cost]
  | cons va vas ih =>
    have hpos : 0 < b.need va := by
      unfold need
      omega
    rw [plan, fresh, cost]
    by_cases h0 : n = 0
    · rw [if_pos h0]
      simp only [reduceCtorEq, false_iff]
      rintro ⟨-, h⟩
      omega
    · rw [if_neg h0]
      by_cases hs : (b.page va || decide (n < b.need va)) = true
      · rw [if_pos hs]
        simp only [reduceCtorEq, false_iff]
        rintro ⟨h1, h2⟩
        simp only [Bool.or_eq_true, decide_eq_true_eq] at hs
        rcases hs with hs | hs
        · simp [hs] at h1
        · omega
      · rw [if_neg hs, ih]
        simp only [Bool.or_eq_true, decide_eq_true_eq, not_or, Bool.not_eq_true] at hs
        rw [hs.1]
        simp only [Bool.not_false, Bool.true_and]
        constructor
        · rintro ⟨h1, h2⟩
          exact ⟨h1, by omega⟩
        · rintro ⟨h1, h2⟩
          exact ⟨h1, by omega⟩

theorem fresh_of_apart {b : Present} {vas : List ℕ} (hb : ∀ va ∈ vas, b.page va = false)
    (hp : vas.Pairwise fun a b => ¬ SamePage b a) : b.fresh vas = true := by
  induction vas generalizing b with
  | nil => rfl
  | cons va vas ih =>
    obtain ⟨h1, h2⟩ := List.pairwise_cons.mp hp
    rw [fresh, hb va (by simp), Bool.not_false, Bool.true_and]
    refine ih (fun v hv => ?_) h2
    simp only [add, hb v (by simp [hv]), Bool.false_or, decide_eq_false_iff_not]
    exact h1 v hv

/-- Where no page is there already, a loop gets stuck unless the frames reach to the end
or are used up exactly by the first pages. -/
theorem plan_stuck_iff {b : Present} {n : ℕ} {vas : List ℕ} (hf : b.fresh vas = true) :
    b.plan n vas ≠ .stuck ↔ b.cost vas ≤ n ∨ ∃ i, b.cost (vas.take i) = n := by
  induction vas generalizing b n with
  | nil => simp [plan, cost]
  | cons va vas ih =>
    have hpos : 0 < b.need va := by
      unfold need
      omega
    rw [fresh, Bool.and_eq_true, Bool.not_eq_true'] at hf
    rw [plan, cost, hf.1]
    by_cases h0 : n = 0
    · rw [if_pos h0]
      simp only [ne_eq, reduceCtorEq, not_false_eq_true, true_iff]
      exact Or.inr ⟨0, by simp [cost, h0]⟩
    · rw [if_neg h0]
      by_cases hs : n < b.need va
      · rw [if_pos (by simpa using hs)]
        simp only [ne_eq, not_true_eq_false, false_iff, not_or, not_exists]
        refine ⟨by omega, fun i hi => ?_⟩
        cases i with
        | zero =>
          rw [List.take_zero, cost] at hi
          omega
        | succ i =>
          rw [List.take_succ_cons, cost] at hi
          omega
      · rw [if_neg (by simpa using hs), ih hf.2]
        refine or_congr (by omega) ⟨?_, ?_⟩
        · rintro ⟨i, hi⟩
          refine ⟨i + 1, ?_⟩
          rw [List.take_succ_cons, cost]
          omega
        · rintro ⟨i, hi⟩
          cases i with
          | zero =>
            rw [List.take_zero, cost] at hi
            omega
          | succ i =>
            rw [List.take_succ_cons, cost] at hi
            exact ⟨i, by omega⟩

end Present

/-! ### Loops -/

/-- The plan's view of root `r` is right. -/
structure Sees (b : Present) (r : ℕ) (role : ℕ → Role) (m : Machine) : Prop where
  slot : ∀ va, b.slot va = pteValid (m.pte r (vpn va 2))
  table : ∀ va, b.table va = true ↔ ∃ l0, Chain role m r va l0
  page : ∀ va, b.page va = true ↔ HasPage role m r va

theorem Sees.need {b : Present} {r : ℕ} (h : Sees b r role m) (va : ℕ) :
    b.need va = 1 + shortage role m r va := by
  unfold Present.need shortage
  rw [← h.slot va]
  by_cases ht : b.table va = true
  · rw [if_pos ht, if_pos ((h.table va).mp ht)]
  · rw [if_neg ht, if_neg fun hc => ht ((h.table va).mpr hc)]

/-- Memory ran out before the page could be mapped. -/
theorem NewPage.exhausted {r va : ℕ} (hg : Good role m) (h : m.pages.freeFrames = 0) :
    NewPage r va false role m role m :=
  ⟨.refl hg, by omega, by simp, fun _ _ ht _ hv => Or.inr ⟨ht, hv⟩, by simp,
    fun _ => Or.inl (by omega)⟩

/-- An attempt to map one new page at `va`: the exact price of success, and what is left
behind by a failure. -/
structure Attempt (r va : ℕ) (ok : Bool) (role : ℕ → Role) (m : Machine) (role' : ℕ → Role)
    (m' : Machine) : Prop where
  page : NewPage r va ok role m role' m'
  path : OnPath va role m role' m'
  spares : Spares (SlotsOf r m.kernelRootPa (slotOf va)) role m m'
  used : ok = true → ¬ HasPage role m r va ∧
    m.pages.freeFrames = m'.pages.freeFrames + (1 + shortage role m r va)
  failed : ok = false → m.pages.freeFrames = 0 ∧ role' = role ∧ m' = m ∨
    0 < m.pages.freeFrames ∧
      (m.pages.freeFrames < 1 + shortage role m r va ∨ HasPage role m r va) ∧
      ∃ q, ¬ m.Held q ∧ m'.Held q ∧ role' q = .other

namespace Attempt

variable {r va : ℕ} {ok : Bool}

theorem exhausted (hg : Good role m) (h : m.pages.freeFrames = 0) :
    Attempt r va false role m role m :=
  ⟨.exhausted hg h, .refl va role m, .refl _ role m, by simp, fun _ => Or.inl ⟨h, rfl, rfl⟩⟩

theorem of_step {q : ℕ} {m1 : Machine} (hgot : Got m q m1)
    (h : PageStep r va q ok role m role' m') : Attempt r va ok role m role' m' := by
  refine ⟨h.page, h.path, h.spares, h.used, fun ho => Or.inr ?_⟩
  obtain ⟨h1, h2, h3⟩ := h.stuck ho
  have := hgot.freeFrames
  exact ⟨by omega, h1, q, hgot.free, h2, h3⟩

/-- The new root entries, tables and pages are those on the way to `va`. -/
theorem sees {b : Present} (hg : Good role m) (hr : IsRoot role m r) (hs : Sees b r role m)
    (h : Attempt r va true role m role' m') : Sees (b.add va) r role' m' := by
  have hgrows := h.page.grows
  have hmapped := h.page.mapped rfl
  obtain ⟨t0, hc0, hv0⟩ := hmapped
  refine ⟨fun v => ?_, fun v => ?_, fun v => ?_⟩
  · rw [Bool.eq_iff_iff]
    simp only [Present.add, Bool.or_eq_true, decide_eq_true_eq, hs.slot]
    constructor
    · rintro (hv | he)
      · rcases hgrows.pte r 2 (vpn v 2) (hr.level hg) (vpn_lt v 2) with h1 | ⟨h1, -⟩
        · rw [h1]
          exact hv
        · rw [hv] at h1
          simp at h1
      · by_contra hno
        rw [Bool.not_eq_true, he] at hno
        exact no_chain_slot hgrows.good hno t0 hc0
    · intro hv
      rcases h.path r 2 (vpn v 2) ((hgrows.isRoot hr).level hgrows.good) (vpn_lt v 2) hv with
        h1 | ⟨-, h1⟩
      · exact Or.inr h1
      · rw [h1] at hv
        exact Or.inl hv
  · simp only [Present.add, Bool.or_eq_true, decide_eq_true_eq, hs.table]
    constructor
    · rintro (⟨l0, hc⟩ | ⟨h2, h1⟩)
      · exact ⟨l0, hgrows.chain hc⟩
      · obtain ⟨l1, e1, e0⟩ := hc0
        exact ⟨t0, l1, by rw [h2]; exact e1, by rw [h1]; exact e0⟩
    · rintro ⟨l0, hc⟩
      by_cases hold : role l0 = .other
      · right
        -- a new table hangs below the slot of `va`, in an entry that was filled now
        obtain ⟨-, r', k', hP, hu⟩ := hgrows.fresh l0 hold (Role.ne_other_of_level hc.level)
        have hslot : vpn v 2 = vpn va 2 := by
          rw [← hP.1]
          exact (hc.under.unique hgrows.good.tables hu).2
        obtain ⟨l1, e1, e0⟩ := hc
        obtain ⟨hl1, hi, hv, ha, hns, -⟩ := hgrows.good.tables.up l0 1 l1 _ e0
        refine ⟨hslot, ?_⟩
        rcases h.path l1 1 _ hl1 hi hv with h1 | ⟨h1, he⟩
        · exact h1
        · exfalso
          have hns' : ¬ Shared role m l1 (vpn v 1) := by
            intro hsh
            rw [hsh.1] at h1
            simp [Role.level] at h1
          obtain ⟨-, hrole⟩ := (hg.tables.down l1 1 _ h1 hi (he ▸ hv) hns').1 (by omega)
          rw [← he, ha, hold] at hrole
          simp [Role.child] at hrole
      · left
        have hl : (role l0).level = some 0 := by
          rw [← hgrows.keep l0 hold]
          exact hc.level
        exact ⟨l0, hgrows.chain_reflect hg hc hl⟩
  · simp only [Present.add, Bool.or_eq_true, decide_eq_true_eq, hs.page]
    constructor
    · rintro (hp | he)
      · exact hgrows.hasPage hp
      · obtain ⟨e2, e1, e0⟩ := he
        exact HasPage.congr ⟨e2.symm, e1.symm, e0.symm⟩ ⟨t0, hc0, hv0⟩
    · exact fun hp => h.page.pages hg hp

end Attempt

/-- What a loop of new pages at `vas` does if it is planned with the view `b`. -/
structure Ran (b : Present) (r : ℕ) (vas : List ℕ) (ok : Bool) (role : ℕ → Role) (m : Machine)
    (role' : ℕ → Role) (m' : Machine) : Prop where
  pages : NewPages r vas ok role m role' m'
  spares : Spares (SlotsOf r m.kernelRootPa (slotsOf vas)) role m m'
  outcome : match b.plan m.pages.freeFrames vas with
    | .enough left => ok = true ∧ m'.pages.freeFrames = left ∧ Sees (b.addAll vas) r role' m'
    | .dry => ok = false ∧ NoLoose m role' m'
    | .stuck => ok = false ∧ ∃ q, ¬ m.Held q ∧ m'.Held q ∧ role' q = .other

namespace Ran

variable {b : Present} {r : ℕ} {vas vas' : List ℕ} {ok : Bool}

theorem enough (h : Ran b r vas true role m role' m') :
    b.plan m.pages.freeFrames vas = .enough m'.pages.freeFrames ∧
      Sees (b.addAll vas) r role' m' := by
  have ho := h.outcome
  cases hplan : b.plan m.pages.freeFrames vas with
  | enough left =>
    rw [hplan] at ho
    exact ⟨by rw [ho.2.1], ho.2.2⟩
  | dry =>
    rw [hplan] at ho
    simp at ho
  | stuck =>
    rw [hplan] at ho
    simp at ho

/-- A loop that failed was planned to fail. -/
theorem not_enough (h : Ran b r vas false role m role' m') (left : ℕ) :
    b.plan m.pages.freeFrames vas ≠ .enough left := by
  intro hplan
  have ho := h.outcome
  rw [hplan] at ho
  simp at ho

theorem nil (hg : Good role m) (hs : Sees b r role m) : Ran b r [] true role m role m :=
  ⟨.nil hg, .refl _ role m, rfl, rfl, hs⟩

theorem one {va : ℕ} (hg : Good role m) (hr : IsRoot role m r) (hs : Sees b r role m)
    (h : Attempt r va ok role m role' m') : Ran b r [va] ok role m role' m' := by
  refine ⟨.one hg h.page, h.spares.widen ?_, ?_⟩
  · rintro h k ⟨hk, hh⟩
    exact ⟨⟨va, by simp, hk⟩, hh⟩
  · simp only [Present.plan, hs.need]
    cases ok with
    | true =>
      obtain ⟨hno, hused⟩ := h.used rfl
      have hpage : b.page va = false := by
        by_contra hc
        exact hno ((hs.page va).mp (by simpa using hc))
      rw [if_neg (by omega), if_neg (by rw [hpage, Bool.false_or, decide_eq_true_eq]; omega)]
      exact ⟨rfl, by omega, h.sees hg hr hs⟩
    | false =>
      rcases h.failed rfl with ⟨h0, rfl, rfl⟩ | ⟨hpos, hwhy, hloose⟩
      · rw [if_pos h0]
        exact ⟨rfl, .refl _ _⟩
      · have hstuck : (b.page va || decide (m.pages.freeFrames < 1 + shortage role m r va)) =
            true := by
          rw [Bool.or_eq_true, decide_eq_true_eq, hs.page]
          exact hwhy.symm
        rw [if_neg (by omega), if_pos hstuck]
        exact ⟨rfl, hloose⟩

/-- A loop that was left early: the rest of the addresses is never tried. -/
theorem stop (vas' : List ℕ) (h : Ran b r vas false role m role' m') :
    Ran b r (vas ++ vas') false role m role' m' := by
  refine ⟨h.pages.stop vas', h.spares.widen (NewPages.slots_left _ _), ?_⟩
  have ho := h.outcome
  rw [Present.plan_append]
  cases hplan : b.plan m.pages.freeFrames vas with
  | enough left =>
    rw [hplan] at ho
    simp at ho
  | dry =>
    rw [hplan] at ho
    exact ho
  | stuck =>
    rw [hplan] at ho
    exact ho

theorem trans (hg : Good role m) (h : Ran b r vas true role m role' m')
    (h' : Ran (b.addAll vas) r vas' ok role' m' role'' m'') :
    Ran b r (vas ++ vas') ok role m role'' m'' := by
  have hkr := h.pages.grows.kernelRootPa
  have hsp := h'.spares
  rw [hkr] at hsp
  refine ⟨h.pages.trans hg h'.pages, ?_, ?_⟩
  · exact (h.spares.widen (NewPages.slots_left _ _)).trans
      (h.pages.grows.widen (NewPages.slots_left _ _)) hg.tables
      (hsp.widen (NewPages.slots_right _ _))
  · have ho := h'.outcome
    rw [Present.plan_append, h.enough.1]
    dsimp only
    cases hplan : (b.addAll vas).plan m'.pages.freeFrames vas' with
    | enough left =>
      rw [hplan] at ho
      have hall : b.addAll (vas ++ vas') = (b.addAll vas).addAll vas' := List.foldl_append
      rw [hall]
      exact ho
    | dry =>
      rw [hplan] at ho
      exact ⟨ho.1, (h.pages.noLoose rfl).trans ho.2 h'.pages.grows⟩
    | stuck =>
      rw [hplan] at ho
      obtain ⟨ho, q, h1, h2, h3⟩ := ho
      exact ⟨ho, q, fun hq => h1 (h.pages.grows.held q hq), h2, h3⟩

end Ran

/-- A loop that maps one new page in every round follows the plan. -/
theorem newPages_ran {β γ : Type} {f : β → MachineM (Except γ PUnit)} {b : Present} {r : ℕ}
    (va : β → ℕ) (l : List β) (hg : Good role m) (hr : role r = .root) (hs : Sees b r role m)
    (hf : ∀ x ∈ l, ∀ {role m}, Good role m → role r = .root → Prog.Wp (f x) m (fun res m' =>
      ∃ role', Attempt r (va x) res.isOk role m role' m') Prog.Never) :
    Prog.Wp (Prog.tryEach f l) m (fun res m' =>
      ∃ role', Ran b r (l.map va) res.isOk role m role' m') Prog.Never := by
  induction l generalizing b role m with
  | nil => exact Prog.wp_pure.mpr ⟨role, .nil hg hs⟩
  | cons x l ih =>
    refine (hf x (by simp) hg hr).bind fun res m1 h1 => ?_
    obtain ⟨role1, h1⟩ := h1
    have hone := Ran.one hg (Or.inl hr) hs h1
    cases res with
    | error e => exact Prog.wp_pure.mpr ⟨role1, hone.stop (l.map va)⟩
    | ok u =>
      have hg1 := h1.page.grows
      refine (ih hg1.good ((hg1.root_iff r).mpr hr) hone.enough.2 fun x' hx' =>
        hf x' (by simp [hx'])).mono (fun res m2 h2 => ?_) fun _ h => h
      obtain ⟨role2, h2⟩ := h2
      exact ⟨role2, hone.trans hg h2⟩

/-! ### The view of a root -/

/-- What root `r` maps, read off the page tables. -/
def Machine.view (m : Machine) (r : ℕ) : Present where
  slot va := pteValid (m.pte r (vpn va 2))
  table va := pteValid (m.pte r (vpn va 2)) &&
    pteValid (m.pte (pteAddr (m.pte r (vpn va 2))) (vpn va 1))
  page va := pteValid (m.pte r (vpn va 2)) &&
    pteValid (m.pte (pteAddr (m.pte r (vpn va 2))) (vpn va 1)) &&
    pteValid (m.pte (pteAddr (m.pte (pteAddr (m.pte r (vpn va 2))) (vpn va 1))) (vpn va 0))

/-- A valid root entry leads to the level-1 table of the slot. -/
theorem root_entry (hg : Good role m) {r k : ℕ} (hr : IsRoot role m r) (hk : k < 512)
    (hv : pteValid (m.pte r k) = true) :
    role (pteAddr (m.pte r k)) = .table 1 (home role m r k) k := by
  by_cases hs : Shared role m r k
  · rw [home, if_pos hs]
    exact (hs.table hg hk).2.2
  · rw [home, if_neg hs]
    exact ((hg.tables.down r 2 k (hr.level hg) hk hv hs).1 (by omega)).2

/-- The level-0 table of an address, read off the page tables. -/
theorem Good.chain_iff (hg : Good role m) {r va l0 : ℕ} (hr : IsRoot role m r) :
    Chain role m r va l0 ↔ pteValid (m.pte r (vpn va 2)) = true ∧
      pteValid (m.pte (pteAddr (m.pte r (vpn va 2))) (vpn va 1)) = true ∧
      l0 = pteAddr (m.pte (pteAddr (m.pte r (vpn va 2))) (vpn va 1)) := by
  constructor
  · intro hc
    have hv : pteValid (m.pte r (vpn va 2)) = true := by
      by_contra hno
      exact no_chain_slot hg (by simpa using hno) l0 hc
    have h1 := root_entry hg hr (vpn_lt va 2) hv
    have hv1 : pteValid (m.pte (pteAddr (m.pte r (vpn va 2))) (vpn va 1)) = true := by
      by_contra hno
      exact no_chain_table hg h1 (by simpa using hno) l0 hc
    obtain ⟨hlevel, hns, -⟩ := second_level hg hr h1
    obtain ⟨-, h0⟩ := (hg.tables.down _ 1 _ hlevel (vpn_lt va 1) hv1 hns).1 (by omega)
    exact ⟨hv, hv1, hc.unique hg ⟨_, h1, h0⟩⟩
  · rintro ⟨hv, hv1, rfl⟩
    have h1 := root_entry hg hr (vpn_lt va 2) hv
    obtain ⟨hlevel, hns, -⟩ := second_level hg hr h1
    exact ⟨_, h1, ((hg.tables.down _ 1 _ hlevel (vpn_lt va 1) hv1 hns).1 (by omega)).2⟩

/-- The tables tell the whole truth about a root. -/
theorem Good.sees (hg : Good role m) {r : ℕ} (hr : IsRoot role m r) :
    Sees (m.view r) r role m := by
  refine ⟨fun va => rfl, fun va => ?_, fun va => ?_⟩
  · simp only [Machine.view, Bool.and_eq_true, hg.chain_iff hr]
    constructor
    · rintro ⟨h1, h2⟩
      exact ⟨_, h1, h2, rfl⟩
    · rintro ⟨_, h1, h2, -⟩
      exact ⟨h1, h2⟩
  · simp only [Machine.view, Bool.and_eq_true, HasPage, hg.chain_iff hr]
    constructor
    · rintro ⟨⟨h1, h2⟩, h3⟩
      exact ⟨_, ⟨h1, h2, rfl⟩, h3⟩
    · rintro ⟨_, ⟨h1, h2, rfl⟩, h3⟩
      exact ⟨⟨h1, h2⟩, h3⟩

end LightOS
