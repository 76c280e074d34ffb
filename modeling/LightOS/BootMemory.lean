import LightOS.KernelSpace
import LightOS.Memory

/-!
# The memory that boot leaves behind

The allocator starts with every frame behind the kernel image free. The heap, the
kernel's page tables and the device queues are taken from it before the first
process; what is left over is free, and the tables form a forest with one tree.
-/
namespace LightOS
open Lib PageAllocator

/-! ### Programs that do not look at the kernel root

The tables of the kernel are built before `enable` makes their root known. -/

/-- The machine with another kernel root. -/
def Machine.rooted (m : Machine) (r : ℕ) : Machine := { m with kernelRootPa := r }

/-- The program neither reads nor writes the kernel root. -/
def Oblivious {α : Type} (x : MachineM α) : Prop :=
  ∀ m r, x (m.rooted r) = (x m).map fun a => (a.1, a.2.rooted r)

namespace Oblivious

variable {α β γ : Type}

theorem pure (a : α) : Oblivious (Pure.pure a) := fun _ _ => rfl

theorem stop (f : Fault) : Oblivious (Prog.stop f : MachineM α) := fun _ _ => rfl

theorem bind {x : MachineM α} {f : α → MachineM β} (hx : Oblivious x) (hf : ∀ a, Oblivious (f a)) :
    Oblivious (x >>= f) := by
  intro m r
  rw [Prog.bind_apply, Prog.bind_apply, hx m r]
  cases hxm : x m with
  | error e => rfl
  | ok a => exact hf a.1 a.2 r

theorem ofExcept (x : Except Fault α) : Oblivious (Prog.ofExcept x : MachineM α) := by
  intro m r
  cases x <;> rfl

/-- Looking at a part of the state that does not depend on the kernel root. -/
theorem read {f : Machine → MachineM β} (hg : ∀ m r, f (m.rooted r) = f m)
    (hf : ∀ m, Oblivious (f m)) : Oblivious (MonadState.get >>= f) := by
  intro m r
  rw [Prog.bind_apply, Prog.bind_apply, Prog.get_apply, Prog.get_apply]
  change f (m.rooted r) (m.rooted r) = (f m m).map _
  rw [hg]
  exact hf m m r

theorem each {f : β → MachineM PUnit} (hf : ∀ b, Oblivious (f b)) (l : List β) :
    Oblivious (Prog.each f l) := by
  induction l with
  | nil => exact .pure _
  | cons b l ih => exact (hf b).bind fun _ => ih

theorem tryEach {f : β → MachineM (Except γ PUnit)} (hf : ∀ b, Oblivious (f b)) (l : List β) :
    Oblivious (Prog.tryEach f l) := by
  induction l with
  | nil => exact .pure _
  | cons b l ih =>
      refine (hf b).bind fun r => ?_
      cases r with
      | ok u => exact ih
      | error e => exact .pure _

theorem writePte (t i v : ℕ) : Oblivious (LightOS.writePte t i v) := fun _ _ => rfl

theorem pageAlloc (n : ℕ) : Oblivious (LightOS.pageAlloc n) := by
  intro m r
  unfold LightOS.pageAlloc
  simp only [Prog.bind_apply, Prog.get_apply]
  rw [show (m.rooted r).pages = m.pages from rfl]
  cases m.pages.alloc n with
  | none => rfl
  | some x => rfl

theorem walkLevel (t va level : ℕ) (create : Bool) :
    Oblivious (PageTable.walkLevel t va level create) := by
  unfold PageTable.walkLevel
  refine .read (fun _ _ => rfl) fun m => ?_
  dsimp only
  split_ifs
  · exact .pure _
  · refine (Oblivious.pageAlloc 1).bind fun o => ?_
    cases o with
    | none => exact .pure _
    | some q => exact (Oblivious.writePte _ _ _).bind fun _ => .pure _
  · exact .stop _
  · exact .pure _

theorem walk (root va : ℕ) (create : Bool) : Oblivious (PageTable.walk root va create) := by
  unfold PageTable.walk
  refine (Oblivious.walkLevel _ _ _ _).bind fun o => ?_
  cases o with
  | none => exact .pure _
  | some l1 => exact .walkLevel _ _ _ _

theorem map (root va pa flags : ℕ) : Oblivious (PageTable.map root va pa flags) := by
  unfold PageTable.map
  split_ifs
  · exact .stop _
  · exact .stop _
  · refine (Oblivious.walk _ _ _).bind fun o => ?_
    cases o with
    | none => exact .pure _
    | some l0 =>
      refine .read (fun _ _ => rfl) fun m => ?_
      split_ifs
      · exact .pure _
      · exact (Oblivious.writePte _ _ _).bind fun _ => .pure _

theorem mapRange (root start stop flags : ℕ) :
    Oblivious (PageTable.mapRange root start stop flags) :=
  (Oblivious.ofExcept _).bind fun _ => .tryEach (fun _ => .map _ _ _ _) _

theorem expectOk {x : MachineM (Except String Unit)} (hx : Oblivious x) :
    Oblivious (LightOS.expectOk x) := by
  refine hx.bind fun r => ?_
  cases r with
  | ok u => exact .pure _
  | error e => exact .stop _

/-- A program that cannot see the root does the same without it. -/
theorem wp {x : MachineM α} (hx : Oblivious x) {m : Machine} {r : ℕ} {Q : α → Machine → Prop}
    {E : Fault → Prop} (h : Prog.Wp x (m.rooted r) Q E) :
    Prog.Wp x m (fun a m' => Q a (m'.rooted r)) E := by
  have he := hx m r
  cases hxm : x m with
  | error e =>
    rw [hxm] at he
    exact .of_error hxm (h.error he)
  | ok a =>
    rw [hxm] at he
    exact .of_ok hxm (h.ok he)

end Oblivious

/-! ### The allocator -/

/-- No frame behind the kernel image has been handed out. -/
structure AllFree (m : Machine) : Prop where
  first_le : m.pages.firstFrame ≤ maxFrames
  free : ∀ f, m.pages.firstFrame ≤ f → f < maxFrames → m.pages.bitmap f = false
  freeFrames : m.pages.freeFrames = maxFrames - m.pages.firstFrame
  log : m.log = []

namespace AllFree

variable {m : Machine}

theorem consistent (h : AllFree m) : m.pages.Consistent := by
  refine ⟨h.first_le, ?_⟩
  have hall : (Finset.Ico m.pages.firstFrame maxFrames).filter (fun f => m.pages.bitmap f = false) =
      Finset.Ico m.pages.firstFrame maxFrames := by
    refine Finset.filter_true_of_mem fun f hf => ?_
    obtain ⟨h1, h2⟩ := Finset.mem_Ico.mp hf
    exact h.free f h1 h2
  rw [hall, Nat.card_Ico, h.freeFrames]

theorem not_held (h : AllFree m) (p : ℕ) : ¬ m.Held p := by
  rintro ⟨hf, hb⟩
  obtain ⟨h1, h2⟩ := hf.frame_lt
  simp [h.free _ h1 h2] at hb

theorem recorded (h : AllFree m) : m.Recorded := by
  refine ⟨by rw [h.log]; exact Loan.balanced_nil, fun p _ => iff_of_false (h.not_held p) ?_⟩
  rw [h.log]
  simp

end AllFree

theorem pageInit_spec {m : Machine} {heapStart : ℕ} (hal : heapStart % pageSize = 0)
    (h1 : ramStart ≤ heapStart) (h2 : heapStart ≤ ramEnd) (hlog : m.log = []) :
    Prog.Wp (pageInit heapStart) m (fun _ m' => AllFree m' ∧
      m'.pages.firstFrame = (heapStart - ramStart) / pageSize) Prog.Never := by
  have hup : pageUp heapStart = .ok heapStart := by
    refine pageUp_ok.mpr ?_
    simp only [ramEnd, ramStart, ramSize, pageSize, usizeBound] at *
    omega
  have hfirst : (heapStart - ramStart) / pageSize ≤ maxFrames := by
    simp only [ramEnd, maxFrames, pageSize, ramStart, ramSize] at *
    omega
  have haddr : (pageUp heapStart >>= addrToFrame) = .ok ((heapStart - ramStart) / pageSize) := by
    rw [hup]
    change addrToFrame heapStart = _
    rw [addrToFrame, if_pos h1]
  unfold pageInit
  rw [Prog.wp_bind, Prog.wp_get, Prog.wp_bind, Prog.wp_ofExcept, haddr]
  dsimp only
  rw [if_neg (by omega), Prog.wp_set]
  exact ⟨⟨hfirst, fun f h h' => if_pos ⟨h, h'⟩, rfl, hlog⟩, rfl⟩

/-- A scan through free frames ends at the frame where it starts. -/
theorem scan_free (a : PageAllocator) (n : ℕ) : ∀ left frame run start, run < n →
    (∀ f, frame ≤ f → f < frame + left → a.bitmap f = false) → n - run ≤ left →
    scan a n left frame run start = some start := by
  intro left
  induction left with
  | zero => intro frame run start h _ h'; omega
  | succ left ih =>
      intro frame run start hrun hfree hleft
      rw [scan, hfree frame le_rfl (by omega)]
      simp only [Bool.false_eq_true, if_false]
      split_ifs with hn
      · rfl
      · exact ih _ _ _ (by omega) (fun f h1 h2 => hfree f (by omega) (by omega)) (by omega)

/-- The first allocation succeeds if there are enough frames at all. -/
theorem AllFree.alloc {m : Machine} (h : AllFree m) {n : ℕ} (hn : 0 < n)
    (hle : n ≤ maxFrames - m.pages.firstFrame) : m.pages.alloc n ≠ none := by
  have h1 := h.freeFrames
  rw [PageAllocator.alloc, if_neg (by omega), scan_free m.pages n _ _ _ _ hn ?_ (by omega)]
  · simp
  · intro f hf hf'
    have := h.first_le
    exact h.free f hf (by omega)

/-! ### The kernel tables -/

section Tables

variable {role role' role'' : ℕ → Role} {m m' m'' : Machine} {q : ℕ}

/-- The forest of one empty root. -/
abbrev kernelRole (q : ℕ) : ℕ → Role := Function.update (fun _ => .other) q .kroot

theorem kernelRole_self (q : ℕ) : kernelRole q q = .kroot := Function.update_self ..

theorem kernelRole_root (q p : ℕ) : kernelRole q p ≠ .root := by
  by_cases h : p = q
  · simp [h]
  · simp [h]

theorem firstRoot_good (hr : m.Recorded) (hq : Handed m 1 q m') :
    Good (kernelRole q) (m'.rooted q) := by
  have hrole : ∀ p, kernelRole q p ≠ .other → p = q := by
    intro p hp
    by_contra hne
    simp [hne] at hp
  have hzero : ∀ i, i < 512 → (m'.rooted q).pte q i = 0 := by
    intro i hi
    refine readWord_zero fun b h1 h2 => ?_
    change m'.mem b = 0
    rw [hq.mem]
    simp only [fillZero, pageSize]
    rw [if_pos (by omega)]
  have hheld : (m'.rooted q).Held q := (hq.held q).mpr (.inr ⟨0, hq.pos, by simp⟩)
  have hrec := hq.recorded hr
  refine ⟨⟨fun p hp => hrole p hp ▸ hheld, fun p => ?_, ?_, fun t i hs => ?_, fun t l hl => ?_,
    fun t l i hl hi hv => ?_, fun p l t i hp => ?_⟩, hq.consistent, hrec.balanced, hrec.held⟩
  · by_cases hp : p = q
    · simp [hp, Machine.rooted]
    · simp [hp, Machine.rooted]
  · change pteValid ((m'.rooted q).pte q userRootSlot) = false
    rw [hzero _ (by decide), pteValid_zero]
  · exact absurd hs.1 (kernelRole_root q t)
  · rw [hrole t (Role.ne_other_of_level hl), kernelRole_self, Role.level,
      Option.some.injEq] at hl
    omega
  · rw [hrole t (Role.ne_other_of_level hl), hzero i hi] at hv
    simp at hv
  · have he := hrole p (by rw [hp]; simp)
    rw [he, kernelRole_self] at hp
    exact absurd hp.symm (by simp)

/-- A new root maps nothing. -/
theorem firstRoot_no_page (m : Machine) (q va : ℕ) : ¬ HasPage (kernelRole q) m q va := by
  rintro ⟨l0, ⟨l1, h1, -⟩, -⟩
  have he : l1 = q := by
    by_contra hne
    simp [hne] at h1
  rw [he, kernelRole_self] at h1
  simp at h1

theorem KernelPages.append {vas vas' : List ℕ} {ok : Bool} {c c' : ℕ} (hg : Good role m)
    (h : KernelPages vas true c role m role' m') (h' : KernelPages vas' ok c' role' m' role'' m'') :
    KernelPages (vas ++ vas') ok (c + c') role m role'' m'' := by
  have hkr := h.grows.kernelRootPa
  have hg' := h'.grows
  have hp' := h'.pages
  have hf' := h'.fails
  rw [hkr] at hg' hp' hf'
  refine ⟨(h.grows.widen ?_).trans hg.tables (hg'.widen ?_), h.noLoose.trans h'.noLoose h'.grows,
    fun a ha => ?_, ?_, fun ho => ?_⟩
  · exact NewPages.slots_left _ _
  · exact NewPages.slots_right _ _
  · rcases hp' a ha with h1 | ⟨b, hb, hs⟩
    · exact (h.pages a h1).imp_right fun ⟨b, hb, hs⟩ => ⟨b, by simp [hb], hs⟩
    · exact .inr ⟨b, by simp [hb], hs⟩
  · have := h.cost
    have := h'.cost
    omega
  · rcases hf' ho with h1 | ⟨a, ha, h1⟩ | h1
    · have := h.cost
      exact .inl (by omega)
    · rcases h.pages a h1 with h2 | ⟨b, hb, hs⟩
      · exact .inr (.inl ⟨a, by simp [ha], h2⟩)
      · exact .inr (.inr fun hp => (List.pairwise_append.mp hp).2.2 b hb a ha hs)
    · exact .inr (.inr fun hp => h1 (List.pairwise_append.mp hp).2.1)

/-- A failed part makes the whole fail. -/
theorem KernelPages.fail {vas : List ℕ} {c : ℕ} (vas' : List ℕ) (c' : ℕ)
    (h : KernelPages vas false c role m role' m') :
    m.pages.freeFrames < c + c' + 2 ∨ (∃ va ∈ vas ++ vas', HasPage role m m.kernelRootPa va) ∨
      ¬ (vas ++ vas').Pairwise fun a b => ¬ SamePage b a := by
  rcases h.fails rfl with h1 | ⟨a, ha, h1⟩ | h1
  · exact .inl (by omega)
  · exact .inr (.inl ⟨a, by simp [ha], h1⟩)
  · exact .inr (.inr fun hp => h1 (List.pairwise_append.mp hp).1)

/-- The pages of one range of the kernel's address space. -/
def rangePages (r : ℕ × ℕ × ℕ) : List ℕ :=
  rangeVas (pageDown r.1) (((r.2.1 + 4095) / 4096 * 4096 - pageDown r.1) / pageSize)

/-- What `map_range` needs of a range. -/
structure RangeOk (r : ℕ × ℕ × ℕ) : Prop where
  stop : r.2.1 + 4096 < usizeBound
  flags : r.2.2 < 2 ^ 10
  kernel : r.2.2.testBit 4 = false
  pages : ∀ va ∈ rangePages r, KernelVa va

theorem rangeVas_ascending (va n : ℕ) :
    (rangeVas va n).Pairwise fun a b => a / 2 ^ 21 ≤ b / 2 ^ 21 := by
  rw [rangeVas, List.pairwise_map]
  refine List.Pairwise.imp ?_ (List.pairwise_lt_range (n := n))
  intro i j hij
  refine Nat.div_le_div_right ?_
  simp only [pageSize]
  omega

/-- One range. -/
theorem kernelRange_spec {r : ℕ × ℕ × ℕ} (hr : RangeOk r) (hg : Good role m)
    (hn : ∀ p, role p ≠ .root) :
    Prog.Wp (PageTable.mapRange m.kernelRootPa r.1 r.2.1 r.2.2) m (fun res m' => ∃ role',
      KernelPages (rangePages r) res.isOk (tableCost 0 (rangePages r)) role m role' m')
      Prog.Never := by
  unfold PageTable.mapRange
  rw [Prog.wp_bind, Prog.wp_ofExcept, pageUp_ok.mpr ⟨hr.stop, rfl⟩]
  dsimp only
  have h := kernelPages_spec hr.flags hr.kernel (rangePages r) hr.pages (rangeVas_ascending _ _) 0
    hg hn (by simp) (by simp)
  rw [rangePages, rangeVas, Prog.tryEach_map] at h
  exact h

/-- The frames that the tables for some ranges need at most. -/
def rangesCost (rs : List (ℕ × ℕ × ℕ)) : ℕ := (rs.map fun r => tableCost 0 (rangePages r)).sum

/-- All ranges in order; the kernel stops if one of them cannot be mapped. -/
theorem kernelRanges_spec (rs : List (ℕ × ℕ × ℕ)) (hrs : ∀ r ∈ rs, RangeOk r) :
    ∀ {role : ℕ → Role} {m : Machine}, Good role m → (∀ p, role p ≠ .root) →
      Prog.Wp (Prog.each (fun r => expectOk (PageTable.mapRange m.kernelRootPa r.1 r.2.1 r.2.2)) rs)
        m (fun _ m' => ∃ role',
          KernelPages (rs.flatMap rangePages) true (rangesCost rs) role m role' m')
        (fun _ => m.pages.freeFrames < rangesCost rs + 2 ∨
          (∃ va ∈ rs.flatMap rangePages, HasPage role m m.kernelRootPa va) ∨
          ¬ (rs.flatMap rangePages).Pairwise fun a b => ¬ SamePage b a) := by
  induction rs with
  | nil => exact fun hg _ => Prog.wp_pure.mpr ⟨_, .nil hg⟩
  | cons r rs ih =>
      intro role m hg hn
      have hcost : rangesCost (r :: rs) = tableCost 0 (rangePages r) + rangesCost rs := by
        simp [rangesCost]
      have hrange := kernelRange_spec (hrs r (by simp)) hg hn
      rw [List.flatMap_cons, hcost]
      have hfirst : Prog.Wp (expectOk (PageTable.mapRange m.kernelRootPa r.1 r.2.1 r.2.2)) m
          (fun _ m' => ∃ role', KernelPages (rangePages r) true (tableCost 0 (rangePages r))
            role m role' m')
          (fun _ => m.pages.freeFrames < tableCost 0 (rangePages r) + rangesCost rs + 2 ∨
            (∃ va ∈ rangePages r ++ rs.flatMap rangePages, HasPage role m m.kernelRootPa va) ∨
            ¬ (rangePages r ++ rs.flatMap rangePages).Pairwise fun a b => ¬ SamePage b a) := by
        refine Prog.Wp.bind (hrange.mono (fun _ _ h => h) fun _ h => h.elim) ?_
        rintro res m1 ⟨role1, h1⟩
        cases res with
        | ok u => exact Prog.wp_pure.mpr ⟨role1, h1⟩
        | error e => exact Prog.wp_stop.mpr (h1.fail _ _)
      refine hfirst.bind ?_
      rintro u m1 ⟨role1, h1⟩
      have hn1 : ∀ p, role1 p ≠ .root := fun p hp => hn p ((h1.grows.root_iff p).mp hp)
      have hrest := ih (fun r' hr' => hrs r' (by simp [hr'])) h1.grows.good hn1
      rw [h1.grows.kernelRootPa] at hrest
      refine hrest.mono ?_ ?_
      · rintro _ m2 ⟨role2, h2⟩
        exact ⟨role2, h1.append hg h2⟩
      · intro f hf
        have hcost1 := h1.cost
        rcases hf with h | ⟨va, hva, h⟩ | h
        · exact .inl (by omega)
        · rcases h1.pages va h with h2 | ⟨b, hb, hs⟩
          · exact .inr (.inl ⟨va, by simp [hva], h2⟩)
          · exact .inr (.inr fun hp => (List.pairwise_append.mp hp).2.2 b hb va hva hs)
        · exact .inr (.inr fun hp => h (List.pairwise_append.mp hp).2.1)

end Tables

/-! ### The ranges of the linker script -/

section Ranges

variable (l : Linker)

theorem mem_rangePages {r : ℕ × ℕ × ℕ} {va : ℕ} (h : va ∈ rangePages r) :
    va % pageSize = 0 ∧ pageDown r.1 ≤ va ∧ va + pageSize ≤ (r.2.1 + 4095) / 4096 * 4096 := by
  obtain ⟨i, hi, rfl⟩ := List.mem_map.mp h
  have hi := List.mem_range.mp hi
  simp only [pageDown, pageSize] at *
  omega

theorem rangePages_apart {r r' : ℕ × ℕ × ℕ} (h : (r.2.1 + 4095) / 4096 * 4096 ≤ pageDown r'.1 ∨
    (r'.2.1 + 4095) / 4096 * 4096 ≤ pageDown r.1) {va va' : ℕ} (hva : va ∈ rangePages r)
    (hva' : va' ∈ rangePages r') : va ≠ va' := by
  have h1 := mem_rangePages hva
  have h2 := mem_rangePages hva'
  simp only [pageSize] at *
  omega

theorem rangePages_nodup (r : ℕ × ℕ × ℕ) : (rangePages r).Nodup := by
  refine List.Nodup.map (fun i j h => ?_) List.nodup_range
  simp only [pageSize] at h
  omega

/-- One past the last address of the ranges, and their flags. -/
theorem kernelRanges_bounds {r : ℕ × ℕ × ℕ} (hr : r ∈ kernelRanges l) :
    r.2.2 < 2 ^ 10 ∧ r.2.2.testBit 4 = false ∧ (r.2.1 ≤ 0x20000000 ∨
      ramStart ≤ r.1 ∧ r.2.1 ≤ ramEnd) := by
  obtain ⟨_, _, _, _, _, h1, h2, h3, h4, h5, h6, h7, h8, h9⟩ := l
  simp only [kernelRanges, List.mem_cons, List.not_mem_nil, or_false, Linker.textStart] at hr
  rcases hr with rfl | rfl | rfl | rfl | rfl | rfl | rfl | rfl
  all_goals refine ⟨by dsimp only; decide, by dsimp only; decide, ?_⟩
  all_goals simp only [ramEnd, ramStart, ramSize, pageSize, testBase, testSize, uart0Base, uart0Size,
    virtioBase, virtioSize, clintBase, clintSize, plicBase, plicSize] at *
  all_goals omega

theorem kernelRanges_ok {r : ℕ × ℕ × ℕ} (hr : r ∈ kernelRanges l) : RangeOk r := by
  obtain ⟨h1, h2, h3⟩ := kernelRanges_bounds l hr
  refine ⟨?_, h1, h2, fun va hva => ?_⟩
  · simp only [ramEnd, ramStart, ramSize, usizeBound] at *
    omega
  · obtain ⟨h4, h5, h6⟩ := mem_rangePages hva
    simp only [ramEnd, ramStart, ramSize, pageSize, pageDown] at *
    refine ⟨?_, h4, by omega⟩
    simp only [vpn_eq, userRootSlot, Nat.reduceMul, Nat.reduceAdd, Nat.reducePow]
    omega

theorem kernelRanges_disjoint : (kernelRanges l).Pairwise fun r r' =>
    (r.2.1 + 4095) / 4096 * 4096 ≤ pageDown r'.1 ∨
      (r'.2.1 + 4095) / 4096 * 4096 ≤ pageDown r.1 := by
  obtain ⟨_, _, _, _, _, h1, h2, h3, h4, h5, h6, h7, h8, h9⟩ := l
  simp only [kernelRanges, Linker.textStart]
  simp only [ramEnd, ramStart, ramSize, pageSize, pageDown, testBase, testSize, uart0Base, uart0Size,
    virtioBase, virtioSize, clintBase, clintSize, plicBase, plicSize] at *
  simp only [List.pairwise_cons, List.mem_cons, List.not_mem_nil, or_false, forall_eq_or_imp,
    forall_eq, List.Pairwise.nil, and_true, false_imp_iff, implies_true]
  and_intros
  all_goals omega

/-- No page is mapped twice. -/
theorem kernelRanges_apart :
    ((kernelRanges l).flatMap rangePages).Pairwise fun a b => ¬ SamePage b a := by
  have hlt : ∀ va ∈ (kernelRanges l).flatMap rangePages, va < 2 ^ 39 ∧ va % pageSize = 0 := by
    intro va hva
    obtain ⟨r, hr, hva⟩ := List.mem_flatMap.mp hva
    obtain ⟨-, -, h3⟩ := kernelRanges_bounds l hr
    obtain ⟨h4, h5, h6⟩ := mem_rangePages hva
    simp only [ramEnd, ramStart, ramSize, pageSize] at *
    omega
  have hne : ((kernelRanges l).flatMap rangePages).Nodup := by
    refine List.nodup_flatMap.mpr ⟨fun r _ => rangePages_nodup r, ?_⟩
    refine (kernelRanges_disjoint l).imp fun {r r'} h va hva hva' => ?_
    exact rangePages_apart h hva hva' rfl
  refine List.Pairwise.imp_of_mem (fun {a b} ha hb hab hs => hab ?_) hne
  obtain ⟨ha1, ha2⟩ := hlt a ha
  obtain ⟨hb1, hb2⟩ := hlt b hb
  have := vpn_inj hb1 ha1 hs.2.2 hs.2.1 hs.1
  simp only [pageSize] at *
  omega

theorem rangePages_cost (r : ℕ × ℕ × ℕ) :
    tableCost 0 (rangePages r) ≤ 2 * ((r.2.1 + 4095 + (2 ^ 21 - 1)) / 2 ^ 21) ∨
      rangePages r = [] := by
  by_cases h : pageDown r.1 ≤ (r.2.1 + 4095) / 4096 * 4096
  · have := tableCost_range (((r.2.1 + 4095) / 4096 * 4096 - pageDown r.1) / pageSize) 0
      (pageDown r.1) (by simp only [pageDown, pageSize]; omega)
    refine .inl (this.trans ?_)
    simp only [pageDown, pageSize] at *
    omega
  · refine .inr ?_
    rw [rangePages, Nat.sub_eq_zero_of_le (by omega)]
    rfl

theorem rangesCost_le : rangesCost (kernelRanges l) ≤ 8000 := by
  have hcost : ∀ r : ℕ × ℕ × ℕ, ∀ b, r.2.1 ≤ b →
      tableCost 0 (rangePages r) ≤ 2 * ((b + 4095 + (2 ^ 21 - 1)) / 2 ^ 21) := by
    intro r b hb
    rcases rangePages_cost r with h | h
    · refine h.trans ?_
      have := Nat.div_le_div_right (c := 2 ^ 21) (Nat.add_le_add_right hb (4095 + (2 ^ 21 - 1)))
      omega
    · rw [h]
      exact Nat.zero_le _
  have h1 : l.textEnd ≤ ramEnd := by
    have := l.text_le; have := l.rodata_le; have := l.data_le; have := l.heap_le
    exact le_trans (by omega) l.ram_le
  have h2 : l.rodataEnd ≤ ramEnd := by
    have := l.data_le; have := l.heap_le
    exact le_trans (by omega) l.ram_le
  simp only [rangesCost, kernelRanges, List.map_cons, List.map_nil, List.sum_cons, List.sum_nil]
  have := hcost (Linker.textStart, l.textEnd, pteR ||| pteX) ramEnd h1
  have := hcost (l.rodataStart, l.rodataEnd, pteR) ramEnd h2
  have := hcost (l.dataStart, ramEnd, pteR ||| pteW) ramEnd le_rfl
  have := hcost (uart0Base, uart0Base + uart0Size, pteR ||| pteW) _ le_rfl
  have := hcost (virtioBase, virtioBase + virtioSize, pteR ||| pteW) _ le_rfl
  have := hcost (clintBase, clintBase + clintSize, pteR ||| pteW) _ le_rfl
  have := hcost (plicBase, plicBase + plicSize, pteR ||| pteW) _ le_rfl
  have := hcost (testBase, testBase + testSize, pteR ||| pteW) _ le_rfl
  simp only [ramEnd, ramStart, ramSize, pageSize, testBase, testSize, uart0Base, uart0Size,
    virtioBase, virtioSize, clintBase, clintSize, plicBase, plicSize, Nat.reduceMul, Nat.reduceAdd,
    Nat.reducePow, Nat.reduceSub, Nat.reduceDiv] at *
  omega

end Ranges

/-! ### The whole of boot -/

/-- The memory of the kernel before the first process. -/
structure KernelMemory (role : ℕ → Role) (regions : List Region) (m : Machine) : Prop where
  good : Good role m
  no_root : ∀ p, role p ≠ .root
  region : ∀ r ∈ regions, ∀ q, r.Has q → m.Held q ∧ role q = .other
  apart : regions.Pairwise fun r r' => ∀ q, r.Has q → ¬ r'.Has q

theorem pageAlloc_enough {m : Machine} {n : ℕ} (hc : m.pages.Consistent)
    (hne : m.pages.alloc n ≠ none) :
    Prog.Wp (pageAlloc n) m (fun r m' => ∃ q, r = some q ∧ Handed m n q m') Prog.Never := by
  have h := pageAlloc_spec n hc
  unfold pageAlloc at *
  obtain ⟨x, hx⟩ := Option.ne_none_iff_exists'.mp hne
  rw [Prog.wp_bind, Prog.wp_get, hx] at h ⊢
  exact .of_ok rfl ⟨x.1, rfl, Prog.Wp.ok (a := some x.1) h rfl⟩

theorem kallocInit_spec {m : Machine} (h : AllFree m) :
    Prog.Wp kallocInit m (fun q m' => Handed m initialHeapPages q m')
      (fun _ => m.pages.freeFrames < initialHeapPages) := by
  by_cases hne : m.pages.alloc initialHeapPages = none
  · have hx : pageAlloc initialHeapPages m = .ok (none, m) := by
      unfold pageAlloc
      rw [Prog.bind_apply, Prog.get_apply]
      dsimp only
      rw [hne]
      rfl
    refine Prog.Wp.bind (.of_ok (Q := fun o m' => o = none ∧ m' = m) hx ⟨rfl, rfl⟩) ?_
    rintro o m' ⟨rfl, rfl⟩
    refine Prog.wp_stop.mpr ?_
    by_contra hle
    have := h.freeFrames
    exact h.alloc (by decide) (by omega) hne
  · refine ((pageAlloc_enough h.consistent hne).mono (fun _ _ h => h) fun _ h => h.elim).bind ?_
    rintro o m' ⟨q, rfl, hq⟩
    exact Prog.wp_pure.mpr hq

/-- The kernel's tables; a lack of frames is the only way to fail. -/
theorem kernelPageTable_spec (l : Linker) {m : Machine} (hr : m.Recorded)
    (hc : m.pages.Consistent) :
    Prog.Wp (kernelPageTable l) m (fun q m' => ∃ role, Good role (m'.rooted q) ∧
      (∀ p, role p ≠ .root) ∧ (∀ p, m.Held p → m'.Held p ∧ role p = .other) ∧
      m.pages.freeFrames ≤ m'.pages.freeFrames + 8001)
      (fun _ => m.pages.freeFrames < 8003) := by
  refine ((pageAlloc_spec 1 hc).mono (fun _ _ h => h) fun _ h => h.elim).bind ?_
  intro o m1 h1
  cases o with
  | none =>
    have := h1.2 rfl
    exact Prog.wp_stop.mpr (by omega)
  | some q =>
    change Handed m 1 q m1 at h1
    have hcost := rangesCost_le l
    have hfree := h1.freeFrames
    have hobl : Oblivious (Prog.each (fun r => expectOk (PageTable.mapRange q r.1 r.2.1 r.2.2))
        (kernelRanges l)) := .each (fun r => (Oblivious.mapRange _ _ _ _).expectOk) _
    have hall := hobl.wp (kernelRanges_spec (m := m1.rooted q) (kernelRanges l)
      (fun r hr => kernelRanges_ok l hr) (firstRoot_good hr h1) (kernelRole_root q))
    refine (hall.mono (fun _ _ h => h) ?_).bind ?_
    · rintro f (h | ⟨va, -, h⟩ | h)
      · change m1.pages.freeFrames < _ at h
        omega
      · exact absurd h (firstRoot_no_page _ _ _)
      · exact absurd (kernelRanges_apart l) h
    · rintro u m2 ⟨role, h2⟩
      refine Prog.wp_pure.mpr ⟨role, h2.grows.good, ?_, ?_, ?_⟩
      · exact fun p hp => kernelRole_root q p ((h2.grows.root_iff p).mp hp)
      · intro p hp
        have hne : p ≠ q := by
          rintro rfl
          exact h1.free 0 h1.pos (by simpa using hp)
        exact h2.grows.keepsLoose p ((h1.held p).mpr (.inl hp)) (by simp [kernelRole, hne])
      · have h3 : m1.pages.freeFrames ≤ m2.pages.freeFrames + _ := h2.cost
        omega

/-- The frames behind the kernel image. -/
def Linker.frames (l : Linker) : ℕ := maxFrames - (l.heapStart - ramStart) / pageSize

theorem memInit_spec (l : Linker) {m : Machine} (hlog : m.log = []) :
    Prog.Wp (memInit l) m (fun heap m' => ∃ role,
      KernelMemory role [⟨.heap, heap, initialHeapPages⟩] m' ∧
        l.frames ≤ m'.pages.freeFrames + 9025) (fun _ => l.frames < 9027) := by
  have hstart : ramStart ≤ l.heapStart := by
    have := l.text_start; have := l.text_le; have := l.rodata_le; have := l.data_le
    have := l.heap_le
    omega
  refine ((pageInit_spec l.heap_aligned hstart l.ram_le hlog).mono (fun _ _ h => h)
    fun _ h => h.elim).bind ?_
  rintro u m1 ⟨h1, hfirst⟩
  have hframes : l.frames = m1.pages.freeFrames := by
    rw [h1.freeFrames, hfirst, Linker.frames]
  refine ((kallocInit_spec h1).mono (fun _ _ h => h) fun _ h => ?_).bind ?_
  · simp only [initialHeapPages] at h
    omega
  rintro heap m2 h2
  have hfree := h2.freeFrames
  refine ((kernelPageTable_spec l (h2.recorded h1.recorded) h2.consistent).mono (fun _ _ h => h)
    fun _ h => ?_).bind ?_
  · simp only [initialHeapPages] at *
    omega
  rintro root m3 ⟨role, hg, hn, hheld, hcost⟩
  rw [Prog.wp_bind, enable, Prog.wp_modify, Prog.wp_pure]
  refine ⟨role, ⟨hg, hn, ?_, List.pairwise_singleton _ _⟩, ?_⟩
  · rintro r hr q ⟨i, hi, rfl⟩
    obtain rfl := List.mem_singleton.mp hr
    exact hheld _ ((h2.held _).mpr (.inr ⟨i, hi, rfl⟩))
  · simp only [initialHeapPages] at *
    omega

/-- A driver takes its pages. -/
theorem keepPages_spec (ns : List ℕ) : ∀ {role : ℕ → Role} {regions : List Region} {m : Machine},
    KernelMemory role regions m →
      Prog.Wp (keepPages ns regions) m (fun regions' m' => KernelMemory role regions' m' ∧
        m.pages.freeFrames ≤ m'.pages.freeFrames + ns.sum) Prog.Never := by
  induction ns with
  | nil => exact fun h => Prog.wp_pure.mpr ⟨h, by simp⟩
  | cons n ns ih =>
      intro role regions m h
      refine (pageAlloc_spec n h.good.pages).bind ?_
      intro o m1 h1
      cases o with
      | none =>
        obtain ⟨rfl, -⟩ := h1
        exact Prog.wp_pure.mpr ⟨h, by omega⟩
      | some q =>
        change Handed m n q m1 at h1
        have hfree := h1.freeFrames
        have hother : ∀ i < n, role (q + i * pageSize) = .other := by
          intro i hi
          by_contra hne
          exact h1.free i hi (h.good.tables.held _ hne)
        have hmem : KernelMemory role (⟨.device, q, n⟩ :: regions) m1 := by
          refine ⟨h1.good h.good, h.no_root, ?_, List.pairwise_cons.mpr ⟨?_, h.apart⟩⟩
          · rintro r hr p hp
            rcases List.mem_cons.mp hr with rfl | hr
            · obtain ⟨i, hi, rfl⟩ := hp
              exact ⟨(h1.held _).mpr (.inr ⟨i, hi, rfl⟩), hother i hi⟩
            · obtain ⟨h2, h3⟩ := h.region r hr p hp
              exact h1.keepsLoose p h2 h3
          · rintro r hr p ⟨i, hi, rfl⟩ hp
            exact h1.free i hi (h.region r hr _ hp).1
        refine (ih hmem).mono ?_ fun _ h => h
        rintro regions' m' ⟨h2, h3⟩
        exact ⟨h2, by rw [List.sum_cons]; omega⟩

theorem bootMemory_spec (r : Reset) :
    Prog.Wp (bootMemory r) r.machine (fun regions m => ∃ role, KernelMemory role regions m ∧
      r.linker.frames ≤ m.pages.freeFrames + 9036) (fun _ => r.linker.frames < 9027) := by
  have hsum : ∀ ns : List ℕ, ∀ n, (ns.take n).sum ≤ ns.sum := by
    intro ns n
    exact (List.take_sublist n ns).sum_le_sum fun _ _ => Nat.zero_le _
  refine (memInit_spec r.linker rfl).bind ?_
  rintro heap m1 ⟨role, h1, hc1⟩
  refine ((keepPages_spec _ h1).mono (fun _ _ h => h) fun _ h => h.elim).bind ?_
  rintro regions m2 ⟨h2, hc2⟩
  refine ((keepPages_spec _ h2).mono (fun _ _ h => h) fun _ h => h.elim).mono ?_ fun _ h => h
  rintro regions' m3 ⟨h3, hc3⟩
  have hb := hsum [2] r.blkPages
  have hn := hsum [2, 2, 4, 1] r.netPages
  simp only [List.sum_cons, List.sum_nil] at hb hn
  exact ⟨role, h3, by omega⟩

/-- The memory of a kernel without processes. -/
theorem KernelMemory.memory {role : ℕ → Role} {k : Kernel} (h : KernelMemory role k.regions k.machine)
    (hnone : ∀ i, k.procs.slots i = none) : Memory role k := by
  refine ⟨h.good, ?_, ?_, ?_, h.region, h.apart⟩
  · intro i p hp
    simp [hnone] at hp
  · intro i j p q hp
    simp [hnone] at hp
  · intro i p hp
    simp [hnone] at hp

theorem boot_eq {r : Reset} {k : Kernel} (h : boot r = .ok k) :
    bootMemory r r.machine = .ok (k.regions, k.machine) ∧ ∀ i, k.procs.slots i = none := by
  unfold boot at h
  cases hb : bootMemory r r.machine with
  | error e =>
    rw [hb] at h
    cases h
  | ok a =>
    rw [hb] at h
    obtain rfl := Except.ok.inj h
    exact ⟨rfl, fun _ => rfl⟩

/-- Boot leaves a memory without processes. -/
theorem boot_memory {r : Reset} {k : Kernel} (h : boot r = .ok k) : ∃ role, Memory role k := by
  obtain ⟨hb, hnone⟩ := boot_eq h
  obtain ⟨role, hm, -⟩ := (bootMemory_spec r).ok hb
  exact ⟨role, hm.memory hnone⟩

/-- Boot succeeds when the kernel image leaves enough memory. -/
theorem boot_succeeds (r : Reset) (h : 9027 ≤ r.linker.frames) : ∃ k role, boot r = .ok k ∧
    Memory role k ∧ r.linker.frames ≤ k.machine.pages.freeFrames + 9036 := by
  have hspec := bootMemory_spec r
  cases hb : bootMemory r r.machine with
  | error e =>
    have := hspec.error hb
    omega
  | ok a =>
    obtain ⟨role, hm, hfree⟩ := hspec.ok hb
    cases hk : boot r with
    | error e =>
      unfold boot at hk
      rw [hb] at hk
      cases hk
    | ok k =>
      obtain ⟨hb', hnone⟩ := boot_eq hk
      obtain rfl := Except.ok.inj (hb.symm.trans hb')
      exact ⟨k, role, rfl, hm.memory hnone, hfree⟩

/-! ### Whole runs -/

/-- A step that unmaps only in the user window keeps the memory in order. -/
theorem Memory.step {role : ℕ → Role} {e : Event} {k k' : Kernel} (h : Memory role k)
    (he : e.unmapsWindow) (hn : Next e k k') : ∃ role', Memory role' k' :=
  hn.keeps (I := fun k => ∃ role, Memory role k) ⟨role, h⟩
    fun _ _ ⟨_, ha⟩ hm => ha.move he h.mmap_aligned hm

theorem Event.unmapsWindow_of_not_trap {e : Event} (h : ∀ t, e ≠ .trap t) : e.unmapsWindow := by
  intro t io hc
  exact absurd hc.event (h t)

theorem Booted.memory {k : Kernel} (h : Booted k) : ∃ role, Memory role k := by
  obtain ⟨r, kb, hb, hr⟩ := h
  refine hr.invariant (I := fun k => ∃ role, Memory role k) (boot_memory hb) ?_
  rintro e s t hc hn ⟨role, hm⟩
  refine hm.step (Event.unmapsWindow_of_not_trap ?_) hn
  rintro t rfl
  exact hc

theorem Started.memory {k : Kernel} (h : Started k) : ∃ role, Memory role k := by
  obtain ⟨kb, disk, hb, hn, -⟩ := h
  obtain ⟨role, hm⟩ := hb.memory
  exact hm.step (Event.unmapsWindow_of_not_trap (by simp)) hn

/-- Runs in which processes unmap only their own window. -/
abbrev ReachesWindow (k k' : Kernel) : Prop := ReachesIf (fun e _ => e.unmapsWindow) k k'

theorem ReachesWindow.memory {k0 k : Kernel} (hs : Started k0) (hr : ReachesWindow k0 k) :
    ∃ role, Memory role k :=
  hr.invariant (I := fun k => ∃ role, Memory role k) hs.memory
    fun _ _ _ he hn ⟨_, hm⟩ => hm.step he.2 hn

end LightOS
