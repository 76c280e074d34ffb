import LightOS.Contents
import LightOS.BootMemory

/-!
# What the kernel maps

The eight ranges of `kernel_page_table` cover no page twice, so the loops never meet a page
that is mapped already. Followed page by page, they leave a table whose translation is the
identity with the permissions of the sections, and nothing else.
-/
namespace LightOS
open Lib PageAllocator

variable {role role' role'' : ℕ → Role} {m m' m'' : Machine} {va flags : ℕ}

/-- Pages of the kernel with their permissions, each mapped to itself. -/
structure KernelMapped (pages : List (ℕ × ℕ)) (role : ℕ → Role) (m : Machine)
    (role' : ℕ → Role) (m' : Machine) : Prop where
  grows : Grows (fun _ _ => True) role m role' m'
  after : ∀ a ∈ pages, translation m' m.kernelRootPa a.1 = some a
  other : ∀ va, (∀ a ∈ pages, ¬ SamePage va a.1) →
    translation m' m.kernelRootPa va = translation m m.kernelRootPa va

namespace KernelMapped

variable {pages pages' : List (ℕ × ℕ)}

theorem nil (hg : Good role m) : KernelMapped [] role m role m :=
  ⟨.refl hg, nofun, fun _ _ => rfl⟩

/-- More pages, none of them among the first ones. -/
theorem append (hg : Good role m) (h : KernelMapped pages role m role' m')
    (h' : KernelMapped pages' role' m' role'' m'')
    (hap : ∀ a ∈ pages, ∀ b ∈ pages', ¬ SamePage b.1 a.1) :
    KernelMapped (pages ++ pages') role m role'' m'' := by
  have hafter := h'.after
  have hother := h'.other
  rw [h.grows.kernelRootPa] at hafter hother
  refine ⟨h.grows.trans hg.tables h'.grows, fun a ha => ?_, fun va hva => ?_⟩
  · obtain ha | ha := List.mem_append.mp ha
    · rw [hother a.1 fun b hb hs => hap a ha b hb ⟨hs.1.symm, hs.2.1.symm, hs.2.2.symm⟩]
      exact h.after a ha
    · exact hafter a ha
  · rw [hother va fun b hb => hva b (List.mem_append.mpr (.inr hb)),
      h.other va fun b hb => hva b (List.mem_append.mpr (.inl hb))]

end KernelMapped

/-- A page that could be mapped is mapped as asked for. -/
theorem mapKernel_maps (hg : Good role m) (hn : ∀ p, role p ≠ .root) (hva : KernelVa va)
    (hf : FlagsOk flags) (hu : flags.testBit 4 = false) :
    Prog.Wp (PageTable.map m.kernelRootPa va va flags) m (fun res m' => res.isOk = true →
      ∃ role', KernelMapped [(va, flags)] role m role' m') Prog.Never := by
  have hr := kernel_isRoot (m := m) hn
  have hflt := flagsOk_lt hf
  refine ((mapKernel_spec hg hn hva.slot hva.aligned hva.aligned hva.lt hflt hu).and
    (map_traced hg hr (fun _ => hva.slot) hva.aligned hva.aligned)).mono ?_ fun _ h => h
  rintro res m₂ ⟨⟨role₂, hpage⟩, role₁, m₁, n, htr, -, hres⟩ hok
  cases res with
  | error e => cases hok
  | ok u =>
    obtain ⟨l0, hc, rfl⟩ := hres
    have hg₁ := htr.grows.good
    have hr₁ := htr.grows.isRoot hr
    have hentry : (m₁.setPte l0 (vpn va 0) (leafPte va flags)).pte l0 (vpn va 0) =
        leafPte va flags := m₁.pte_setPte_self _ _ (leafPte_lt hva.lt hflt)
    refine ⟨role₂, hpage.grows.widen fun _ _ _ => trivial, fun a ha => ?_, fun a ha => ?_⟩
    · obtain rfl := List.mem_singleton.mp ha
      rw [translation, leafEntry_table (tableAt_setPte hg₁ hr₁ hc), hentry,
        if_pos (leafPte_valid va flags), pteFlags_leafPte hf,
        pteAddr_leafPte hva.aligned (lt_trans hva.lt (by norm_num)) hflt]
    · refine hpage.grows.translation hg hr fun hp => ?_
      obtain h | h := hpage.pages hg hp
      · exact h
      · exact absurd h (ha (va, flags) (List.mem_singleton.mpr rfl))

/-- A loop over pages none of which is there twice. -/
theorem kernelPages_maps (hf : FlagsOk flags) (hu : flags.testBit 4 = false) (vas : List ℕ)
    (hvas : ∀ va ∈ vas, KernelVa va) (hap : vas.Pairwise fun a b => ¬ SamePage b a) :
    ∀ {role : ℕ → Role} {m : Machine}, Good role m → (∀ p, role p ≠ .root) →
      Prog.Wp (Prog.tryEach (fun va => PageTable.map m.kernelRootPa va va flags) vas) m
        (fun res m' => res.isOk = true →
          ∃ role', KernelMapped (vas.map (·, flags)) role m role' m') Prog.Never := by
  induction vas with
  | nil => exact fun hg _ => Prog.wp_pure.mpr fun _ => ⟨_, .nil hg⟩
  | cons va vas ih =>
      intro role m hg hn
      obtain ⟨hfirst, hap'⟩ := List.pairwise_cons.mp hap
      refine (mapKernel_maps hg hn (hvas va (by simp)) hf hu).bind ?_
      intro res m₁ h₁
      cases res with
      | error e => exact Prog.wp_pure.mpr fun hok => nomatch hok
      | ok u =>
        obtain ⟨role₁, h₁⟩ := h₁ rfl
        have hn₁ : ∀ p, role₁ p ≠ .root := fun p hp => hn p ((h₁.grows.root_iff p).mp hp)
        have hrest := ih (fun a ha => hvas a (by simp [ha])) hap' h₁.grows.good hn₁
        rw [h₁.grows.kernelRootPa] at hrest
        refine hrest.mono ?_ fun _ h => h
        intro res m₂ h₂ hok
        obtain ⟨role₂, h₂⟩ := h₂ hok
        refine ⟨role₂, .append hg h₁ h₂ fun a ha b hb => ?_⟩
        obtain rfl := List.mem_singleton.mp ha
        obtain ⟨va', hva', rfl⟩ := List.mem_map.mp hb
        exact hfirst va' hva'

/-- The pages of a range with its permissions. -/
def rangeMap (r : ℕ × ℕ × ℕ) : List (ℕ × ℕ) := (rangePages r).map (·, r.2.2)

theorem kernelRanges_maps (rs : List (ℕ × ℕ × ℕ)) (hrs : ∀ r ∈ rs, RangeOk r)
    (hf : ∀ r ∈ rs, FlagsOk r.2.2)
    (hap : (rs.flatMap rangePages).Pairwise fun a b => ¬ SamePage b a) :
    ∀ {role : ℕ → Role} {m : Machine}, Good role m → (∀ p, role p ≠ .root) →
      Prog.Wp (Prog.each (fun r => expectOk (PageTable.mapRange m.kernelRootPa r.1 r.2.1 r.2.2)) rs)
        m (fun _ m' => ∃ role', KernelMapped (rs.flatMap rangeMap) role m role' m')
        fun _ => True := by
  induction rs with
  | nil => exact fun hg _ => Prog.wp_pure.mpr ⟨_, .nil hg⟩
  | cons r rs ih =>
      intro role m hg hn
      rw [List.flatMap_cons] at hap
      obtain ⟨hap₁, hap₂, hcross⟩ := List.pairwise_append.mp hap
      have hr := hrs r (by simp)
      have hrange : Prog.Wp (PageTable.mapRange m.kernelRootPa r.1 r.2.1 r.2.2) m
          (fun res m' => res.isOk = true → ∃ role', KernelMapped (rangeMap r) role m role' m')
          Prog.Never := by
        unfold PageTable.mapRange
        rw [Prog.wp_bind, Prog.wp_ofExcept, pageUp_ok.mpr ⟨hr.stop, rfl⟩]
        have h := kernelPages_maps (hf r (by simp)) hr.kernel (rangePages r) hr.pages hap₁ hg hn
        rw [rangePages, rangeVas, Prog.tryEach_map] at h
        exact h
      have hfirst : Prog.Wp (expectOk (PageTable.mapRange m.kernelRootPa r.1 r.2.1 r.2.2)) m
          (fun _ m' => ∃ role', KernelMapped (rangeMap r) role m role' m') fun _ => True := by
        refine Prog.Wp.bind (hrange.mono (fun _ _ h => h) fun _ h => h.elim) ?_
        intro res m₁ h₁
        cases res with
        | ok u => exact Prog.wp_pure.mpr (h₁ rfl)
        | error e => exact Prog.wp_stop.mpr trivial
      refine hfirst.bind ?_
      rintro u m₁ ⟨role₁, h₁⟩
      have hn₁ : ∀ p, role₁ p ≠ .root := fun p hp => hn p ((h₁.grows.root_iff p).mp hp)
      have hrest := ih (fun r' hr' => hrs r' (by simp [hr'])) (fun r' hr' => hf r' (by simp [hr']))
        hap₂ h₁.grows.good hn₁
      rw [h₁.grows.kernelRootPa] at hrest
      refine hrest.mono ?_ fun _ h => h
      rintro _ m₂ ⟨role₂, h₂⟩
      refine ⟨role₂, ?_⟩
      rw [List.flatMap_cons]
      refine .append hg h₁ h₂ fun a ha b hb => ?_
      obtain ⟨va, hva, rfl⟩ := List.mem_map.mp ha
      obtain ⟨r', hr', hb⟩ := List.mem_flatMap.mp hb
      obtain ⟨va', hva', rfl⟩ := List.mem_map.mp hb
      exact hcross va hva va' (List.mem_flatMap.mpr ⟨r', hr', hva'⟩)

/-! ### The sections and the devices -/

/-- The pages of `[start, stop)`. -/
def Within (start stop va : ℕ) : Prop := pageDown start ≤ va ∧ va < (stop + 4095) / 4096 * 4096

/-- The devices that the kernel drives. -/
def Mmio (va : ℕ) : Prop :=
  Within uart0Base (uart0Base + uart0Size) va ∨ Within virtioBase (virtioBase + virtioSize) va ∨
    Within clintBase (clintBase + clintSize) va ∨ Within plicBase (plicBase + plicSize) va ∨
    Within testBase (testBase + testSize) va

theorem within_pageDown {r : ℕ × ℕ × ℕ} (h : Within r.1 r.2.1 va) : pageDown va ∈ rangePages r := by
  obtain ⟨h1, h2⟩ := h
  refine List.mem_map.mpr ⟨(pageDown va - pageDown r.1) / pageSize, List.mem_range.mpr ?_, ?_⟩
  · simp only [pageDown, pageSize] at *
    omega
  · simp only [pageDown, pageSize] at *
    omega

/-- Addresses below 2 ^ 39 are on one page if the walk does not tell them apart. -/
theorem SamePage.pageDown_eq {a b : ℕ} (h : SamePage a b) (ha : a < 2 ^ 39) (hb : b < 2 ^ 39) :
    pageDown a = pageDown b := by
  rw [pageDown, pageDown, vpn_inj ha hb h.2.2 h.2.1 h.1]

theorem samePage_pageDown (va : ℕ) : SamePage va (pageDown va) := by
  refine ⟨?_, ?_, ?_⟩
  all_goals
    simp only [vpn_eq, pageDown, pageSize, Nat.reduceMul, Nat.reduceAdd, Nat.reducePow]
    omega

/-- A table whose root mapped nothing before maps the ranges and nothing else. -/
theorem KernelMapped.translation_iff {rs : List (ℕ × ℕ × ℕ)}
    (h : KernelMapped (rs.flatMap rangeMap) role m role' m')
    (hnone : ∀ va, translation m m.kernelRootPa va = none)
    (hlt : ∀ r ∈ rs, r.2.1 ≤ ramEnd) (hva : va < 2 ^ 39) {q f : ℕ} :
    translation m' m.kernelRootPa va = some (q, f) ↔
      ∃ r ∈ rs, Within r.1 r.2.1 va ∧ q = pageDown va ∧ f = r.2.2 := by
  have hin {r : ℕ × ℕ × ℕ} (hr : r ∈ rs) (hw : Within r.1 r.2.1 va) :
      translation m' m.kernelRootPa va = some (pageDown va, r.2.2) := by
    rw [(samePage_pageDown va).translation]
    exact h.after (pageDown va, r.2.2) (List.mem_flatMap.mpr
      ⟨r, hr, List.mem_map_of_mem (within_pageDown hw)⟩)
  constructor
  · intro ht
    by_contra hno
    have hout : ∀ a ∈ rs.flatMap rangeMap, ¬ SamePage va a.1 := by
      intro a ha hs
      obtain ⟨r, hr, ha⟩ := List.mem_flatMap.mp ha
      obtain ⟨va', hva', rfl⟩ := List.mem_map.mp ha
      obtain ⟨h1, h2, h3⟩ := mem_rangePages hva'
      have hr' := hlt r hr
      have hlow : va' < 2 ^ 39 := by
        simp only [ramEnd, ramStart, ramSize, pageSize] at *
        omega
      have heq := hs.pageDown_eq hva hlow
      have hw : Within r.1 r.2.1 va := by
        unfold Within
        simp only [pageDown, pageSize] at *
        omega
      have := hin hr hw
      rw [ht, Option.some.injEq, Prod.mk.injEq] at this
      exact hno ⟨r, hr, hw, this.1, this.2⟩
    rw [h.other va hout, hnone va] at ht
    cases ht
  · rintro ⟨r, hr, hw, rfl, rfl⟩
    exact hin hr hw

/-- A range takes two tables for every 2 MiB that it touches. -/
theorem rangePages_tables {r : ℕ × ℕ × ℕ} (h : r.1 ≤ r.2.1) : tableCost 0 (rangePages r) ≤
    2 * (((r.2.1 + 4095) / 4096 * 4096 + (2 ^ 21 - 1)) / 2 ^ 21 - pageDown r.1 / 2 ^ 21) := by
  obtain ⟨n, hn⟩ : ∃ n, n = ((r.2.1 + 4095) / 4096 * 4096 - pageDown r.1) / pageSize := ⟨_, rfl⟩
  have hend : pageDown r.1 + n * pageSize = (r.2.1 + 4095) / 4096 * 4096 := by
    simp only [pageDown, pageSize] at *
    omega
  have hal : pageDown r.1 % pageSize = 0 := by
    simp only [pageDown, pageSize]
    omega
  rw [rangePages, ← hn, ← hend]
  cases n with
  | zero => simp [rangeVas, tableCost]
  | succ n =>
    have hrest := tableCost_range n (pageDown r.1 / 2 ^ 21 + 1) (pageDown r.1 + pageSize)
      (by simp only [pageSize] at *; omega)
    rw [rangeVas_succ, tableCost, if_neg (Nat.not_lt_zero _)]
    simp only [pageSize] at *
    omega

theorem rangesCost_tables (l : Linker) : rangesCost (kernelRanges l) ≤ 144 := by
  have h1 := l.text_start
  have h2 := l.text_le
  have h3 := l.rodata_aligned
  have h4 := l.rodata_le
  have h5 := l.data_le
  have h6 := l.data_aligned
  have h7 : l.dataStart ≤ ramEnd := l.heap_le.trans l.ram_le
  have htext := rangePages_tables (r := (Linker.textStart, l.textEnd, pteR ||| pteX)) h1
  have hrodata := rangePages_tables (r := (l.rodataStart, l.rodataEnd, pteR)) h4
  have hdata := rangePages_tables (r := (l.dataStart, ramEnd, pteR ||| pteW)) h7
  have huart := rangePages_tables (r := (uart0Base, uart0Base + uart0Size, pteR ||| pteW)) (by decide)
  have hvirtio := rangePages_tables (r := (virtioBase, virtioBase + virtioSize, pteR ||| pteW))
    (by decide)
  have hclint := rangePages_tables (r := (clintBase, clintBase + clintSize, pteR ||| pteW))
    (by decide)
  have hplic := rangePages_tables (r := (plicBase, plicBase + plicSize, pteR ||| pteW)) (by decide)
  have htest := rangePages_tables (r := (testBase, testBase + testSize, pteR ||| pteW)) (by decide)
  simp only [rangesCost, kernelRanges, List.map_cons, List.map_nil, List.sum_cons, List.sum_nil]
  generalize tableCost 0 (rangePages (Linker.textStart, l.textEnd, pteR ||| pteX)) = c1 at *
  generalize tableCost 0 (rangePages (l.rodataStart, l.rodataEnd, pteR)) = c2 at *
  generalize tableCost 0 (rangePages (l.dataStart, ramEnd, pteR ||| pteW)) = c3 at *
  simp only [pageDown, ramEnd, ramStart, ramSize, pageSize, testBase, testSize, uart0Base, uart0Size,
    virtioBase, virtioSize, clintBase, clintSize, plicBase, plicSize, Linker.textStart,
    Nat.reduceMul, Nat.reduceAdd, Nat.reducePow, Nat.reduceSub, Nat.reduceDiv] at *
  omega

/-- What the kernel's address space is: the permissions of the page of `va`. -/
structure KernelSpace (l : Linker) (view : ℕ → Option (ℕ × ℕ)) : Prop where
  text : ∀ va, Within Linker.textStart l.textEnd va →
    view va = some (pageDown va, pteR ||| pteX)
  rodata : ∀ va, Within l.rodataStart l.rodataEnd va → view va = some (pageDown va, pteR)
  data : ∀ va, Within l.dataStart ramEnd va ∨ Mmio va →
    view va = some (pageDown va, pteR ||| pteW)
  nothing : ∀ va < 2 ^ 39, view va ≠ none → Within Linker.textStart l.textEnd va ∨
    Within l.rodataStart l.rodataEnd va ∨ Within l.dataStart ramEnd va ∨ Mmio va
  exclusive : ∀ va < 2 ^ 39, ∀ q f, view va = some (q, f) →
    ¬ (f.testBit 2 = true ∧ f.testBit 3 = true)
  kernel : ∀ va < 2 ^ 39, ∀ q f, view va = some (q, f) → f.testBit 4 = false

theorem kernelSpace_of (l : Linker) {view : ℕ → Option (ℕ × ℕ)}
    (h : ∀ va < 2 ^ 39, ∀ q f, view va = some (q, f) ↔
      ∃ r ∈ kernelRanges l, Within r.1 r.2.1 va ∧ q = pageDown va ∧ f = r.2.2) :
    KernelSpace l view := by
  have hlow {r : ℕ × ℕ × ℕ} (hr : r ∈ kernelRanges l) {va : ℕ} (hw : Within r.1 r.2.1 va) :
      va < 2 ^ 39 := by
    obtain ⟨-, -, h3⟩ := kernelRanges_bounds l hr
    obtain ⟨-, h2⟩ := hw
    simp only [ramEnd, ramStart, ramSize] at *
    omega
  have hin {r : ℕ × ℕ × ℕ} (hr : r ∈ kernelRanges l) (va : ℕ) (hw : Within r.1 r.2.1 va) :
      view va = some (pageDown va, r.2.2) :=
    (h va (hlow hr hw) _ _).mpr ⟨r, hr, hw, rfl, rfl⟩
  have hflags : ∀ r ∈ kernelRanges l,
      ¬ (r.2.2.testBit 2 = true ∧ r.2.2.testBit 3 = true) ∧ r.2.2.testBit 4 = false := by
    simp only [kernelRanges, List.forall_mem_cons, List.not_mem_nil, false_imp_iff, implies_true]
    decide
  refine ⟨hin (r := (Linker.textStart, l.textEnd, pteR ||| pteX)) (by simp [kernelRanges]),
    hin (r := (l.rodataStart, l.rodataEnd, pteR)) (by simp [kernelRanges]), ?_, ?_, ?_, ?_⟩
  · rintro va (hw | hw | hw | hw | hw | hw)
    · exact hin (r := (l.dataStart, ramEnd, pteR ||| pteW)) (by simp [kernelRanges]) va hw
    · exact hin (r := (uart0Base, uart0Base + uart0Size, pteR ||| pteW)) (by simp [kernelRanges]) va hw
    · exact hin (r := (virtioBase, virtioBase + virtioSize, pteR ||| pteW)) (by simp [kernelRanges])
        va hw
    · exact hin (r := (clintBase, clintBase + clintSize, pteR ||| pteW)) (by simp [kernelRanges]) va hw
    · exact hin (r := (plicBase, plicBase + plicSize, pteR ||| pteW)) (by simp [kernelRanges]) va hw
    · exact hin (r := (testBase, testBase + testSize, pteR ||| pteW)) (by simp [kernelRanges]) va hw
  · intro va hva hne
    obtain ⟨⟨q, f⟩, hv⟩ := Option.ne_none_iff_exists'.mp hne
    obtain ⟨r, hr, hw, -⟩ := (h va hva q f).mp hv
    simp only [kernelRanges, List.mem_cons, List.not_mem_nil, or_false] at hr
    rcases hr with rfl | rfl | rfl | rfl | rfl | rfl | rfl | rfl
    · exact .inl hw
    · exact .inr (.inl hw)
    · exact .inr (.inr (.inl hw))
    · exact .inr (.inr (.inr (.inl hw)))
    · exact .inr (.inr (.inr (.inr (.inl hw))))
    · exact .inr (.inr (.inr (.inr (.inr (.inl hw)))))
    · exact .inr (.inr (.inr (.inr (.inr (.inr (.inl hw))))))
    · exact .inr (.inr (.inr (.inr (.inr (.inr (.inr hw))))))
  · intro va hva q f hv
    obtain ⟨r, hr, -, -, rfl⟩ := (h va hva q f).mp hv
    exact (hflags r hr).1
  · intro va hva q f hv
    obtain ⟨r, hr, -, -, rfl⟩ := (h va hva q f).mp hv
    exact (hflags r hr).2

/-- With 147 free frames, for every layout of the linker script, building the kernel's
address space meets no page that is mapped already, and the result is the identity on the
sections, the rest of RAM and the devices, with their permissions and nothing else. -/
theorem kernelPageTable_complete (l : Linker) {m : Machine} (hr : m.Recorded)
    (hc : m.pages.Consistent) (hfree : 147 ≤ m.pages.freeFrames) :
    ∃ root m', kernelPageTable l m = .ok (root, m') ∧ KernelSpace l (translation m' root) := by
  have hflags : ∀ r ∈ kernelRanges l, FlagsOk r.2.2 := by
    simp only [kernelRanges, List.forall_mem_cons, List.not_mem_nil, false_imp_iff, implies_true,
      FlagsOk]
    decide
  suffices hwp : Prog.Wp (kernelPageTable l) m
      (fun root m' => KernelSpace l (translation m' root)) Prog.Never by
    obtain ⟨root, m', hrun, hspace⟩ := hwp.returns
    exact ⟨root, m', hrun, hspace⟩
  refine ((pageAlloc_spec 1 hc).mono (fun _ _ h => h) fun _ h => h.elim).bind ?_
  intro o m1 h1
  cases o with
  | none =>
    have := h1.2 rfl
    omega
  | some q =>
    change Handed m 1 q m1 at h1
    have hcost := rangesCost_tables l
    have hfree₁ := h1.freeFrames
    have hg := firstRoot_good hr h1
    have hnone (va : ℕ) : translation (m1.rooted q) q va = none := by
      by_contra hne
      exact firstRoot_no_page _ q va
        ((hg.hasPage_iff (kernel_isRoot (m := m1.rooted q) (kernelRole_root q))).mpr hne)
    have hobl : Oblivious (Prog.each (fun r => expectOk (PageTable.mapRange q r.1 r.2.1 r.2.2))
        (kernelRanges l)) := .each (fun r => (Oblivious.mapRange _ _ _ _).expectOk) _
    have hall := hobl.wp ((kernelRanges_spec (m := m1.rooted q) (kernelRanges l)
      (fun r hr => kernelRanges_ok l hr) hg (kernelRole_root q)).and
      (kernelRanges_maps (m := m1.rooted q) (kernelRanges l) (fun r hr => kernelRanges_ok l hr)
        hflags (kernelRanges_apart l) hg (kernelRole_root q)))
    refine (hall.mono (fun _ _ h => h) ?_).bind ?_
    · rintro f (h | ⟨va, -, h⟩ | h)
      · change m1.pages.freeFrames < _ at h
        omega
      · exact absurd h (firstRoot_no_page _ _ _)
      · exact absurd (kernelRanges_apart l) h
    · rintro u m2 ⟨-, role, hmapped⟩
      refine Prog.wp_pure.mpr (kernelSpace_of l fun va hva p f => ?_)
      have hle : ∀ r ∈ kernelRanges l, r.2.1 ≤ ramEnd := by
        intro r hr
        obtain ⟨-, -, h3⟩ := kernelRanges_bounds l hr
        simp only [ramEnd, ramStart, ramSize] at *
        omega
      exact hmapped.translation_iff hnone hle hva

/-- A machine all of whose RAM is free. -/
def allFreeMachine : Machine where
  mem := fun _ => 0
  pages := ⟨fun _ => false, 0, maxFrames⟩
  kernelRootPa := 0
  account := 0
  log := []
  asks := []

theorem allFreeMachine_allFree : AllFree allFreeMachine :=
  ⟨Nat.zero_le _, fun _ _ _ => rfl, rfl, rfl⟩

/-- A kernel image of one page of each kind. -/
def smallLinker : Linker where
  textEnd := ramStart + 0x800
  rodataStart := ramStart + 0x1000
  rodataEnd := ramStart + 0x1234
  dataStart := ramStart + 0x2000
  heapStart := ramStart + 0x3000
  text_start := by decide
  text_le := by decide
  rodata_aligned := by decide
  rodata_le := by decide
  data_le := by decide
  data_aligned := by decide
  heap_le := by decide
  heap_aligned := by decide
  ram_le := by decide

/-- The kernel table of a small image on a machine with all frames free. -/
theorem kernelPageTable_complete_small : ∃ root m',
    kernelPageTable smallLinker allFreeMachine = .ok (root, m') ∧
      KernelSpace smallLinker (translation m' root) :=
  kernelPageTable_complete smallLinker allFreeMachine_allFree.recorded
    allFreeMachine_allFree.consistent (by decide)

end LightOS
