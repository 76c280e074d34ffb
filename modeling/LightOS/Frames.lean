import LightOS.Tables

/-!
# Handing out and returning frames

What the two operations of the allocator do to a machine whose page tables are
well formed. `Good` is the invariant of the memory subsystem: the tables agree
with the roles, the free counter with the bitmap, and the history with both.
-/
namespace LightOS
open Lib PageAllocator

/-- The history of the allocator explains the bitmap. -/
structure Machine.Recorded (m : Machine) : Prop where
  balanced : Loan.Balanced m.log
  held : ∀ p, m.IsFrame p → (m.Held p ↔ Loan.holder (frameOf p) m.log ≠ none)

/-- The invariant of the memory subsystem. -/
structure Good (role : ℕ → Role) (m : Machine) : Prop where
  tables : Tables role m
  pages : m.pages.Consistent
  recorded : m.Recorded

theorem frameOf_frameToAddr (f : ℕ) : frameOf (frameToAddr f) = f := by
  simp only [frameOf, frameToAddr, pageSize]
  omega

theorem Machine.IsFrame.frameToAddr {m : Machine} {p : ℕ} (h : m.IsFrame p) :
    frameToAddr (frameOf p) = p := by
  obtain ⟨h1, h2, -⟩ := h
  simp only [PageAllocator.frameToAddr, frameOf, pageSize, ramStart] at *
  omega

theorem Machine.IsFrame.frame_lt {m : Machine} {p : ℕ} (h : m.IsFrame p) :
    m.pages.firstFrame ≤ frameOf p ∧ frameOf p < maxFrames := by
  obtain ⟨h1, h2, h3⟩ := h
  simp only [frameOf, pageSize, ramStart, ramEnd, ramSize, maxFrames] at *
  omega

/-- Distinct frames do not overlap. -/
theorem frames_disjoint {p q : ℕ} (hp : p % pageSize = 0) (hq : q % pageSize = 0) (hne : p ≠ q) :
    p + pageSize ≤ q ∨ q + pageSize ≤ p := by
  simp only [pageSize] at *
  omega

theorem frameOf_inj {m : Machine} {p q : ℕ} (hp : m.IsFrame p) (hq : m.IsFrame q)
    (h : frameOf p = frameOf q) : p = q := by
  rw [← hp.frameToAddr, ← hq.frameToAddr, h]

/-- A table whose page is untouched keeps its entries. -/
theorem Machine.pte_congr {m m' : Machine} {t i : ℕ} (hi : i < 512)
    (h : AgreeOn m.mem m'.mem t pageSize) : m'.pte t i = m.pte t i := by
  refine readWord_congr fun b h1 h2 => h b (by omega) ?_
  simp only [pageSize]
  omega

/-- `n` frames from `q` on have been handed out, zeroed. -/
structure Handed (m : Machine) (n q : ℕ) (m' : Machine) : Prop where
  pos : 0 < n
  frame : ∀ i, i < n → m.IsFrame (q + i * pageSize)
  free : ∀ i, i < n → ¬ m.Held (q + i * pageSize)
  held : ∀ p, m'.Held p ↔ m.Held p ∨ ∃ i < n, p = q + i * pageSize
  mem : m'.mem = fillZero m.mem q (n * pageSize)
  kernelRootPa : m'.kernelRootPa = m.kernelRootPa
  account : m'.account = m.account
  firstFrame : m'.pages.firstFrame = m.pages.firstFrame
  freeFrames : m'.pages.freeFrames + n = m.pages.freeFrames
  log : m'.log = m.log ++ (List.range n).map fun i => .alloc (frameOf q + i) m.account
  consistent : m'.pages.Consistent

theorem pageAlloc_spec {m : Machine} (n : ℕ) (hc : m.pages.Consistent) :
    Prog.Wp (pageAlloc n) m (fun r m' => match r with
      | none => m' = m ∧ (n = 1 → m.pages.freeFrames = 0)
      | some q => Handed m n q m') Prog.Never := by
  unfold pageAlloc
  rw [Prog.wp_bind, Prog.wp_get]
  cases ha : m.pages.alloc n with
  | none =>
    refine Prog.Wp.pure ⟨rfl, ?_⟩
    rintro rfl
    by_contra h0
    have := alloc_one_isSome hc (Nat.pos_of_ne_zero h0)
    simp [ha] at this
  | some r =>
    obtain ⟨addr, pages⟩ := r
    obtain ⟨s, rfl, ht⟩ := alloc_some hc ha
    have hfirst := ht.first_le
    have hmax := ht.le_max
    have hframe : ∀ i, frameOf (frameToAddr s + i * pageSize) = s + i := by
      intro i
      simp only [frameOf, frameToAddr, pageSize]
      omega
    have his : ∀ i, i < n → m.IsFrame (frameToAddr s + i * pageSize) := by
      intro i hi
      simp only [Machine.IsFrame, frameToAddr, pageSize, ramStart, ramEnd, ramSize, maxFrames] at *
      omega
    refine Prog.Wp.of_ok (a := some (frameToAddr s)) rfl ?_
    refine ⟨ht.pos, his, ?_, ?_, rfl, rfl, rfl, ht.firstFrame, ht.freeFrames, ?_, ht.consistent hc⟩
    · intro i hi hheld
      have := ht.free (s + i) (by omega) (by omega)
      rw [Machine.Held, hframe] at hheld
      simp [this] at hheld
    · intro p
      have hisf : ∀ q, Machine.IsFrame { m with pages := pages } q ↔ m.IsFrame q := by
        intro q
        simp only [Machine.IsFrame, ht.firstFrame]
      change ({ m with pages := pages } : Machine).IsFrame p ∧ pages.bitmap (frameOf p) = true ↔ _
      rw [hisf, ht.bitmap]
      constructor
      · rintro ⟨h1, h2⟩
        split_ifs at h2 with hr
        · refine Or.inr ⟨frameOf p - s, by omega, ?_⟩
          refine frameOf_inj h1 (his _ (by omega)) ?_
          rw [hframe]
          omega
        · exact Or.inl ⟨h1, h2⟩
      · rintro (⟨h1, h2⟩ | ⟨i, hi, rfl⟩)
        · refine ⟨h1, ?_⟩
          split_ifs <;> simp [h2]
        · refine ⟨his i hi, ?_⟩
          rw [hframe, if_pos (by omega)]
    · have h0 : frameOf (frameToAddr s) = s := frameOf_frameToAddr s
      simp [frameOf] at h0
      simp [frameOf, h0]

namespace Handed

variable {role : ℕ → Role} {m m' : Machine} {n q : ℕ}

theorem isFrame_iff (h : Handed m n q m') (p : ℕ) : m'.IsFrame p ↔ m.IsFrame p := by
  simp only [Machine.IsFrame, h.firstFrame]

/-- A frame in use is not among those handed out. -/
theorem agree (h : Handed m n q m') {p : ℕ} (hp : m.Held p) :
    AgreeOn m.mem m'.mem p pageSize := by
  rw [h.mem]
  refine fillZero_agreeOn _ _ _ _ _ ?_
  by_contra hc
  refine h.free ((p - q) / pageSize) ?_ ?_
  all_goals
    have h1 := hp.1.1
    have h2 := (h.frame 0 h.pos).1
    simp only [pageSize, Nat.zero_mul, Nat.add_zero] at *
  · omega
  · have he : q + (p - q) / 4096 * 4096 = p := by omega
    rw [he]
    exact hp

theorem tables (h : Handed m n q m') (ht : Tables role m) : Tables role m' := by
  refine ht.of_agree h.kernelRootPa (fun p hp => (h.held p).mpr (Or.inl (ht.held p hp))) ?_
  intro t l i hl hi
  exact Machine.pte_congr hi (h.agree (ht.held t (Role.ne_other_of_level hl)))

theorem frameOf_add (h : Handed m n q m') (i : ℕ) :
    frameOf (q + i * pageSize) = frameOf q + i := by
  obtain ⟨h1, h2, -⟩ := h.frame 0 h.pos
  simp only [frameOf, pageSize, ramStart] at *
  omega

theorem recorded (h : Handed m n q m') (hr : m.Recorded) : m'.Recorded := by
  have hlog : m'.log = m.log ++ ((List.range n).map (frameOf q + ·)).map (.alloc · m.account) := by
    rw [h.log, List.map_map]
    rfl
  have hfree : ∀ k ∈ (List.range n).map (frameOf q + ·), Loan.holder k m.log = none := by
    intro k hk
    obtain ⟨i, hi, rfl⟩ := List.mem_map.mp hk
    have hi' := List.mem_range.mp hi
    have hnh := (hr.held _ (h.frame i hi')).not.mp (h.free i hi')
    rw [h.frameOf_add i] at hnh
    simpa using hnh
  refine ⟨?_, fun p hp => ?_⟩
  · rw [hlog]
    exact hr.balanced.allocs _ ((List.nodup_range).map (by intro a b hab; simpa using hab)) hfree
  · have hp' := (h.isFrame_iff p).mp hp
    rw [h.held, hlog, Loan.holder_allocs, hr.held p hp']
    split_ifs with hmem
    · obtain ⟨i, hi, he⟩ := List.mem_map.mp hmem
      have hi' := List.mem_range.mp hi
      refine iff_of_true (Or.inr ⟨i, hi', frameOf_inj hp' (h.frame i hi') ?_⟩) (by simp)
      rw [h.frameOf_add i]
      exact he.symm
    · refine or_iff_left ?_
      rintro ⟨i, hi, rfl⟩
      exact hmem (List.mem_map.mpr ⟨i, List.mem_range.mpr hi, (h.frameOf_add i).symm⟩)

theorem good (h : Handed m n q m') (hg : Good role m) : Good role m' :=
  ⟨h.tables hg.tables, h.consistent, h.recorded hg.recorded⟩

end Handed

/-- The frame `q` has been returned. -/
structure Freed (m : Machine) (q : ℕ) (m' : Machine) : Prop where
  was : m.Held q
  held : ∀ p, m'.Held p ↔ m.Held p ∧ p ≠ q
  mem : m'.mem = m.mem
  kernelRootPa : m'.kernelRootPa = m.kernelRootPa
  account : m'.account = m.account
  asks : m'.asks = m.asks
  firstFrame : m'.pages.firstFrame = m.pages.firstFrame
  freeFrames : m'.pages.freeFrames = m.pages.freeFrames + 1
  log : m'.log = m.log ++ [.free (frameOf q)]
  consistent : m'.pages.Consistent
  recorded : m'.Recorded

theorem pageFree_spec {m : Machine} {q : ℕ} (hc : m.pages.Consistent) (hr : m.Recorded)
    (hq : m.Held q) : Prog.Wp (pageFree q 1) m (fun _ m' => Freed m q m') Prog.Never := by
  obtain ⟨hfirst, hmax⟩ := hq.1.frame_lt
  obtain ⟨pages, hpages, hret⟩ := free_one hmax hq.2
  rw [hq.1.frameToAddr] at hpages
  unfold pageFree
  rw [Prog.wp_bind, Prog.wp_get, Prog.wp_bind, Prog.wp_ofExcept, hpages]
  dsimp only
  rw [Prog.wp_set]
  have hheld : ∀ p, ({ m with pages := pages, log := m.log ++ [.free (frameOf q)] } : Machine).Held p ↔
      m.Held p ∧ p ≠ q := by
    intro p
    change ({ m with pages := pages, log := _ } : Machine).IsFrame p ∧
      pages.bitmap (frameOf p) = true ↔ _
    simp only [Machine.IsFrame, hret.firstFrame, hret.bitmap, Machine.Held]
    constructor
    · rintro ⟨h1, h2⟩
      split_ifs at h2 with he
      exact ⟨⟨h1, h2⟩, fun hpq => he (by rw [hpq])⟩
    · rintro ⟨⟨h1, h2⟩, hne⟩
      have hf : frameOf p ≠ frameOf q := fun he => hne (frameOf_inj h1 hq.1 he)
      exact ⟨h1, by rw [if_neg hf]; exact h2⟩
  have hone : ((List.range 1).map fun i => (q - ramStart) / pageSize + i).map Loan.free =
      [(Loan.free (frameOf q) : FrameEvent)] := by simp [frameOf]
  rw [hone]
  refine ⟨hq, hheld, rfl, rfl, rfl, rfl, hret.firstFrame, hret.freeFrames, rfl,
    hret.consistent hc hfirst hmax hq.2, ?_⟩
  have hholder := (hr.held q hq.1).mp hq
  refine ⟨hr.balanced.snoc hholder, fun p hp => ?_⟩
  have hp' : m.IsFrame p := by simpa only [Machine.IsFrame, hret.firstFrame] using hp
  rw [hheld, hr.held p hp', Loan.holder_snoc, Loan.next]
  split_ifs with he
  · have := frameOf_inj hq.1 hp' he
    simp [this]
  · refine and_iff_left ?_
    rintro rfl
    exact he rfl

/-- One frame `q` has been handed out; what is in it does not matter. -/
structure Got (m : Machine) (q : ℕ) (m' : Machine) : Prop where
  frame : m.IsFrame q
  free : ¬ m.Held q
  held : ∀ p, m'.Held p ↔ m.Held p ∨ p = q
  mem : ∀ a, a < q ∨ q + pageSize ≤ a → m'.mem a = m.mem a
  kernelRootPa : m'.kernelRootPa = m.kernelRootPa
  account : m'.account = m.account
  firstFrame : m'.pages.firstFrame = m.pages.firstFrame
  freeFrames : m'.pages.freeFrames + 1 = m.pages.freeFrames
  log : m'.log = m.log ++ [.alloc (frameOf q) m.account]
  consistent : m'.pages.Consistent
  recorded : m'.Recorded

theorem Handed.got {m m' : Machine} {q : ℕ} (h : Handed m 1 q m') (hr : m.Recorded) :
    Got m q m' := by
  refine ⟨?_, ?_, ?_, ?_, h.kernelRootPa, h.account, h.firstFrame, h.freeFrames, ?_,
    h.consistent, h.recorded hr⟩
  · simpa using h.frame 0 (by simp)
  · simpa using h.free 0 (by simp)
  · intro p
    simp [h.held p]
  · intro a ha
    rw [h.mem]
    simp only [fillZero]
    rw [if_neg (by omega)]
  · simp [h.log]

namespace Got

variable {role : ℕ → Role} {m m' : Machine} {q : ℕ}

/-- The new frame may be filled in any way. -/
theorem fill (h : Got m q m') {mem : Mem}
    (hm : ∀ a, a < q ∨ q + pageSize ≤ a → mem a = m'.mem a) : Got m q { m' with mem := mem } :=
  ⟨h.frame, h.free, h.held, fun a ha => (hm a ha).trans (h.mem a ha), h.kernelRootPa, h.account,
    h.firstFrame, h.freeFrames, h.log, h.consistent, ⟨h.recorded.balanced, h.recorded.held⟩⟩

theorem mine (h : Got m q m') : m'.Held q := (h.held q).mpr (Or.inr rfl)

theorem role_other (h : Got m q m') (hg : Good role m) : role q = .other := by
  by_contra hr
  exact h.free (hg.tables.held q hr)

/-- No other frame in use changes. -/
theorem agree (h : Got m q m') {p : ℕ} (hp : m.Held p) : AgreeOn m.mem m'.mem p pageSize := by
  have hne : p ≠ q := by
    rintro rfl
    exact h.free hp
  have hd := frames_disjoint hp.aligned h.frame.1 hne
  intro b h1 h2
  exact h.mem b (by omega)

theorem pte (h : Got m q m') (hg : Good role m) {t l i : ℕ} (ht : (role t).level = some l)
    (hi : i < 512) : m'.pte t i = m.pte t i :=
  Machine.pte_congr hi (h.agree (hg.tables.held t (Role.ne_other_of_level ht)))

theorem good (h : Got m q m') (hg : Good role m) : Good role m' :=
  ⟨hg.tables.of_agree h.kernelRootPa (fun p hp => (h.held p).mpr (Or.inl (hg.tables.held p hp)))
    fun _ _ _ ht hi => h.pte hg ht hi, h.consistent, h.recorded⟩

end Got

/-- Asking for one frame. -/
theorem pageAlloc_one {role : ℕ → Role} {m : Machine} (hg : Good role m) :
    Prog.Wp (pageAlloc 1) m (fun r m' => match r with
      | none => m' = m ∧ m.pages.freeFrames = 0
      | some q => Got m q m' ∧ ∀ a, q ≤ a → a < q + pageSize → m'.mem a = 0) Prog.Never := by
  refine (pageAlloc_spec 1 hg.pages).mono (fun r m' h => ?_) fun _ h => h
  cases r with
  | none => exact ⟨h.1, h.2 rfl⟩
  | some q =>
    refine ⟨h.got hg.recorded, fun a h1 h2 => ?_⟩
    rw [h.mem]
    simp only [fillZero]
    rw [if_pos (by omega)]

end LightOS
