import LightOS.Layout
import LightOS.Lib.Ledger

/-!
# The page-frame allocator

One bit per 4 KiB frame of RAM, first-fit search for a run of free frames, and
the two debug assertions of `PageAllocator::free`. The machine state puts the
allocator next to the physical memory it hands out. Its `account` and `log`
fields are history only: `log` records every frame handed out, with the pid the
kernel was working for (0 for the kernel itself), and every frame returned. No
function of the kernel reads them.
-/
namespace LightOS
open Lib

abbrev maxFrames : ℕ := ramSize / pageSize

/-- Bit set = frame in use, or reserved for the kernel image. -/
structure PageAllocator where
  bitmap : ℕ → Bool
  firstFrame : ℕ
  freeFrames : ℕ

namespace PageAllocator

def frameToAddr (frame : ℕ) : ℕ := ramStart + frame * pageSize

/-- The debug assertion rejects addresses below RAM. -/
def addrToFrame (addr : ℕ) : Except Fault ℕ :=
  if ramStart ≤ addr then .ok ((addr - ramStart) / pageSize)
  else .error (.panic .addressBelowRam)

/-- `self.bitmap[frame / 64]` is out of range exactly from `maxFrames` on. -/
def isUsed (a : PageAllocator) (frame : ℕ) : Except Fault Bool :=
  if frame < maxFrames then .ok (a.bitmap frame) else .error (.panic .indexOutOfRange)

def setUsed (a : PageAllocator) (frame : ℕ) : PageAllocator :=
  { a with bitmap := fun f => if f = frame then true else a.bitmap f }

def setFree (a : PageAllocator) (frame : ℕ) : PageAllocator :=
  { a with bitmap := fun f => if f = frame then false else a.bitmap f }

/-- The first-fit scan over `left` more frames, with the run of free frames that
ends just before `frame` and the frame it started at. -/
def scan (a : PageAllocator) (n : ℕ) : ℕ → ℕ → ℕ → ℕ → Option ℕ
  | 0, _, _, _ => none
  | left + 1, frame, run, start =>
    if a.bitmap frame then scan a n left (frame + 1) 0 (frame + 1)
    else if run + 1 = n then some start
    else scan a n left (frame + 1) (run + 1) start

def setUsedRange (a : PageAllocator) (start : ℕ) : ℕ → PageAllocator
  | 0 => a
  | n + 1 => setUsed (setUsedRange a start n) (start + n)

def alloc (a : PageAllocator) (n : ℕ) : Option (ℕ × PageAllocator) :=
  if n = 0 ∨ a.freeFrames < n then none
  else
    (scan a n (maxFrames - a.firstFrame) a.firstFrame 0 a.firstFrame).map fun start =>
      (frameToAddr start, { setUsedRange a start n with freeFrames := a.freeFrames - n })

/-- The loop of `free`: each frame must be in use. -/
def freeRange (a : PageAllocator) : ℕ → ℕ → Except Fault PageAllocator
  | _, 0 => .ok a
  | frame, n + 1 => do
    if ← a.isUsed frame then freeRange (a.setFree frame) (frame + 1) n
    else .error (.panic .doubleFree)

def free (a : PageAllocator) (addr n : ℕ) : Except Fault PageAllocator := do
  let start ← addrToFrame addr
  let a' ← a.freeRange start n
  return { a' with freeFrames := a'.freeFrames + n }

end PageAllocator

namespace PageAllocator

/-- The counter agrees with the bitmap over the allocatable frames. -/
structure Consistent (a : PageAllocator) : Prop where
  first_le : a.firstFrame ≤ maxFrames
  count : a.freeFrames =
    ((Finset.Ico a.firstFrame maxFrames).filter fun f => a.bitmap f = false).card

/-- Invariant of the scan: the frames from `start` to `frame` are free. -/
theorem scan_some (a : PageAllocator) (n : ℕ) {left frame run start s : ℕ}
    (hs : start + run = frame) (hrun : run < n)
    (hfree : ∀ f, start ≤ f → f < frame → a.bitmap f = false)
    (h : scan a n left frame run start = some s) :
    start ≤ s ∧ s + n ≤ frame + left ∧ ∀ f, s ≤ f → f < s + n → a.bitmap f = false := by
  induction left generalizing frame run start with
  | zero => simp [scan] at h
  | succ left ih =>
    rw [scan] at h
    split_ifs at h with hu hn
    · obtain ⟨h1, h2, h3⟩ := @ih _ 0 _ (by omega) (by omega) (by omega) h
      exact ⟨by omega, by omega, h3⟩
    · obtain rfl : start = s := by simpa using h
      refine ⟨le_rfl, by omega, fun f h1 h2 => ?_⟩
      by_cases hf : f < frame
      · exact hfree f h1 hf
      · obtain rfl : f = frame := by omega
        simpa using hu
    · have hfree' : ∀ f, start ≤ f → f < frame + 1 → a.bitmap f = false := by
        intro f h1 h2
        by_cases hf : f < frame
        · exact hfree f h1 hf
        · obtain rfl : f = frame := by omega
          simpa using hu
      obtain ⟨h1, h2, h3⟩ := ih (by omega) (by omega) hfree' h
      exact ⟨h1, by omega, h3⟩

/-- A scan for a single frame fails only when every frame is in use. -/
theorem scan_one_none (a : PageAllocator) {left frame start : ℕ}
    (h : scan a 1 left frame 0 start = none) :
    ∀ f, frame ≤ f → f < frame + left → a.bitmap f = true := by
  induction left generalizing frame start with
  | zero => omega
  | succ left ih =>
    rw [scan] at h
    split_ifs at h with hu hn
    · intro f h1 h2
      by_cases hf : f = frame
      · rw [hf]; exact hu
      · exact ih h f (by omega) (by omega)
    · omega

theorem setUsedRange_bitmap (a : PageAllocator) (start n f : ℕ) :
    (setUsedRange a start n).bitmap f = if start ≤ f ∧ f < start + n then true else a.bitmap f := by
  induction n with
  | zero =>
    have h : ¬ (start ≤ f ∧ f < start + 0) := by omega
    simp only [setUsedRange, if_neg h]
  | succ n ih =>
    simp only [setUsedRange, setUsed, ih]
    grind

@[simp] theorem setUsedRange_firstFrame (a : PageAllocator) (start n : ℕ) :
    (setUsedRange a start n).firstFrame = a.firstFrame := by
  induction n with
  | zero => rfl
  | succ n ih => simpa [setUsedRange, setUsed] using ih

/-- What a successful allocation of `n` frames from frame `s` does. -/
structure Took (a : PageAllocator) (n s : ℕ) (a' : PageAllocator) : Prop where
  pos : 0 < n
  first_le : a.firstFrame ≤ s
  le_max : s + n ≤ maxFrames
  free : ∀ f, s ≤ f → f < s + n → a.bitmap f = false
  bitmap : ∀ f, a'.bitmap f = if s ≤ f ∧ f < s + n then true else a.bitmap f
  firstFrame : a'.firstFrame = a.firstFrame
  freeFrames : a'.freeFrames + n = a.freeFrames

theorem alloc_some {a a' : PageAllocator} {n addr : ℕ} (ha : a.Consistent)
    (h : a.alloc n = some (addr, a')) : ∃ s, addr = frameToAddr s ∧ Took a n s a' := by
  unfold alloc at h
  split_ifs at h with hn
  obtain ⟨s, hs, he⟩ := Option.map_eq_some_iff.mp h
  have hfirst := ha.first_le
  obtain ⟨h1, h2, h3⟩ := scan_some a n (by omega) (by omega) (by omega) hs
  obtain ⟨rfl, rfl⟩ := Prod.mk.injEq .. ▸ he
  refine ⟨s, rfl, ⟨by omega, h1, by omega, h3, setUsedRange_bitmap a s n, ?_, ?_⟩⟩
  · exact setUsedRange_firstFrame a s n
  · change a.freeFrames - n + n = a.freeFrames
    omega

/-- One frame can be allocated as long as the counter is not zero. -/
theorem alloc_one_isSome {a : PageAllocator} (ha : a.Consistent) (h : 0 < a.freeFrames) :
    (a.alloc 1).isSome := by
  have hn : ¬ (1 = 0 ∨ a.freeFrames < 1) := by omega
  simp only [alloc, if_neg hn, Option.isSome_map]
  by_contra hs
  have hall := scan_one_none a (Option.not_isSome_iff_eq_none.mp hs)
  rw [ha.count] at h
  obtain ⟨f, hf⟩ := Finset.card_pos.mp h
  simp only [Finset.mem_filter, Finset.mem_Ico] at hf
  have := hall f hf.1.1 (by omega)
  simp [hf.2] at this

theorem Took.consistent {a a' : PageAllocator} {n s : ℕ} (ha : a.Consistent)
    (h : Took a n s a') : a'.Consistent := by
  refine ⟨by rw [h.firstFrame]; exact ha.first_le, ?_⟩
  have hsplit : (Finset.Ico a.firstFrame maxFrames).filter (fun f => a.bitmap f = false) =
      ((Finset.Ico a.firstFrame maxFrames).filter fun f => a'.bitmap f = false) ∪
        Finset.Ico s (s + n) := by
    ext f
    have h1 := h.first_le
    have h2 := h.le_max
    have h3 := h.free f
    simp only [Finset.mem_filter, Finset.mem_union, Finset.mem_Ico, h.bitmap]
    grind
  have hdisj : Disjoint ((Finset.Ico a.firstFrame maxFrames).filter fun f => a'.bitmap f = false)
      (Finset.Ico s (s + n)) := by
    rw [Finset.disjoint_left]
    intro f hf hs
    simp only [Finset.mem_filter, Finset.mem_Ico, h.bitmap] at hf hs
    simp [hs] at hf
  have hcard := ha.count
  rw [hsplit, Finset.card_union_of_disjoint hdisj, Nat.card_Ico] at hcard
  have hfree := h.freeFrames
  rw [h.firstFrame]
  omega

theorem addrToFrame_frameToAddr (f : ℕ) : addrToFrame (frameToAddr f) = .ok f := by
  have hle : ramStart ≤ frameToAddr f := Nat.le_add_right _ _
  have hdiv : (frameToAddr f - ramStart) / pageSize = f := by
    simp only [frameToAddr, pageSize]
    omega
  rw [addrToFrame, if_pos hle, hdiv]

/-- Freeing one frame that is in use. -/
structure Returned (a : PageAllocator) (f : ℕ) (a' : PageAllocator) : Prop where
  bitmap : ∀ g, a'.bitmap g = if g = f then false else a.bitmap g
  firstFrame : a'.firstFrame = a.firstFrame
  freeFrames : a'.freeFrames = a.freeFrames + 1

theorem free_one {a : PageAllocator} {f : ℕ} (hf : f < maxFrames) (hu : a.bitmap f = true) :
    ∃ a', a.free (frameToAddr f) 1 = .ok a' ∧ Returned a f a' := by
  have haddr := addrToFrame_frameToAddr f
  have hused : a.isUsed f = .ok true := by simp only [isUsed, if_pos hf, hu]
  refine ⟨{ a.setFree f with freeFrames := a.freeFrames + 1 }, ?_, ⟨?_, rfl, rfl⟩⟩
  · simp [free, haddr, freeRange, hused, bind, Except.bind, pure, Except.pure, setFree]
  · intro g
    simp [setFree]

theorem Returned.consistent {a a' : PageAllocator} {f : ℕ} (ha : a.Consistent)
    (hf : a.firstFrame ≤ f) (hm : f < maxFrames) (hu : a.bitmap f = true)
    (h : Returned a f a') : a'.Consistent := by
  refine ⟨by rw [h.firstFrame]; exact ha.first_le, ?_⟩
  have hins : (Finset.Ico a.firstFrame maxFrames).filter (fun g => a'.bitmap g = false) =
      insert f ((Finset.Ico a.firstFrame maxFrames).filter fun g => a.bitmap g = false) := by
    ext g
    simp only [Finset.mem_filter, Finset.mem_insert, Finset.mem_Ico, h.bitmap]
    grind
  have hnot : f ∉ (Finset.Ico a.firstFrame maxFrames).filter fun g => a.bitmap g = false := by
    simp [hu]
  rw [h.firstFrame, hins, Finset.card_insert_of_notMem hnot, h.freeFrames, ha.count]

end PageAllocator

/-- One entry of the allocation history: a frame handed out, or returned. -/
abbrev FrameEvent := Loan ℕ ℕ

/-- Memory and allocator as a call of `page_alloc` finds them. -/
structure Ask where
  mem : Mem
  pages : PageAllocator

/-- Physical memory, its allocator and the kernel root table. What has happened to the frames
and how memory stood at each allocation is recorded; no program reads these records. -/
structure Machine where
  mem : Mem
  pages : PageAllocator
  kernelRootPa : ℕ
  account : ℕ
  log : List FrameEvent
  asks : List Ask

/-- Programs of the memory subsystem. -/
abbrev MachineM := Prog Machine Fault

/-- `n` contiguous zeroed pages, or nothing when memory is exhausted. -/
def pageAlloc (n : ℕ) : MachineM (Option ℕ) := do
  let m ← get
  match m.pages.alloc n with
  | none => return none
  | some (addr, pages) =>
    let frames := (List.range n).map fun i => (addr - ramStart) / pageSize + i
    set { m with
      pages := pages
      mem := fillZero m.mem addr (n * pageSize)
      log := m.log ++ frames.map (Loan.alloc · m.account)
      asks := m.asks ++ [Ask.mk m.mem m.pages] }
    return some addr

/-- Return `n` pages to the allocator. -/
def pageFree (addr n : ℕ) : MachineM Unit := do
  let m ← get
  let pages ← Prog.ofExcept (m.pages.free addr n)
  let frames := (List.range n).map fun i => (addr - ramStart) / pageSize + i
  set { m with pages := pages, log := m.log ++ frames.map Loan.free }

end LightOS
