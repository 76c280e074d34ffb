import LightOS.Boot
import LightOS.Lib.Words

/-!
# The bitmap of the frame allocator, word by word

`kernel/mem/page.rs` keeps its bits in an array of 64-bit words. Here the
allocator is modelled on that array, with every index check and every checked
sum, and related to the allocator over single bits that the rest of the kernel
is modelled on: each operation returns the same answer and leaves the same bits.
The behaviour over whole histories is then read off the bits.
-/
namespace LightOS
open Lib

abbrev bitmapWords : ℕ := maxFrames / 64

/-- `PageAllocator` with its bitmap as the source stores it. -/
structure PackedAllocator where
  bitmap : Vector (BitVec 64) bitmapWords
  firstFrame : ℕ
  freeFrames : ℕ

namespace PackedAllocator

/-- The static before any code has run: everything in use. -/
def reset : PackedAllocator := ⟨Vector.replicate bitmapWords (BitVec.allOnes 64), 0, 0⟩

/-- `self.bitmap[i]`. -/
def word (a : PackedAllocator) (i : ℕ) : Except Fault (BitVec 64) :=
  match a.bitmap[i]? with
  | some w => .ok w
  | none => .error (.panic .indexOutOfRange)

def isUsed (a : PackedAllocator) (frame : ℕ) : Except Fault Bool := do
  let w ← a.word (frame / 64)
  return w &&& 1#64 <<< (frame % 64) != 0#64

def setUsed (a : PackedAllocator) (frame : ℕ) : Except Fault PackedAllocator := do
  let w ← a.word (frame / 64)
  return { a with bitmap := a.bitmap.set! (frame / 64) (w ||| 1#64 <<< (frame % 64)) }

def setFree (a : PackedAllocator) (frame : ℕ) : Except Fault PackedAllocator := do
  let w ← a.word (frame / 64)
  return { a with bitmap := a.bitmap.set! (frame / 64) (w &&& ~~~ (1#64 <<< (frame % 64))) }

/-- `for f in start..start + n`, setting each frame used. -/
def setUsedRange (a : PackedAllocator) (start : ℕ) : ℕ → Except Fault PackedAllocator
  | 0 => .ok a
  | n + 1 => do
    let a' ← setUsedRange a start n
    a'.setUsed (start + n)

/-- The scan for a run of `n` free frames, over `left` more frames. -/
def scan (a : PackedAllocator) (n : ℕ) : ℕ → ℕ → ℕ → ℕ → Except Fault (Option ℕ)
  | 0, _, _, _ => .ok none
  | left + 1, frame, run, start => do
    if ← a.isUsed frame then scan a n left (frame + 1) 0 (frame + 1)
    else if run + 1 = n then return some start
    else scan a n left (frame + 1) (run + 1) start

def alloc (a : PackedAllocator) (n : ℕ) : Except Fault (Option ℕ × PackedAllocator) := do
  if n = 0 ∨ a.freeFrames < n then return (none, a)
  else
    match ← a.scan n (maxFrames - a.firstFrame) a.firstFrame 0 a.firstFrame with
    | none => return (none, a)
    | some start =>
      let a' ← a.setUsedRange start n
      return (some (PageAllocator.frameToAddr start), { a' with freeFrames := a.freeFrames - n })

/-- The loop of `free`: each frame must be in use. -/
def freeRange (a : PackedAllocator) : ℕ → ℕ → Except Fault PackedAllocator
  | _, 0 => .ok a
  | frame, n + 1 => do
    if ← a.isUsed frame then
      let a' ← a.setFree frame
      freeRange a' (frame + 1) n
    else .error (.panic .doubleFree)

def free (a : PackedAllocator) (addr n : ℕ) : Except Fault PackedAllocator := do
  let start ← PageAllocator.addrToFrame addr
  let _ ← checkedAdd start n
  let a' ← a.freeRange start n
  let freeFrames ← checkedAdd a'.freeFrames n
  return { a' with freeFrames := freeFrames }

/-- `for frame in first..MAX_FRAMES`, over `left` more frames. -/
def clearFrom (a : PackedAllocator) : ℕ → ℕ → Except Fault PackedAllocator
  | _, 0 => .ok a
  | frame, left + 1 => do
    let a' ← a.setFree frame
    clearFrom a' (frame + 1) left

/-- `page::init`. -/
def init (a : PackedAllocator) (heapStart : ℕ) : Except Fault PackedAllocator := do
  let first ← pageUp heapStart >>= PageAllocator.addrToFrame
  let a' ← { a with firstFrame := first }.clearFrom first (maxFrames - first)
  if maxFrames < first then .error (.panic .overflow)
  else return { a' with freeFrames := maxFrames - first }

/-- The allocator over single bits that this one stores. -/
def bits (a : PackedAllocator) : PageAllocator := ⟨Words.bit a.bitmap, a.firstFrame, a.freeFrames⟩

@[simp] theorem bits_firstFrame (a : PackedAllocator) : a.bits.firstFrame = a.firstFrame := rfl

@[simp] theorem bits_freeFrames (a : PackedAllocator) : a.bits.freeFrames = a.freeFrames := rfl

theorem frames_eq : 64 * bitmapWords = maxFrames := by decide

/-- Nothing but the bits is stored. -/
theorem bits_injective {a b : PackedAllocator} (h : a.bits = b.bits) : a = b := by
  obtain ⟨ws, first, free⟩ := a
  obtain ⟨vs, first', free'⟩ := b
  simp only [bits, PageAllocator.mk.injEq] at h
  obtain ⟨hbit, rfl, rfl⟩ := h
  rw [Words.ext_bits (by decide) fun i _ => congrFun hbit i]

theorem word_of_lt (a : PackedAllocator) {f : ℕ} (hf : f < maxFrames) :
    ∃ w, a.bitmap[f / 64]? = some w ∧ a.word (f / 64) = .ok w ∧
      a.bits.bitmap f = w.getLsbD (f % 64) := by
  obtain ⟨w, hw, hb⟩ := Words.exists_word (by decide) a.bitmap (frames_eq ▸ hf)
  exact ⟨w, hw, by rw [word, hw], hb⟩

/-- Testing a bit in its word, with the same panic past the last word. -/
theorem isUsed_bits (a : PackedAllocator) (f : ℕ) : a.isUsed f = a.bits.isUsed f := by
  by_cases hf : f < maxFrames
  · obtain ⟨w, -, hw, hb⟩ := a.word_of_lt hf
    rw [isUsed, hw, PageAllocator.isUsed, if_pos hf, hb]
    change Except.ok _ = _
    rw [Words.and_mask_ne_zero w (Nat.mod_lt f (by decide))]
  · have hnone := Words.no_word (by decide) a.bitmap (frames_eq ▸ Nat.not_lt.mp hf)
    rw [isUsed, word, hnone, PageAllocator.isUsed, if_neg hf]
    rfl

theorem setUsed_bits (a : PackedAllocator) {f : ℕ} (hf : f < maxFrames) :
    ∃ a', a.setUsed f = .ok a' ∧ a'.bits = a.bits.setUsed f := by
  obtain ⟨w, hx, hw, -⟩ := a.word_of_lt hf
  refine ⟨_, by rw [setUsed, hw]; rfl, ?_⟩
  simp only [bits, PageAllocator.setUsed]
  congr 1
  funext g
  exact Words.bit_or_mask (by decide) (frames_eq ▸ hf) hx g

theorem setFree_bits (a : PackedAllocator) {f : ℕ} (hf : f < maxFrames) :
    ∃ a', a.setFree f = .ok a' ∧ a'.bits = a.bits.setFree f := by
  obtain ⟨w, hx, hw, -⟩ := a.word_of_lt hf
  refine ⟨_, by rw [setFree, hw]; rfl, ?_⟩
  simp only [bits, PageAllocator.setFree]
  congr 1
  funext g
  exact Words.bit_and_not_mask (by decide) (frames_eq ▸ hf) hx g

theorem setUsedRange_bits (a : PackedAllocator) {start n : ℕ} (h : start + n ≤ maxFrames) :
    ∃ a', a.setUsedRange start n = .ok a' ∧ a'.bits = a.bits.setUsedRange start n := by
  induction n with
  | zero => exact ⟨a, rfl, rfl⟩
  | succ n ih =>
    obtain ⟨b, hb, hbits⟩ := ih (by omega)
    obtain ⟨a', ha', hset⟩ := b.setUsed_bits (f := start + n) (by omega)
    refine ⟨a', by rw [setUsedRange, hb]; exact ha', ?_⟩
    rw [hset, hbits, PageAllocator.setUsedRange]

/-- The scan sees the same bits. -/
theorem scan_bits (a : PackedAllocator) (n : ℕ) {left frame run start : ℕ}
    (h : frame + left ≤ maxFrames) :
    a.scan n left frame run start = .ok (a.bits.scan n left frame run start) := by
  induction left generalizing frame run start with
  | zero => rfl
  | succ left ih =>
    have hused : a.isUsed frame = .ok (a.bits.bitmap frame) := by
      rw [isUsed_bits, PageAllocator.isUsed, if_pos (by omega)]
    rw [scan, hused, PageAllocator.scan]
    change (if a.bits.bitmap frame = true then _ else _) = _
    split_ifs with hu hn
    · exact ih (by omega)
    · rfl
    · exact ih (by omega)

/-- `alloc` answers as over single bits and leaves the same bits. -/
theorem alloc_bits {a : PackedAllocator} (ha : a.bits.Consistent) (n : ℕ) :
    match a.bits.alloc n with
    | none => a.alloc n = .ok (none, a)
    | some (addr, b) => ∃ a', a.alloc n = .ok (some addr, a') ∧ a'.bits = b := by
  have hfirst : a.firstFrame ≤ maxFrames := ha.first_le
  cases h : a.bits.alloc n with
  | none =>
    dsimp only
    rw [alloc]
    rw [PageAllocator.alloc] at h
    by_cases hn : n = 0 ∨ a.freeFrames < n
    · rw [if_pos hn]
      rfl
    · rw [bits_freeFrames, if_neg hn] at h
      have hscan := Option.map_eq_none_iff.mp h
      rw [bits_firstFrame] at hscan
      rw [if_neg hn, scan_bits a n (by omega), hscan]
      rfl
  | some r =>
    obtain ⟨addr, b⟩ := r
    dsimp only
    obtain ⟨s, rfl, ht⟩ := PageAllocator.alloc_some ha h
    rw [PageAllocator.alloc] at h
    rw [alloc]
    have hn : ¬ (n = 0 ∨ a.freeFrames < n) := by
      intro hn
      rw [bits_freeFrames, if_pos hn] at h
      cases h
    rw [bits_freeFrames, if_neg hn] at h
    obtain ⟨s', hs', he⟩ := Option.map_eq_some_iff.mp h
    rw [bits_firstFrame] at hs'
    obtain ⟨heq, rfl⟩ := Prod.mk.injEq .. ▸ he
    have hss : s' = s := by
      simp only [PageAllocator.frameToAddr, pageSize] at heq
      omega
    subst hss
    obtain ⟨a', ha', hbits⟩ := a.setUsedRange_bits ht.le_max
    refine ⟨{ a' with freeFrames := a.freeFrames - n }, ?_, ?_⟩
    · rw [if_neg hn, scan_bits a n (by omega), hs']
      change (a.setUsedRange s' n >>= _) = _
      rw [ha']
      rfl
    · rw [← hbits]
      rfl

/-- The loop of `free` does the same on the words as on the bits, panics included. -/
theorem freeRange_bits (a : PackedAllocator) (frame n : ℕ) :
    (a.freeRange frame n).map bits = a.bits.freeRange frame n := by
  induction n generalizing a frame with
  | zero => rfl
  | succ n ih =>
    rw [freeRange, PageAllocator.freeRange, isUsed_bits]
    by_cases hf : frame < maxFrames
    · rw [PageAllocator.isUsed, if_pos hf]
      change (if a.bits.bitmap frame = true then _ else _ : Except Fault _).map bits =
        if a.bits.bitmap frame = true then _ else _
      by_cases hu : a.bits.bitmap frame = true
      · obtain ⟨a', ha', hbits⟩ := a.setFree_bits hf
        rw [if_pos hu, if_pos hu, ha', ← hbits, ← ih]
        rfl
      · rw [if_neg hu, if_neg hu]
        rfl
    · rw [PageAllocator.isUsed, if_neg hf]
      rfl

theorem clearFrom_bits (a : PackedAllocator) {frame left : ℕ} (h : frame + left ≤ maxFrames) :
    ∃ a', a.clearFrom frame left = .ok a' ∧ a'.bits = { a.bits with
      bitmap := fun f => if frame ≤ f ∧ f < frame + left then false else a.bits.bitmap f } := by
  induction left generalizing a frame with
  | zero =>
    refine ⟨a, rfl, ?_⟩
    have hnone : ∀ f, ¬ (frame ≤ f ∧ f < frame + 0) := by omega
    simp only [if_neg (hnone _)]
  | succ left ih =>
    obtain ⟨b, hb, hbits⟩ := a.setFree_bits (f := frame) (by omega)
    obtain ⟨a', ha', hrest⟩ := ih b (by omega : frame + 1 + left ≤ maxFrames)
    refine ⟨a', by rw [clearFrom, hb]; exact ha', ?_⟩
    rw [hrest, hbits]
    simp only [PageAllocator.setFree, PageAllocator.mk.injEq, and_true]
    funext f
    by_cases hf : f = frame
    · subst hf
      simp
    · have hiff : (frame + 1 ≤ f ∧ f < frame + 1 + left) ↔ frame ≤ f ∧ f < frame + (left + 1) := by
        omega
      simp only [hiff, if_neg hf]

/-- What `init` does once it knows the first frame. -/
theorem init_eq (a : PackedAllocator) {heapStart first : ℕ}
    (h : (pageUp heapStart >>= PageAllocator.addrToFrame) = .ok first) :
    a.init heapStart = ({ a with firstFrame := first }.clearFrom first (maxFrames - first) >>=
      fun a' => if maxFrames < first then .error (.panic .overflow)
        else return { a' with freeFrames := maxFrames - first }) := by
  rw [init, h]
  rfl

/-- `init` returns exactly when the heap starts in RAM, and frees all from there on. -/
theorem init_bits (a : PackedAllocator) {heapStart top : ℕ} (hup : pageUp heapStart = .ok top)
    (hlo : ramStart ≤ top) (hhi : top ≤ ramEnd) :
    ∃ a', a.init heapStart = .ok a' ∧ a'.bits = {
      bitmap := fun f => if (top - ramStart) / pageSize ≤ f ∧ f < maxFrames then false
        else a.bits.bitmap f
      firstFrame := (top - ramStart) / pageSize
      freeFrames := maxFrames - (top - ramStart) / pageSize } := by
  obtain ⟨first, hfirst⟩ : ∃ first, first = (top - ramStart) / pageSize := ⟨_, rfl⟩
  have hle : first ≤ maxFrames := by
    simp only [hfirst, maxFrames, ramEnd, ramStart, ramSize, pageSize] at *
    omega
  have haddr : (pageUp heapStart >>= PageAllocator.addrToFrame) = .ok first := by
    rw [hup]
    change PageAllocator.addrToFrame top = _
    rw [PageAllocator.addrToFrame, if_pos hlo, hfirst]
  obtain ⟨b, hb, hbits⟩ := clearFrom_bits { a with firstFrame := first }
    (by omega : first + (maxFrames - first) ≤ maxFrames)
  refine ⟨{ b with freeFrames := maxFrames - first }, ?_, ?_⟩
  · rw [init_eq a haddr, hb]
    change (if maxFrames < first then _ else _) = _
    rw [if_neg (by omega)]
    rfl
  · rw [← hfirst]
    have hb1 : b.bits.bitmap = _ := congrArg PageAllocator.bitmap hbits
    have hb2 : b.bits.firstFrame = _ := congrArg PageAllocator.firstFrame hbits
    change (⟨b.bits.bitmap, b.bits.firstFrame, maxFrames - first⟩ : PageAllocator) = _
    rw [hb1, hb2, Nat.add_sub_cancel' hle]
    rfl

/-- The converse: an `init` that returns got a heap start in RAM. -/
theorem init_ok {a a' : PackedAllocator} {heapStart : ℕ} (h : a.init heapStart = .ok a') :
    ∃ top, pageUp heapStart = .ok top ∧ ramStart ≤ top ∧ top ≤ ramEnd := by
  cases hup : pageUp heapStart with
  | error e =>
    rw [init, hup] at h
    cases h
  | ok top =>
    refine ⟨top, rfl, ?_⟩
    by_cases hlo : ramStart ≤ top
    · refine ⟨hlo, ?_⟩
      obtain ⟨first, hfirst⟩ : ∃ first, first = (top - ramStart) / pageSize := ⟨_, rfl⟩
      have haddr : (pageUp heapStart >>= PageAllocator.addrToFrame) = .ok first := by
        rw [hup]
        change PageAllocator.addrToFrame top = _
        rw [PageAllocator.addrToFrame, if_pos hlo, hfirst]
      rw [init_eq a haddr] at h
      by_contra hhi
      have hgt : maxFrames < first := by
        have := (pageUp_ok.mp hup).2
        simp only [hfirst, maxFrames, ramEnd, ramStart, ramSize, pageSize] at *
        omega
      cases hc : clearFrom { a with firstFrame := first } first (maxFrames - first) with
      | error e =>
        rw [hc] at h
        cases h
      | ok b =>
        rw [hc] at h
        change (if maxFrames < first then _ else _) = _ at h
        rw [if_pos hgt] at h
        cases h
    · rw [init, hup] at h
      change (PageAllocator.addrToFrame top >>= _) = _ at h
      rw [PageAllocator.addrToFrame, if_neg hlo] at h
      cases h

end PackedAllocator

namespace PageAllocator

/-- Completeness of the scan: it finds a run no later than any run there is. -/
theorem scan_le (a : PageAllocator) (n : ℕ) {left frame run start t : ℕ} (hs : start + run = frame)
    (hrun : run < n) (hbefore : start ≤ t) (hend : t + n ≤ frame + left)
    (hfree : ∀ f, t ≤ f → f < t + n → a.bitmap f = false) :
    ∃ s, scan a n left frame run start = some s ∧ s ≤ t := by
  induction left generalizing frame run start with
  | zero => omega
  | succ left ih =>
    rw [scan]
    by_cases hu : a.bitmap frame = true
    · rw [if_pos hu]
      have hlt : frame < t := by
        by_contra hge
        have := hfree frame (by omega) (by omega)
        simp [hu] at this
      exact ih rfl (by omega) (by omega) (by omega)
    · rw [if_neg hu]
      by_cases hn : run + 1 = n
      · rw [if_pos hn]
        exact ⟨start, rfl, hbefore⟩
      · rw [if_neg hn]
        exact ih (by omega) (by omega) hbefore (by omega)

/-- `n` free frames from `s` on, all of them allocatable. -/
structure HasRun (a : PageAllocator) (n s : ℕ) : Prop where
  first_le : a.firstFrame ≤ s
  le_max : s + n ≤ maxFrames
  free : ∀ f, s ≤ f → f < s + n → a.bitmap f = false

/-- The early test of the counter never hides a run. -/
theorem HasRun.le_freeFrames {a : PageAllocator} (ha : a.Consistent) {n s : ℕ}
    (h : a.HasRun n s) : n ≤ a.freeFrames := by
  have hsub : Finset.Ico s (s + n) ⊆
      (Finset.Ico a.firstFrame maxFrames).filter fun f => a.bitmap f = false := by
    intro f hf
    rw [Finset.mem_Ico] at hf
    have h1 := h.first_le
    have h2 := h.le_max
    rw [Finset.mem_filter, Finset.mem_Ico]
    exact ⟨by omega, h.free f hf.1 hf.2⟩
  have hcard := Finset.card_le_card hsub
  rw [Nat.card_Ico, ← ha.count] at hcard
  omega

/-- Whenever there is a run, one at the lowest place is handed out. -/
theorem HasRun.alloc {a : PageAllocator} (ha : a.Consistent) {n t : ℕ} (hn : 0 < n)
    (h : a.HasRun n t) : ∃ s a', a.alloc n = some (frameToAddr s, a') ∧ s ≤ t := by
  have hcount := h.le_freeFrames ha
  have hfirst := h.first_le
  have hmax := h.le_max
  have hfrom : a.firstFrame + 0 = a.firstFrame := rfl
  obtain ⟨s, hs, hle⟩ := a.scan_le n hfrom hn hfirst
    (by omega : t + n ≤ a.firstFrame + (maxFrames - a.firstFrame)) h.free
  refine ⟨s, { setUsedRange a s n with freeFrames := a.freeFrames - n }, ?_, hle⟩
  rw [PageAllocator.alloc, if_neg (by omega), hs]
  rfl

theorem freeRange_eq {a : PageAllocator} {frame n : ℕ} (hmax : frame + n ≤ maxFrames)
    (hu : ∀ f, frame ≤ f → f < frame + n → a.bitmap f = true) :
    a.freeRange frame n = .ok { a with
      bitmap := fun f => if frame ≤ f ∧ f < frame + n then false else a.bitmap f } := by
  induction n generalizing a frame with
  | zero =>
    have hnone : ∀ f, ¬ (frame ≤ f ∧ f < frame + 0) := by omega
    simp only [if_neg (hnone _)]
    rfl
  | succ n ih =>
    have hused : a.isUsed frame = .ok true := by
      rw [isUsed, if_pos (by omega), hu frame le_rfl (by omega)]
    have hrest : ∀ f, frame + 1 ≤ f → f < frame + 1 + n → (a.setFree frame).bitmap f = true := by
      intro f h1 h2
      simp only [setFree]
      rw [if_neg (by omega)]
      exact hu f (by omega) (by omega)
    rw [freeRange, hused]
    change (a.setFree frame).freeRange (frame + 1) n = _
    rw [ih (by omega) hrest]
    simp only [setFree, Except.ok.injEq, mk.injEq, and_true]
    funext f
    by_cases hf : f = frame
    · subst hf
      simp
    · have hiff : (frame + 1 ≤ f ∧ f < frame + 1 + n) ↔ frame ≤ f ∧ f < frame + (n + 1) := by
        omega
      simp only [hiff, if_neg hf]

end PageAllocator

namespace PackedAllocator

/-- `n` free frames from `s` on. -/
def FreeRun (a : PackedAllocator) (n s : ℕ) : Prop :=
  s + n ≤ maxFrames ∧ ∀ f, s ≤ f → f < s + n → a.isUsed f = .ok false

/-- `n` frames in use from `s` on, at or above the first allocatable frame. -/
def UsedRun (a : PackedAllocator) (n s : ℕ) : Prop :=
  a.firstFrame ≤ s ∧ s + n ≤ maxFrames ∧ ∀ f, s ≤ f → f < s + n → a.isUsed f = .ok true

/-- Exactly the bits of `n` frames from `s` on have been set to `u`. -/
structure Marks (a : PackedAllocator) (u : Bool) (n s : ℕ) (a' : PackedAllocator) : Prop where
  inside : ∀ f, s ≤ f → f < s + n → a'.isUsed f = .ok u
  outside : ∀ f, f < s ∨ s + n ≤ f → a'.isUsed f = a.isUsed f
  firstFrame : a'.firstFrame = a.firstFrame

/-- The calls that the rest of the kernel makes. -/
inductive Op where
  | init (heapStart : ℕ)
  | alloc (n : ℕ)
  | free (addr n : ℕ)

/-- One call that returns. -/
def Calls : Op → PackedAllocator → PackedAllocator → Prop
  | .init heapStart, a, a' => a.init heapStart = .ok a'
  | .alloc n, a, a' => ∃ r, a.alloc n = .ok (r, a')
  | .free addr n, a, a' => a.free addr n = .ok a'

/-- Only frames in use are returned, and none of the reserved ones. -/
def Op.Legal : Op → PackedAllocator → Prop
  | .free addr n, a => ramStart ≤ addr ∧ a.UsedRun n ((addr - ramStart) / pageSize)
  | _, _ => True

theorem isUsed_iff (a : PackedAllocator) {f : ℕ} {u : Bool} (hf : f < maxFrames) :
    a.isUsed f = .ok u ↔ a.bits.bitmap f = u := by
  rw [isUsed_bits, PageAllocator.isUsed, if_pos hf, Except.ok.injEq]

theorem hasRun_iff (a : PackedAllocator) (n s : ℕ) :
    a.bits.HasRun n s ↔ a.firstFrame ≤ s ∧ a.FreeRun n s := by
  constructor
  · intro h
    refine ⟨h.first_le, h.le_max, fun f h1 h2 => ?_⟩
    have hmax := h.le_max
    exact (a.isUsed_iff (by omega)).mpr (h.free f h1 h2)
  · rintro ⟨hfirst, hmax, hfree⟩
    exact ⟨hfirst, hmax, fun f h1 h2 => (a.isUsed_iff (by omega)).mp (hfree f h1 h2)⟩

/-- The bits tell which frames a change has marked. -/
theorem Marks.of_bits {a a' : PackedAllocator} {u : Bool} {n s : ℕ} (hmax : s + n ≤ maxFrames)
    (hbit : ∀ f, a'.bits.bitmap f = if s ≤ f ∧ f < s + n then u else a.bits.bitmap f)
    (hfirst : a'.firstFrame = a.firstFrame) : a.Marks u n s a' := by
  refine ⟨fun f h1 h2 => ?_, fun f hf => ?_, hfirst⟩
  · refine (a'.isUsed_iff (by omega)).mpr ?_
    rw [hbit, if_pos ⟨h1, h2⟩]
  · have hsame : a'.bits.bitmap f = a.bits.bitmap f := by rw [hbit, if_neg (by omega)]
    rw [isUsed_bits, isUsed_bits, PageAllocator.isUsed, PageAllocator.isUsed, hsame]

/-- Returning a run in use. -/
theorem free_used {a : PackedAllocator} (ha : a.bits.Consistent) {addr n s : ℕ}
    (haddr : PageAllocator.addrToFrame addr = .ok s) (hrun : a.UsedRun n s) :
    ∃ a', a.free addr n = .ok a' ∧ a'.bits = {
      bitmap := fun f => if s ≤ f ∧ f < s + n then false else a.bits.bitmap f
      firstFrame := a.firstFrame
      freeFrames := a.freeFrames + n } := by
  obtain ⟨hfirst, hmax, hused⟩ := hrun
  have hbits := a.freeRange_bits s n
  rw [PageAllocator.freeRange_eq hmax fun f h1 h2 =>
    (a.isUsed_iff (by omega)).mp (hused f h1 h2)] at hbits
  cases hb : a.freeRange s n with
  | error e =>
    rw [hb] at hbits
    cases hbits
  | ok b =>
    rw [hb] at hbits
    have hbe : b.bits = { a.bits with
        bitmap := fun f => if s ≤ f ∧ f < s + n then false else a.bits.bitmap f } :=
      Except.ok.inj hbits
    have hcount : b.freeFrames = a.freeFrames := congrArg PageAllocator.freeFrames hbe
    have hsmall : a.freeFrames ≤ maxFrames := by
      have := ha.count
      rw [bits_freeFrames] at this
      rw [this]
      refine (Finset.card_filter_le _ _).trans ?_
      rw [Nat.card_Ico]
      exact Nat.sub_le _ _
    have hframes : maxFrames + maxFrames < usizeBound := by decide
    have hadd : checkedAdd s n = .ok (s + n) := checkedAdd_ok.mpr ⟨by omega, rfl⟩
    have hadd' : checkedAdd b.freeFrames n = .ok (a.freeFrames + n) :=
      checkedAdd_ok.mpr ⟨by omega, by rw [hcount]⟩
    refine ⟨{ b with freeFrames := a.freeFrames + n }, ?_, ?_⟩
    · rw [free, haddr]
      change (checkedAdd s n >>= fun _ => a.freeRange s n >>= _) = _
      rw [hadd, hb]
      change (checkedAdd b.freeFrames n >>= _) = _
      rw [hadd']
      rfl
    · change (⟨b.bits.bitmap, b.bits.firstFrame, _⟩ : PageAllocator) = _
      rw [hbe]
      rfl

/-- The counter is right after freeing a run that was in use. -/
theorem consistent_freed {a a' : PageAllocator} {n s : ℕ} (ha : a.Consistent)
    (hfirst : a.firstFrame ≤ s) (hmax : s + n ≤ maxFrames)
    (hused : ∀ f, s ≤ f → f < s + n → a.bitmap f = true)
    (h : a' = { bitmap := fun f => if s ≤ f ∧ f < s + n then false else a.bitmap f
                firstFrame := a.firstFrame
                freeFrames := a.freeFrames + n }) : a'.Consistent := by
  subst h
  refine ⟨ha.first_le, ?_⟩
  have hsplit : (Finset.Ico a.firstFrame maxFrames).filter
        (fun f => (if s ≤ f ∧ f < s + n then false else a.bitmap f) = false) =
      ((Finset.Ico a.firstFrame maxFrames).filter fun f => a.bitmap f = false) ∪
        Finset.Ico s (s + n) := by
    ext f
    simp only [Finset.mem_filter, Finset.mem_union, Finset.mem_Ico]
    by_cases hf : s ≤ f ∧ f < s + n
    · simp only [if_pos hf, and_true]
      exact iff_of_true (by omega) (Or.inr hf)
    · simp only [if_neg hf]
      exact (or_iff_left hf).symm
  have hdisj : Disjoint ((Finset.Ico a.firstFrame maxFrames).filter fun f => a.bitmap f = false)
      (Finset.Ico s (s + n)) := by
    rw [Finset.disjoint_left]
    intro f hf hs
    have h1 := (Finset.mem_filter.mp hf).2
    have h2 := Finset.mem_Ico.mp hs
    rw [hused f h2.1 h2.2] at h1
    cases h1
  change a.freeFrames + n = _
  rw [hsplit, Finset.card_union_of_disjoint hdisj, Nat.card_Ico, ← ha.count]
  omega

theorem consistent_reset : reset.bits.Consistent := by
  refine ⟨Nat.zero_le _, ?_⟩
  have hall : ∀ f < maxFrames, reset.bits.bitmap f = true := by
    intro f hf
    obtain ⟨w, hw, -, hb⟩ := reset.word_of_lt hf
    have hlt : f / 64 < bitmapWords := Words.div_lt (by decide) (frames_eq ▸ hf)
    rw [reset, Vector.getElem?_replicate, if_pos hlt, Option.some.injEq] at hw
    rw [hb, ← hw, BitVec.getLsbD_allOnes]
    simpa using Nat.mod_lt f (by decide : 0 < 64)
  symm
  change Finset.card _ = 0
  rw [Finset.card_eq_zero, Finset.filter_eq_empty_iff]
  intro f hf
  rw [hall f (Finset.mem_Ico.mp hf).2]
  decide

/-- The counter stays right through every legal call. -/
theorem consistent_call {op : Op} {a a' : PackedAllocator} (hl : op.Legal a) (h : Calls op a a')
    (ha : a.bits.Consistent) : a'.bits.Consistent := by
  cases op with
  | init heapStart =>
    obtain ⟨top, hup, hlo, hhi⟩ := init_ok h
    obtain ⟨b, hb, hbits⟩ := a.init_bits hup hlo hhi
    obtain rfl : b = a' := Except.ok.inj (hb.symm.trans h)
    rw [hbits]
    refine ⟨?_, ?_⟩
    · simp only [maxFrames, ramEnd, ramStart, ramSize, pageSize] at *
      omega
    · generalize (top - ramStart) / pageSize = first
      have hall : (Finset.Ico first maxFrames).filter (fun f =>
          (if first ≤ f ∧ f < maxFrames then false else a.bits.bitmap f) = false) =
          Finset.Ico first maxFrames := by
        refine Finset.filter_true_of_mem fun f hf => ?_
        rw [if_pos (Finset.mem_Ico.mp hf)]
      change maxFrames - first = _
      rw [hall, Nat.card_Ico]
  | alloc n =>
    obtain ⟨r, hr⟩ := h
    have hbits := alloc_bits ha n
    cases hp : a.bits.alloc n with
    | none =>
      rw [hp] at hbits
      obtain ⟨-, rfl⟩ := Prod.mk.inj (Except.ok.inj (hbits.symm.trans hr))
      exact ha
    | some q =>
      obtain ⟨addr, b⟩ := q
      rw [hp] at hbits
      obtain ⟨c, hc, hcb⟩ := hbits
      obtain ⟨-, rfl⟩ := Prod.mk.inj (Except.ok.inj (hc.symm.trans hr))
      obtain ⟨s, -, ht⟩ := PageAllocator.alloc_some ha hp
      rw [hcb]
      exact ht.consistent ha
  | free addr n =>
    obtain ⟨hlo, hrun⟩ := hl
    have haddr : PageAllocator.addrToFrame addr = .ok ((addr - ramStart) / pageSize) := if_pos hlo
    obtain ⟨b, hb, hbits⟩ := free_used ha haddr hrun
    obtain rfl : b = a' := Except.ok.inj (hb.symm.trans h)
    obtain ⟨hfirst, hmax, hused⟩ := hrun
    exact consistent_freed ha hfirst hmax
      (fun f h1 h2 => (a.isUsed_iff (by omega)).mp (hused f h1 h2)) hbits

/-- Every history of legal calls keeps the counter right. -/
theorem consistent_history {a : PackedAllocator} (h : Runs Calls Op.Legal reset a) :
    a.bits.Consistent :=
  h.invariant consistent_reset fun _ _ _ hl hn ha => consistent_call hl hn ha

/-- The lowest run of `n` free frames is at `s`. -/
def LowestRun (a : PackedAllocator) (n s : ℕ) : Prop :=
  a.firstFrame ≤ s ∧ a.FreeRun n s ∧ ∀ t, a.firstFrame ≤ t → a.FreeRun n t → s ≤ t

/-- What `alloc` does when the counter is right. -/
theorem alloc_lowest {a : PackedAllocator} (ha : a.bits.Consistent) {n : ℕ} (hn : 1 ≤ n) :
    (∃ s a', a.LowestRun n s ∧ a.alloc n = .ok (some (PageAllocator.frameToAddr s), a') ∧
      a.Marks true n s a' ∧ a'.freeFrames + n = a.freeFrames ∧
      a'.free (PageAllocator.frameToAddr s) n = .ok a) ∨
    ((∀ s, a.firstFrame ≤ s → ¬ a.FreeRun n s) ∧ a.alloc n = .ok (none, a)) := by
  have hbits := alloc_bits ha n
  cases hp : a.bits.alloc n with
  | none =>
    rw [hp] at hbits
    refine Or.inr ⟨fun s hfirst hrun => ?_, hbits⟩
    obtain ⟨t, b, hsome, -⟩ := ((a.hasRun_iff n s).mpr ⟨hfirst, hrun⟩).alloc ha hn
    rw [hp] at hsome
    cases hsome
  | some q =>
    obtain ⟨addr, b⟩ := q
    rw [hp] at hbits
    obtain ⟨a', halloc, rfl⟩ := hbits
    obtain ⟨s, rfl, ht⟩ := PageAllocator.alloc_some ha hp
    have hrun : a.bits.HasRun n s := ⟨ht.first_le, ht.le_max, ht.free⟩
    have hmax := ht.le_max
    have hmarks : a.Marks true n s a' := .of_bits ht.le_max ht.bitmap ht.firstFrame
    refine Or.inl ⟨s, a', ⟨ht.first_le, ((a.hasRun_iff n s).mp hrun).2, ?_⟩, halloc, hmarks,
      ht.freeFrames, ?_⟩
    · intro t hfirst hfree
      obtain ⟨s', b', hsome, hle⟩ := ((a.hasRun_iff n t).mpr ⟨hfirst, hfree⟩).alloc ha hn
      have heq := (Prod.mk.inj (Option.some.inj (hp.symm.trans hsome))).1
      simp only [PageAllocator.frameToAddr, pageSize] at heq
      omega
    · have haddr : PageAllocator.addrToFrame (PageAllocator.frameToAddr s) = .ok s :=
        PageAllocator.addrToFrame_frameToAddr s
      have hfirst' : a'.firstFrame ≤ s := by
        rw [hmarks.firstFrame]
        exact ht.first_le
      obtain ⟨c, hc, hcb⟩ := free_used (ht.consistent ha) haddr ⟨hfirst', ht.le_max, hmarks.inside⟩
      have hca : c = a := by
        refine bits_injective ?_
        rw [hcb]
        have hback : (fun f => if s ≤ f ∧ f < s + n then false else a'.bits.bitmap f) =
            a.bits.bitmap := by
          funext f
          by_cases hf : s ≤ f ∧ f < s + n
          · rw [if_pos hf, ht.free f hf.1 hf.2]
          · rw [if_neg hf, ht.bitmap, if_neg hf]
        have hcount : a'.freeFrames + n = a.freeFrames := ht.freeFrames
        rw [hback, hmarks.firstFrame, hcount]
        rfl
      rw [hc, hca]

/-- The allocator is right in every state that a history of calls leads to. -/
theorem allocator_correct {a : PackedAllocator} (h : Runs Calls Op.Legal reset a) :
    a.freeFrames =
        ((Finset.Ico a.firstFrame maxFrames).filter fun f => a.isUsed f = .ok false).card ∧
    (∀ n, 1 ≤ n →
      (∃ s a', a.LowestRun n s ∧ a.alloc n = .ok (some (PageAllocator.frameToAddr s), a') ∧
        a.Marks true n s a' ∧ a'.freeFrames + n = a.freeFrames ∧
        a'.free (PageAllocator.frameToAddr s) n = .ok a) ∨
      ((∀ s, a.firstFrame ≤ s → ¬ a.FreeRun n s) ∧ a.alloc n = .ok (none, a))) ∧
    a.alloc 0 = .ok (none, a) ∧
    ∀ addr n, ramStart ≤ addr → a.UsedRun n ((addr - ramStart) / pageSize) →
      ∃ a', a.free addr n = .ok a' ∧ a.Marks false n ((addr - ramStart) / pageSize) a' ∧
        a'.freeFrames = a.freeFrames + n := by
  have ha := consistent_history h
  refine ⟨?_, fun n hn => alloc_lowest ha hn, ?_, fun addr n hlo hrun => ?_⟩
  · rw [← bits_freeFrames, ha.count]
    congr 1
    refine Finset.filter_congr fun f hf => ?_
    exact (a.isUsed_iff (Finset.mem_Ico.mp hf).2).symm
  · rw [alloc, if_pos (Or.inl rfl)]
    rfl
  · have haddr : PageAllocator.addrToFrame addr = .ok ((addr - ramStart) / pageSize) := if_pos hlo
    obtain ⟨a', hfree, hbits⟩ := free_used ha haddr hrun
    refine ⟨a', hfree, .of_bits hrun.2.1 (fun f => ?_) ?_, ?_⟩
    · rw [hbits]
    · exact congrArg PageAllocator.firstFrame hbits
    · exact congrArg PageAllocator.freeFrames hbits

/-- With two frames of RAM above the heap start, both are handed out and taken back. -/
theorem allocator_correct_two : ∃ a a', reset.init (ramEnd - 2 * pageSize) = .ok a ∧
    a.freeFrames = 2 ∧ a.alloc 2 = .ok (some (ramEnd - 2 * pageSize), a') ∧
    a'.free (ramEnd - 2 * pageSize) 2 = .ok a := by
  have hup : pageUp (ramEnd - 2 * pageSize) = .ok (ramEnd - 2 * pageSize) := by decide
  obtain ⟨a, hinit, hbits⟩ := reset.init_bits hup (by decide) (by decide)
  have hfirst : a.firstFrame = maxFrames - 2 := congrArg PageAllocator.firstFrame hbits
  have hcount : a.freeFrames = 2 := congrArg PageAllocator.freeFrames hbits
  have hrun : a.FreeRun 2 (maxFrames - 2) := by
    refine ⟨by decide, fun f h1 h2 => (a.isUsed_iff (by omega)).mpr ?_⟩
    rw [hbits]
    exact if_pos ⟨h1, by omega⟩
  obtain ⟨-, halloc, -, -⟩ := allocator_correct ((Runs.refl reset).snoc (e := Op.init _) trivial hinit)
  obtain ⟨s, a', ⟨hle, -, hlow⟩, hsome, -, -, hfree⟩ | ⟨hnone, -⟩ := halloc 2 (by decide)
  · have hs : s = maxFrames - 2 := le_antisymm (hlow _ hfirst.le hrun) (hfirst ▸ hle)
    subst hs
    exact ⟨a, a', hinit, hcount, hsome, hfree⟩
  · exact absurd hrun (hnone _ hfirst.le)

end PackedAllocator

end LightOS
