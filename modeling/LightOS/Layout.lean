import LightOS.Lib.Prog
import LightOS.Lib.Bytes

/-!
# Memory map, machine words and the ways the kernel stops

Constants of `kernel/mem/layout.rs` for the QEMU virt machine, and the 64-bit
arithmetic of the dev profile: an addition or multiplication whose result does
not fit in a `usize` panics. A panic, like a deliberate power-off or reboot,
ends the run of the kernel.
-/
namespace LightOS

/-- The reasons the modelled code can panic. -/
inductive Panic where
  | overflow
  | indexOutOfRange
  | addressBelowRam
  | doubleFree
  | unalignedVa
  | unalignedPa
  | superpage
  | expectFailed
  | initExited (code : ℤ)
  | heapExhausted
  deriving DecidableEq, Repr

/-- The kernel stops by a panic, or because a process asked it to. -/
inductive Fault where
  | panic (p : Panic)
  | poweroff
  | reboot
  deriving DecidableEq, Repr

abbrev pageSize : ℕ := 4096
abbrev ramStart : ℕ := 0x80000000
abbrev ramSize : ℕ := 128 * 1024 * 1024
abbrev ramEnd : ℕ := ramStart + ramSize

abbrev testBase : ℕ := 0x00100000
abbrev testSize : ℕ := pageSize
abbrev uart0Base : ℕ := 0x10000000
abbrev uart0Size : ℕ := pageSize
abbrev virtioBase : ℕ := 0x10001000
abbrev virtioSize : ℕ := 8 * pageSize
abbrev clintBase : ℕ := 0x02000000
abbrev clintSize : ℕ := 0x10000
abbrev plicBase : ℕ := 0x0c000000
abbrev plicSize : ℕ := 0x400000

/-- One past the largest `usize`. -/
abbrev usizeBound : ℕ := 2 ^ 64

/-- `addr & !(PAGE_SIZE - 1)`. -/
def pageDown (addr : ℕ) : ℕ := addr / pageSize * pageSize

/-- Checked addition of the dev profile. -/
def checkedAdd (a b : ℕ) : Except Fault ℕ :=
  if a + b < usizeBound then .ok (a + b) else .error (.panic .overflow)

/-- Checked multiplication of the dev profile. -/
def checkedMul (a b : ℕ) : Except Fault ℕ :=
  if a * b < usizeBound then .ok (a * b) else .error (.panic .overflow)

/-- `(addr + PAGE_SIZE - 1) & !(PAGE_SIZE - 1)`; the sum is checked before one is taken off. -/
def pageUp (addr : ℕ) : Except Fault ℕ := do
  let a ← checkedAdd addr pageSize
  return pageDown (a - 1)

/-- `len.div_ceil(PAGE_SIZE)`. -/
def pagesOf (len : ℕ) : ℕ := (len + (pageSize - 1)) / pageSize

/-- A `usize` read as an `isize`. -/
def toIsize (n : ℕ) : ℤ := if n < 2 ^ 63 then n else (n : ℤ) - 2 ^ 64

/-- An `isize` stored as a `usize`. -/
def ofIsize (z : ℤ) : ℕ := (z % 2 ^ 64).toNat

/-- A `usize` truncated to an `i32`. -/
def toI32 (n : ℕ) : ℤ := if n % 2 ^ 32 < 2 ^ 31 then (n % 2 ^ 32 : ℕ) else (n % 2 ^ 32 : ℕ) - 2 ^ 32

theorem checkedAdd_ok {a b c : ℕ} : checkedAdd a b = .ok c ↔ a + b < usizeBound ∧ c = a + b := by
  unfold checkedAdd
  split_ifs with h
  · simp [h, eq_comm]
  · simp [h]

theorem checkedMul_ok {a b c : ℕ} : checkedMul a b = .ok c ↔ a * b < usizeBound ∧ c = a * b := by
  unfold checkedMul
  split_ifs with h
  · simp [h, eq_comm]
  · simp [h]

theorem pageUp_ok {a c : ℕ} :
    pageUp a = .ok c ↔ a + 4096 < usizeBound ∧ c = (a + 4095) / 4096 * 4096 := by
  unfold pageUp checkedAdd
  by_cases h : a + pageSize < usizeBound
  · rw [if_pos h]
    change Except.ok (pageDown (a + pageSize - 1)) = .ok c ↔ _
    simp only [Except.ok.injEq, pageDown, pageSize] at *
    exact ⟨fun hc => ⟨h, hc.symm⟩, fun hc => hc.2.symm⟩
  · rw [if_neg h]
    change (Except.error (Fault.panic .overflow) : Except Fault ℕ) = .ok c ↔ _
    simp only [pageSize] at *
    simp [h]

end LightOS
