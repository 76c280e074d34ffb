import LightOS.Mmu

/-!
# Copies between the kernel and a process address space

Every transfer checks its range against the user window and then walks the
process page table page by page. A failed `copyOut` may already have stored a
prefix of its source.
-/
namespace LightOS
open Lib

abbrev userVaStart : ℕ := 0x40000000
abbrev userVaEnd : ℕ := 0x80000000

/-- Rejects an overflowing range and one that leaves the user window. -/
def checkRange (uva len : ℕ) : Except String Unit :=
  if usizeBound ≤ uva + len then .error "uaccess: address overflow"
  else if uva < userVaStart ∨ userVaEnd < uva + len then
    .error "uaccess: address outside user window"
  else .ok ()

/-- Bytes up to the end of the page of `va`, at most `left`. -/
def chunkLen (va left : ℕ) : ℕ := min (pageSize - va % pageSize) left

/-- The copy loop of `copy_out`; every round stores at least one byte, so `fuel`
at the number of bytes left is enough. -/
def copyOutLoop (root : ℕ) : ℕ → ℕ → List UInt8 → MachineM (Except String Unit)
  | 0, _, _ => return .ok ()
  | fuel + 1, va, src => do
    if src = [] then return .ok ()
    match ← PageTable.virtToPhys root va with
    | none => return .error "uaccess: unmapped user address"
    | some pa =>
      let n := chunkLen va src.length
      modify fun m => { m with mem := writeBytes m.mem pa (src.take n) }
      copyOutLoop root fuel (va + n) (src.drop n)

def copyOut (root uva : ℕ) (src : List UInt8) : MachineM (Except String Unit) :=
  match checkRange uva src.length with
  | .error e => return .error e
  | .ok _ => copyOutLoop root src.length uva src

/-- The copy loop of `copy_in`, accumulating the bytes read. -/
def copyInLoop (root : ℕ) : ℕ → ℕ → ℕ → List UInt8 → MachineM (Except String (List UInt8))
  | 0, _, _, acc => return .ok acc
  | fuel + 1, va, left, acc => do
    if left = 0 then return .ok acc
    match ← PageTable.virtToPhys root va with
    | none => return .error "uaccess: unmapped user address"
    | some pa =>
      let n := chunkLen va left
      let m ← get
      copyInLoop root fuel (va + n) (left - n) (acc ++ readBytes m.mem pa n)

/-- The `len` bytes of the process at `uva`. -/
def copyIn (root uva len : ℕ) : MachineM (Except String (List UInt8)) :=
  match checkRange uva len with
  | .error e => return .error e
  | .ok _ => copyInLoop root len uva len []

/-- Continuation byte of a UTF-8 sequence. -/
def isCont (b : UInt8) : Bool := 0x80 ≤ b && b ≤ 0xbf

/-- `core::str::from_utf8` accepts exactly the well-formed sequences: no overlong
form, no surrogate, nothing above U+10FFFF. -/
def utf8Valid : List UInt8 → Bool
  | [] => true
  | b0 :: t0 =>
    if b0 < 0x80 then utf8Valid t0
    else match t0 with
      | [] => false
      | b1 :: t1 =>
        if 0xc2 ≤ b0 && b0 ≤ 0xdf then isCont b1 && utf8Valid t1
        else match t1 with
          | [] => false
          | b2 :: t2 =>
            if b0 = 0xe0 then 0xa0 ≤ b1 && b1 ≤ 0xbf && isCont b2 && utf8Valid t2
            else if b0 = 0xed then 0x80 ≤ b1 && b1 ≤ 0x9f && isCont b2 && utf8Valid t2
            else if 0xe1 ≤ b0 && b0 ≤ 0xef then isCont b1 && isCont b2 && utf8Valid t2
            else match t2 with
              | [] => false
              | b3 :: t3 =>
                if b0 = 0xf0 then
                  0x90 ≤ b1 && b1 ≤ 0xbf && isCont b2 && isCont b3 && utf8Valid t3
                else if 0xf1 ≤ b0 && b0 ≤ 0xf3 then
                  isCont b1 && isCont b2 && isCont b3 && utf8Valid t3
                else if b0 = 0xf4 then
                  0x80 ≤ b1 && b1 ≤ 0x8f && isCont b2 && isCont b3 && utf8Valid t3
                else false

theorem utf8Valid_ascii {s : List UInt8} (h : ∀ b ∈ s, b < 0x80) : utf8Valid s = true := by
  induction s with
  | nil => rw [utf8Valid.eq_def]
  | cons b s ih =>
    rw [utf8Valid.eq_def]
    dsimp only
    rw [if_pos (h b (by simp))]
    exact ih fun c hc => h c (by simp [hc])

/-- The loop of `copy_in_cstr` from byte `i`, with `left` rounds to go and the
bytes read so far. The address addition is checked. -/
def copyInCstrLoop (root uva : ℕ) : ℕ → ℕ → List UInt8 → MachineM (Except String (List UInt8))
  | 0, _, _ => return .error "uaccess: string too long"
  | left + 1, i, acc => do
    let va ← Prog.ofExcept (checkedAdd uva i)
    match ← copyIn root va 1 with
    | .error e => return .error e
    | .ok byte =>
      if byte = [0] then
        if utf8Valid acc then return .ok acc else return .error "uaccess: invalid UTF-8"
      else copyInCstrLoop root uva left (i + 1) (acc ++ byte)

/-- A NUL-terminated string of at most `bufLen - 1` bytes. -/
def copyInCstr (root uva bufLen : ℕ) : MachineM (Except String (List UInt8)) :=
  copyInCstrLoop root uva (bufLen - 1) 0 []

end LightOS
