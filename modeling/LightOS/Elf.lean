import LightOS.Mmu

/-!
# The ELF64 loader

`load` maps and copies every PT_LOAD segment of an image. Header fields are
read by checked indexing, and the header arithmetic is checked as in the dev
profile, so a malformed image can stop the kernel as well as be rejected.
-/
namespace LightOS
open Lib

namespace Elf

abbrev ptLoad : ℕ := 1
abbrev pfX : ℕ := 1
abbrev pfW : ℕ := 2
abbrev class64 : UInt8 := 2
abbrev machineRiscv : ℕ := 243
abbrev etExec : ℕ := 2

structure LoadedElf where
  entry : ℕ
  /-- One past the highest mapped virtual address. -/
  brk : ℕ
  deriving DecidableEq, Repr

/-- `b[off]`. -/
def byteAt (b : List UInt8) (off : ℕ) : Except Fault ℕ :=
  match b[off]? with
  | some x => .ok x.toNat
  | none => .error (.panic .indexOutOfRange)

/-- Little-endian value of the `n` bytes at `off`. -/
def readLe (b : List UInt8) : ℕ → ℕ → Except Fault ℕ
  | _, 0 => .ok 0
  | off, n + 1 => do
    let lo ← byteAt b off
    let hi ← readLe b (off + 1) n
    return lo + 256 * hi

def readU16 (b : List UInt8) (off : ℕ) : Except Fault ℕ := readLe b off 2
def readU32 (b : List UInt8) (off : ℕ) : Except Fault ℕ := readLe b off 4
def readU64 (b : List UInt8) (off : ℕ) : Except Fault ℕ := readLe b off 8

/-- The fields of a program header that the loader reads. -/
structure Segment where
  flags : ℕ
  offset : ℕ
  vaddr : ℕ
  filesz : ℕ
  memsz : ℕ
  deriving DecidableEq, Repr

/-- Read program header `i`: `none` for a header that is not PT_LOAD. -/
def readSegment (image : List UInt8) (phoff phentsize i : ℕ) :
    Except Fault (Except String (Option Segment)) := do
  let ph ← checkedAdd phoff (i * phentsize)
  let phEnd ← checkedAdd ph 56
  if image.length < phEnd then return .error "elf: truncated program headers"
  if (← readU32 image ph) ≠ ptLoad then return .ok none
  let flags ← readU32 image (ph + 4)
  let offset ← readU64 image (ph + 8)
  let vaddr ← readU64 image (ph + 16)
  let filesz ← readU64 image (ph + 32)
  let memsz ← readU64 image (ph + 40)
  if memsz < filesz then return .error "elf: malformed segment"
  let fileEnd ← checkedAdd offset filesz
  if image.length < fileEnd then return .error "elf: malformed segment"
  if vaddr % pageSize ≠ 0 then
    return .error "elf: unaligned segment (link with -zmax-page-size=4096)"
  return .ok (some ⟨flags, offset, vaddr, filesz, memsz⟩)

/-- U and R always, W and X as the header says. -/
def Segment.pteFlags (seg : Segment) : ℕ :=
  pteU ||| pteR ||| (if seg.flags &&& pfW ≠ 0 then pteW else 0) |||
    (if seg.flags &&& pfX ≠ 0 then pteX else 0)

/-- The bytes of the image that belong to the page at `va`. -/
def Segment.pageBytes (seg : Segment) (image : List UInt8) (va : ℕ) : List UInt8 :=
  let segOff := va - seg.vaddr
  if segOff < seg.filesz then
    (image.drop (seg.offset + segOff)).take (min pageSize (seg.filesz - segOff))
  else []

/-- Load one page of a segment. -/
def loadPage (image : List UInt8) (root : ℕ) (seg : Segment) (va : ℕ) :
    MachineM (Except String Unit) := do
  match ← pageAlloc 1 with
  | none => return .error "elf: out of memory"
  | some frame =>
    modify fun m => { m with mem := writeBytes m.mem frame (seg.pageBytes image va) }
    PageTable.map root va frame seg.pteFlags

/-- One past the last page of the segment, `page_up(vaddr + memsz)`. -/
def Segment.endVa (seg : Segment) : Except Fault ℕ := do
  let memEnd ← checkedAdd seg.vaddr seg.memsz
  pageUp memEnd

/-- The pages of a segment that ends at `stop`; both ends are page-aligned. -/
def Segment.pageVas (seg : Segment) (stop : ℕ) : List ℕ :=
  (List.range ((stop - seg.vaddr) / pageSize)).map fun i => seg.vaddr + i * pageSize

/-- The loop over the program headers, carrying the break so far. -/
def loadSegments (image : List UInt8) (root phoff phentsize : ℕ) :
    List ℕ → ℕ → MachineM (Except String ℕ)
  | [], brk => return .ok brk
  | i :: rest, brk => do
    match ← Prog.ofExcept (readSegment image phoff phentsize i) with
    | .error e => return .error e
    | .ok none => loadSegments image root phoff phentsize rest brk
    | .ok (some seg) =>
      let stop ← Prog.ofExcept seg.endVa
      match ← Prog.tryEach (loadPage image root seg) (seg.pageVas stop) with
      | .error e => return .error e
      | .ok _ => loadSegments image root phoff phentsize rest (max brk stop)

/-- The checks on the file header: entry, phoff, phentsize and phnum. -/
def readHeader (image : List UInt8) : Except Fault (Except String (ℕ × ℕ × ℕ × ℕ)) := do
  if image.length < 64 ∨ image.take 4 ≠ [0x7f, 0x45, 0x4c, 0x46] then
    return .error "elf: bad magic"
  if image[4]? ≠ some class64 then return .error "elf: not ELF64"
  if (← readU16 image 18) ≠ machineRiscv then return .error "elf: not RISC-V"
  if (← readU16 image 16) ≠ etExec then
    return .error "elf: not an EXEC image (PIE unsupported)"
  let entry ← readU64 image 24
  let phoff ← readU64 image 32
  let phentsize ← readU16 image 54
  let phnum ← readU16 image 56
  return .ok (entry, phoff, phentsize, phnum)

/-- Map and copy every PT_LOAD segment of `image` into `root`. -/
def load (image : List UInt8) (root : ℕ) : MachineM (Except String LoadedElf) := do
  match ← Prog.ofExcept (readHeader image) with
  | .error e => return .error e
  | .ok (entry, phoff, phentsize, phnum) =>
    match ← loadSegments image root phoff phentsize (List.range phnum) 0 with
    | .error e => return .error e
    | .ok brk =>
      if brk = 0 then return .error "elf: no loadable segments"
      else return .ok ⟨entry, brk⟩

end Elf

end LightOS
