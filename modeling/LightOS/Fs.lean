import LightOS.Net
import LightOS.Uaccess

/-!
# The read-only Minix3 filesystem and the embedded program images

The driver of `kernel/fs/minix3.rs` over a block device that answers each block
read with its 1024 bytes or an error, and `load_program` with its fallback to
the two images built into the kernel.
-/
namespace LightOS

abbrev blockSize : ℕ := 1024
abbrev inodeSize : ℕ := 64
abbrev direntSize : ℕ := 64
abbrev zonesPerBlock : ℕ := blockSize / 4
abbrev rootIno : ℕ := 1

/-- The block device as one system call sees it. -/
abbrev Disk := ℕ → Except String (Vector UInt8 blockSize)

/-- File-system results: a driver error, or a value; either may panic. -/
abbrev FsM := ExceptT String (Except Fault)

structure Inode where
  ino : ℕ
  mode : ℕ
  nlinks : ℕ
  size : ℕ
  zones : List ℕ
  deriving DecidableEq, Repr

def Inode.isDir (i : Inode) : Bool := i.mode &&& 0o170000 = 0o040000
def Inode.isFile (i : Inode) : Bool := i.mode &&& 0o170000 = 0o100000

structure MinixFs where
  imapBlocks : ℕ
  zmapBlocks : ℕ
  ninodes : ℕ
  zones : ℕ
  deriving DecidableEq, Repr

def readBlock (disk : Disk) (block : ℕ) : FsM (List UInt8) :=
  match disk block with
  | .ok b => return b.toList
  | .error e => throw e

def le16 (b : List UInt8) (off : ℕ) : FsM ℕ := ExceptT.lift (Elf.readU16 b off)
def le32 (b : List UInt8) (off : ℕ) : FsM ℕ := ExceptT.lift (Elf.readU32 b off)

namespace MinixFs

def inodeTableBlock (fs : MinixFs) : ℕ := 2 + fs.imapBlocks + fs.zmapBlocks

/-- Load inode `ino` (1-based). -/
def inode (fs : MinixFs) (disk : Disk) (ino : ℕ) : FsM Inode := do
  if ino = 0 ∨ fs.ninodes < ino then throw "minix3: inode out of range"
  let index := ino - 1
  let block ← ExceptT.lift
    (checkedAdd32 fs.inodeTableBlock (index / (blockSize / inodeSize)))
  let off := index % (blockSize / inodeSize) * inodeSize
  let buf ← readBlock disk block
  let zones ← (List.range 10).mapM fun i => le32 buf (off + 24 + i * 4)
  let mode ← le16 buf off
  let nlinks ← le16 buf (off + 2)
  let size ← le32 buf (off + 8)
  return ⟨ino, mode, nlinks, size, zones⟩

/-- Zone number of the `n`-th block of the file; 0 is a hole. -/
def fileZone (disk : Disk) (inode : Inode) (n : ℕ) : FsM ℕ := do
  if n < 7 then
    match inode.zones[n]? with
    | some z => return z
    | none => ExceptT.lift (.error (.panic .indexOutOfRange))
  else if n - 7 < zonesPerBlock then
    match inode.zones[7]? with
    | none => ExceptT.lift (.error (.panic .indexOutOfRange))
    | some 0 => return 0
    | some z =>
      let buf ← readBlock disk z
      le32 buf ((n - 7) * 4)
  else throw "minix3: file too large (double-indirect unsupported)"

/-- The copy loop of `read_at`; every round yields at least one byte. -/
def readAtLoop (disk : Disk) (inode : Inode) : ℕ → ℕ → ℕ → List UInt8 → FsM (List UInt8)
  | 0, _, _, acc => return acc
  | fuel + 1, pos, left, acc => do
    if left = 0 then return acc
    let zone ← fileZone disk inode (pos / blockSize)
    let inBlock := pos % blockSize
    let n := min (blockSize - inBlock) left
    if zone = 0 then
      readAtLoop disk inode fuel (pos + n) (left - n) (acc ++ List.replicate n 0)
    else
      let block ← readBlock disk zone
      readAtLoop disk inode fuel (pos + n) (left - n) (acc ++ (block.drop inBlock).take n)

/-- Up to `len` bytes at `offset`. -/
def readAt (disk : Disk) (inode : Inode) (offset len : ℕ) : FsM (List UInt8) :=
  if inode.size ≤ offset then return []
  else
    let want := min len (inode.size - offset)
    readAtLoop disk inode want offset want []

def readFile (disk : Disk) (inode : Inode) : FsM (List UInt8) :=
  readAt disk inode 0 inode.size

/-- The entries `readdir` visits, in order, from entry number `i` on. -/
def readdirLoop (disk : Disk) (dir : Inode) : ℕ → ℕ → FsM (List (List UInt8 × ℕ))
  | 0, _ => return []
  | fuel + 1, offset => do
    if dir.size < offset + direntSize then return []
    let entry ← readAt disk dir offset direntSize
    if entry.length < direntSize then return []
    let ino ← le32 entry 0
    let name := (entry.drop 4).takeWhile (· ≠ 0)
    let rest ← readdirLoop disk dir fuel (offset + direntSize)
    -- deleted entries and names that are not UTF-8 are passed over
    if ino ≠ 0 ∧ utf8Valid name then return (name, ino) :: rest else return rest

def readdir (disk : Disk) (dir : Inode) : FsM (List (List UInt8 × ℕ)) :=
  if dir.isDir then readdirLoop disk dir (dir.size / direntSize + 1) 0
  else throw "minix3: not a directory"

/-- The last entry of that name wins. -/
def dirLookup (disk : Disk) (dir : Inode) (name : List UInt8) : FsM (Option ℕ) := do
  let entries ← readdir disk dir
  return (entries.reverse.find? (·.1 = name)).map (·.2)

/-- The path components that `lookup` follows. -/
def components (path : List UInt8) : List (List UInt8) :=
  (path.splitOn 0x2f).filter fun c => c ≠ [] && c ≠ [0x2e]

def lookupFrom (fs : MinixFs) (disk : Disk) : Inode → List (List UInt8) → FsM (Option Inode)
  | inode, [] => return some inode
  | inode, comp :: rest => do
    if !inode.isDir then return none
    match ← dirLookup disk inode comp with
    | some ino => lookupFrom fs disk (← fs.inode disk ino) rest
    | none => return none

/-- Resolve a path to an inode. -/
def lookup (fs : MinixFs) (disk : Disk) (path : List UInt8) : FsM (Option Inode) := do
  lookupFrom fs disk (← fs.inode disk rootIno) (components path)

end MinixFs

/-- The program images built into the kernel. -/
structure Ramfs where
  initElf : List UInt8
  helloElf : List UInt8

def asciiBytes (s : String) : List UInt8 := s.toList.map fun c => UInt8.ofNat c.toNat

def Ramfs.lookup (r : Ramfs) (name : List UInt8) : Option (List UInt8) :=
  if name = asciiBytes "init" ∨ name = asciiBytes "/bin/init" then some r.initElf
  else if name = asciiBytes "hello" ∨ name = asciiBytes "/bin/hello" then some r.helloElf
  else none

/-- The mounted root, if any, and the embedded images. -/
structure Fs where
  root : Option MinixFs
  ramfs : Ramfs

namespace Fs

def withRoot {α : Type} (fs : Fs) (f : MinixFs → FsM α) : FsM α :=
  match fs.root with
  | some r => f r
  | none => throw "vfs: no root filesystem mounted"

def lookup (fs : Fs) (disk : Disk) (path : List UInt8) : FsM (Option Inode) :=
  fs.withRoot fun r => r.lookup disk path

def inode (fs : Fs) (disk : Disk) (ino : ℕ) : FsM Inode := fs.withRoot fun r => r.inode disk ino

def readAt (fs : Fs) (disk : Disk) (inode : Inode) (offset len : ℕ) : FsM (List UInt8) :=
  fs.withRoot fun _ => MinixFs.readAt disk inode offset len

def readdir (fs : Fs) (disk : Disk) (dir : Inode) : FsM (List (List UInt8 × ℕ)) :=
  fs.withRoot fun _ => MinixFs.readdir disk dir

def readFile (fs : Fs) (disk : Disk) (inode : Inode) : FsM (List UInt8) :=
  fs.withRoot fun _ => MinixFs.readFile disk inode

/-- Disk first, embedded image as fallback. -/
def loadProgram (fs : Fs) (disk : Disk) (path : List UInt8) :
    Except Fault (Option (List UInt8)) := do
  match ← (fs.lookup disk path).run with
  | .ok (some inode) =>
    if inode.isFile then
      match ← (fs.readFile disk inode).run with
      | .ok bytes => return some bytes
      | .error _ => return fs.ramfs.lookup path
    else return fs.ramfs.lookup path
  | _ => return fs.ramfs.lookup path

end Fs

end LightOS
