import LightOS.Files
import Mathlib.Data.List.TakeWhile

/-!
# Listing a directory

The loop of the shell's `ls` over `getdents64`: the kernel packs the entries of a
directory into records as far as they fit and remembers how many it has handed
out, the shell walks the records of each answer. Together they deliver every
entry once and in order.
-/
namespace LightOS
open Lib

namespace MinixFs

/-- One directory entry of 64 bytes; deleted entries and names that are not UTF-8
do not count. -/
def rawEntry (e : List UInt8) : Option (List UInt8 × ℕ) :=
  let ino := leValue (e.take 4)
  let name := (e.drop 4).takeWhile (· ≠ 0)
  if ino ≠ 0 ∧ utf8Valid name then some (name, ino) else none

/-- The entries of a directory on disk. -/
def dirEntries (blocks : ℕ → List UInt8) (size : ℕ) : List (List UInt8 × ℕ) :=
  (List.range (size / direntSize)).filterMap fun n =>
    rawEntry (bytesOf blocks (n * direntSize) direntSize)

theorem readdirLoop_eq {disk : Disk} {dir : Inode} {blocks : ℕ → List UInt8}
    (hst : ∀ i, i * blockSize < dir.size / direntSize * direntSize → Stored disk dir i (blocks i)) (fuel : ℕ) :
    ∀ {n : ℕ}, dir.size / direntSize < fuel + n →
      readdirLoop disk dir fuel (n * direntSize) =
        pure ((List.range' n (dir.size / direntSize - n)).filterMap fun n =>
          rawEntry (bytesOf blocks (n * direntSize) direntSize)) := by
  induction fuel with
  | zero =>
      intro n hn
      rw [readdirLoop, Nat.sub_eq_zero_of_le (by omega)]
      rfl
  | succ fuel ih =>
      intro n hn
      rw [readdirLoop]
      by_cases hend : dir.size < n * direntSize + direntSize
      · have hle : dir.size / direntSize ≤ n := by
          simp only [direntSize] at *
          omega
        rw [if_pos hend, Nat.sub_eq_zero_of_le hle]
        rfl
      · have hlt : n < dir.size / direntSize := by
          simp only [direntSize] at *
          omega
        have hmin : min direntSize (dir.size - n * direntSize) = direntSize := by omega
        obtain ⟨e, he⟩ : ∃ e, e = bytesOf blocks (n * direntSize) direntSize := ⟨_, rfl⟩
        have helen : e.length = direntSize := by rw [he, bytesOf_length]
        have hnext := ih (n := n + 1) (by omega)
        rw [Nat.add_mul, Nat.one_mul] at hnext
        have hread : readAt disk dir (n * direntSize) direntSize = pure e := by
          have h : readAt disk dir (n * direntSize) direntSize = pure (bytesOf blocks
              (n * direntSize) (min direntSize (dir.size - n * direntSize))) := by
            refine readAt_eq fun i hi => hst i ?_
            simp only [direntSize] at *
            omega
          rwa [hmin, ← he] at h
        rw [if_neg hend, hread, pure_bind, if_neg (by omega),
          le32_eq e (by rw [helen]; decide), pure_bind, hnext, pure_bind, List.drop_zero]
        have hcount : dir.size / direntSize - n = dir.size / direntSize - (n + 1) + 1 := by omega
        rw [hcount, List.range'_succ, List.filterMap_cons, ← he, rawEntry]
        split_ifs <;> rfl

theorem readdir_eq {disk : Disk} {dir : Inode} {blocks : ℕ → List UInt8} (hd : dir.isDir)
    (hst : ∀ i, i * blockSize < dir.size / direntSize * direntSize → Stored disk dir i (blocks i)) :
    readdir disk dir = pure (dirEntries blocks dir.size) := by
  have h := readdirLoop_eq hst (dir.size / direntSize + 1) (n := 0) (by omega)
  rw [Nat.zero_mul, Nat.sub_zero] at h
  rw [readdir, if_pos hd, h, dirEntries, List.range_eq_range']

/-- Names of entries: no NUL, valid, and short enough for an entry. -/
theorem dirEntries_name {blocks : ℕ → List UInt8} {size : ℕ} {e : List UInt8 × ℕ}
    (h : e ∈ dirEntries blocks size) :
    (∀ b ∈ e.1, b ≠ 0) ∧ utf8Valid e.1 ∧ e.1.length ≤ 60 := by
  obtain ⟨n, -, hn⟩ := List.mem_filterMap.mp h
  rw [rawEntry] at hn
  split_ifs at hn with hv
  obtain rfl := Option.some.inj hn
  refine ⟨fun b hb => ?_, hv.2, ?_⟩
  · simpa using List.mem_takeWhile_imp hb
  · refine le_trans (List.takeWhile_prefix _).length_le ?_
    rw [List.length_drop, bytesOf_length]
    decide

end MinixFs

/-! ## The system call -/

/-- What `getdents64` computes for a directory read up to entry `pos`: an error
code, or the records for the caller and the new position. -/
def getdents (fs : Fs) (disk : Disk) (ino pos len : ℕ) :
    Except Fault (Except ℤ (List UInt8 × ℕ)) := do
  match ← (fs.inode disk ino).run with
  | .error _ => return .error ebadf
  | .ok dir =>
    if !dir.isDir then return .error enotdir
    match ← (fs.readdir disk dir).run with
    | .error _ => return .error eio
    | .ok entries =>
      let (out, consumed) ← fillDirents fs disk (min 512 len) pos ((entries.drop pos).take 32) [] 0
      return .ok (out, pos + consumed)

/-- The system call copies the records out and stores the position. -/
theorem sysGetdents64_file {io : Io} {tf : TrapFrame} {k : Kernel} {p : Process} {f : OpenFile}
    {ino : ℕ} (hfd : ¬ tf.a0 < 3) (hp : procAt k.current k = .ok (p, k))
    (hf : p.file tf.a0 = some f) (hk : f.kind = .file ino) :
    sysGetdents64 io tf k =
      match getdents k.fs io.disk ino f.pos tf.a2 with
      | .error e => .error e
      | .ok (.error c) => .ok (c, k)
      | .ok (.ok (out, pos)) => (do
          let (rootPa, _) ← currentInfo
          let sent ← if out = [] then pure (.ok ()) else onMachine (copyOut rootPa tf.a1 out)
          match sent with
          | .error _ => return efault
          | .ok _ =>
            setPos k.current tf.a0 pos
            return out.length : KernelM ℤ) k := by
  have hok {α β : Type} (a : α) (g : α → Except Fault β) : (Except.ok a >>= g) = g a := rfl
  simp only [sysGetdents64, if_neg hfd, Prog.bind_apply, Prog.get_apply, hp, hf, hk, getdents]
  cases (k.fs.inode io.disk ino).run with
  | error e => rfl
  | ok r =>
    cases r with
    | error c => rfl
    | ok dir =>
      simp only [Prog.ofExcept_apply, hok]
      by_cases hd : dir.isDir
      · simp only [hd, Bool.not_true, Bool.false_eq_true, if_false, Prog.bind_apply]
        cases (k.fs.readdir io.disk dir).run with
        | error e => rfl
        | ok r =>
          cases r with
          | error c => rfl
          | ok entries =>
            simp only [Prog.ofExcept_apply, hok, Prog.bind_apply]
            cases fillDirents k.fs io.disk (min 512 tf.a2) f.pos
              (List.take 32 (List.drop f.pos entries)) [] 0 with
            | error e => rfl
            | ok r => rfl
      · simp only [hd, Bool.not_false, if_true]
        rfl

def foundDir : Except String Inode → Bool
  | .ok i => i.isDir
  | .error _ => false

/-- The inode of that number is a directory. -/
def isDirIno (r : MinixFs) (disk : Disk) (ino : ℕ) : Bool :=
  match (r.inode disk ino).run with
  | .ok x => foundDir x
  | .error _ => false

/-- Length of a record: header, name and NUL, padded. -/
def recordLen (name : List UInt8) : ℕ := (19 + name.length + 1 + 7) / 8 * 8

theorem recordLen_ge (name : List UInt8) : 20 + name.length ≤ recordLen name := by
  unfold recordLen
  omega

theorem recordLen_le {name : List UInt8} (h : name.length ≤ 60) : recordLen name ≤ 80 := by
  unfold recordLen
  omega

/-- The record of an entry. -/
def entryRecord (r : MinixFs) (disk : Disk) (seq : ℕ) (e : List UInt8 × ℕ) : List UInt8 :=
  direntRecord e.2 seq (recordLen e.1) (if isDirIno r disk e.2 then 4 else 8) e.1

@[simp] theorem leBytes_length (n v : ℕ) : (leBytes n v).length = n := by
  induction n generalizing v with
  | zero => rfl
  | succ n ih => simp [leBytes, ih]

theorem entryRecord_length (r : MinixFs) (disk : Disk) (seq : ℕ) (e : List UInt8 × ℕ) :
    (entryRecord r disk seq e).length = recordLen e.1 := by
  have := recordLen_ge e.1
  simp only [entryRecord, direntRecord, List.length_append, leBytes_length, List.length_cons,
    List.length_nil, List.length_replicate]
  omega

/-- Records of consecutive entries; `seq` numbers the first. -/
def entryRecords (r : MinixFs) (disk : Disk) : ℕ → List (List UInt8 × ℕ) → List (List UInt8)
  | _, [] => []
  | seq, e :: es => entryRecord r disk seq e :: entryRecords r disk (seq + 1) es

@[simp] theorem entryRecords_length (r : MinixFs) (disk : Disk) (seq : ℕ)
    (es : List (List UInt8 × ℕ)) : (entryRecords r disk seq es).length = es.length := by
  induction es generalizing seq with
  | nil => rfl
  | cons e es ih => simp [entryRecords, ih]

theorem entryRecords_long (r : MinixFs) (disk : Disk) (seq : ℕ) (es : List (List UInt8 × ℕ)) :
    es.length ≤ (entryRecords r disk seq es).flatten.length := by
  induction es generalizing seq with
  | nil => simp
  | cons e es ih =>
      have h1 := ih (seq + 1)
      have h2 := recordLen_ge e.1
      simp only [entryRecords, List.flatten_cons, List.length_append, entryRecord_length,
        List.length_cons]
      omega

/-- The packing loop takes a prefix of the entries, and the next one would not
fit. -/
theorem fillDirents_eq {fs : Fs} {r : MinixFs} (hroot : fs.root = some r) (hr : r.Sized)
    (disk : Disk) (room start : ℕ) (es : List (List UInt8 × ℕ)) :
    ∀ (out : List UInt8) (consumed : ℕ), start + consumed + es.length + 1 < usizeBound →
      ∃ j, j ≤ es.length ∧
        fillDirents fs disk room start es out consumed =
          .ok (out ++ (entryRecords r disk (start + consumed + 1) (es.take j)).flatten,
            consumed + j) ∧
        ∀ e es', es.drop j = e :: es' → room < out.length +
          (entryRecords r disk (start + consumed + 1) (es.take j)).flatten.length +
            recordLen e.1 := by
  induction es with
  | nil => exact fun out consumed _ => ⟨0, le_rfl, by simp [fillDirents, entryRecords], nofun⟩
  | cons e es ih =>
      intro out consumed hlt
      simp only [List.length_cons] at hlt
      obtain ⟨name, ino⟩ := e
      by_cases hfull : room < out.length + recordLen name
      · refine ⟨0, Nat.zero_le _, ?_, ?_⟩
        · rw [fillDirents]
          dsimp only
          rw [if_pos (show room < out.length + (19 + name.length + 1 + 7) / 8 * 8 from hfull)]
          simp [entryRecords, pure, Except.pure]
        · intro e' es' h
          rw [List.drop_zero, List.cons.injEq] at h
          simpa [entryRecords, ← h.1] using hfull
      · obtain ⟨x, hx⟩ := r.inode_total hr disk ino
        have hinode : (fs.inode disk ino).run = .ok x := by
          rw [Fs.inode, Fs.withRoot, hroot]
          exact hx
        have hisDir : foundDir x = isDirIno r disk ino := by rw [isDirIno, hx]
        have hseq : checkedAdd start (consumed + 1) = .ok (start + consumed + 1) :=
          checkedAdd_ok.mpr ⟨by simp only [usizeBound] at *; omega, by omega⟩
        obtain ⟨j, hj, heq, hnext⟩ := ih (out ++ entryRecord r disk (start + consumed + 1)
          (name, ino)) (consumed + 1) (by simp only [usizeBound] at *; omega)
        rw [← Nat.add_assoc start consumed 1] at heq hnext
        refine ⟨j + 1, by simp only [List.length_cons]; omega, ?_, ?_⟩
        · rw [fillDirents]
          dsimp only
          rw [if_neg (show ¬ room < out.length + (19 + name.length + 1 + 7) / 8 * 8 from hfull),
            hinode]
          simp only [bind, Except.bind, hseq]
          change fillDirents fs disk room start es (out ++ direntRecord ino (start + consumed + 1)
            (recordLen name) (if foundDir x then 4 else 8) name) (consumed + 1) = _
          rw [hisDir]
          change fillDirents fs disk room start es
            (out ++ entryRecord r disk (start + consumed + 1) (name, ino)) (consumed + 1) = _
          rw [heq]
          simp only [List.take_succ_cons, entryRecords, List.flatten_cons, List.append_assoc]
          congr 2
          omega
        · intro e' es' h
          rw [List.drop_succ_cons] at h
          have := hnext e' es' h
          simp only [List.take_succ_cons, entryRecords, List.flatten_cons, List.length_append]
            at this ⊢
          omega

/-! ## The shell

`none` stands for a program that panics on an index or never leaves a loop. -/

/-- `(i..i + k).find(|&i| buf[i] == 0).unwrap_or(i + k)`. -/
def findNul (buf : List UInt8) : ℕ → ℕ → Option ℕ
  | 0, i => some i
  | k + 1, i => do
    let b ← buf[i]?
    if b = 0 then some i else findNul buf k (i + 1)

/-- The record loop of `cmd_ls` over the first `n` bytes of the buffer: the names it
prints, each with whether a slash follows. -/
def lsRecords (buf : List UInt8) (n : ℕ) : ℕ → ℕ → Option (List (List UInt8 × Bool))
  | 0, _ => none
  | fuel + 1, off =>
    if off + 19 < n then do
      let lo ← buf[off + 16]?
      let hi ← buf[off + 17]?
      let reclen := lo.toNat + 256 * hi.toNat
      let dtype ← buf[off + 18]?
      let nameEnd ← findNul buf (reclen - 19) (off + 19)
      -- `unwrap_or(off + reclen)` is in front of the name for a short record
      if reclen < 19 ∨ buf.length < nameEnd then none
      else do
        let name := (buf.drop (off + 19)).take (nameEnd - (off + 19))
        let rest ← lsRecords buf n fuel (off + reclen)
        if utf8Valid name then some ((name, dtype = 4) :: rest) else some rest
    else some []

/-- The loop of `cmd_ls`: what it prints from entry `pos` of the directory on. The
buffer keeps its old bytes behind those of the last answer. -/
def cmdLs (fs : Fs) (disk : Disk) (ino : ℕ) : ℕ → ℕ → List UInt8 → Option (List (List UInt8 × Bool))
  | 0, _, _ => none
  | fuel + 1, pos, buf =>
    match getdents fs disk ino pos 512 with
    | .error _ => none
    | .ok (.error _) => some []
    | .ok (.ok (out, pos')) =>
      if out = [] then some []
      else do
        let buf' := out ++ buf.drop out.length
        let here ← lsRecords buf' out.length (out.length + 1) 0
        let rest ← cmdLs fs disk ino fuel pos' buf'
        some (here ++ rest)

theorem findNul_eq (buf pre name post : List UInt8) (hbuf : buf = pre ++ name ++ 0 :: post)
    (hname : ∀ b ∈ name, b ≠ 0) {k : ℕ} (hk : name.length < k) :
    findNul buf k pre.length = some (pre.length + name.length) := by
  induction name generalizing pre k with
  | nil =>
      obtain ⟨k, rfl⟩ : ∃ j, k = j + 1 := ⟨k - 1, by simp only [List.length_nil] at hk; omega⟩
      simp [findNul, hbuf]
  | cons b name ih =>
      obtain ⟨k, rfl⟩ : ∃ j, k = j + 1 := ⟨k - 1, by simp only [List.length_cons] at hk; omega⟩
      have hb : b ≠ 0 := hname b (by simp)
      have hget : buf[pre.length]? = some b := by simp [hbuf]
      have hrec := ih (pre ++ [b]) (by simp [hbuf]) (fun c hc => hname c (by simp [hc]))
        (k := k) (by simp only [List.length_cons] at hk; omega)
      rw [List.length_append, List.length_singleton] at hrec
      rw [findNul, hget]
      simp only [Option.bind_eq_bind, Option.bind_some, if_neg hb, hrec, List.length_cons]
      congr 1
      omega

/-- The parts of a record as the shell finds them in the buffer. -/
theorem record_reads {r : MinixFs} {disk : Disk} {seq : ℕ} {e : List UInt8 × ℕ}
    {buf pre post : List UInt8} (hbuf : buf = pre ++ entryRecord r disk seq e ++ post)
    (hlen : e.1.length ≤ 60) (hname : ∀ b ∈ e.1, b ≠ 0) :
    buf[pre.length + 16]? = some (UInt8.ofNat (recordLen e.1)) ∧
    buf[pre.length + 17]? = some 0 ∧
    buf[pre.length + 18]? = some (if isDirIno r disk e.2 then 4 else 8) ∧
    findNul buf (recordLen e.1 - 19) (pre.length + 19) = some (pre.length + 19 + e.1.length) ∧
    (buf.drop (pre.length + 19)).take e.1.length = e.1 := by
  have hge := recordLen_ge e.1
  have hle := recordLen_le hlen
  obtain ⟨head, hhead⟩ : ∃ h, h = leBytes 8 e.2 ++ leBytes 8 seq := ⟨_, rfl⟩
  have hhlen : head.length = 16 := by simp [hhead]
  have htwo : leBytes 2 (recordLen e.1) = [UInt8.ofNat (recordLen e.1), 0] := by
    simp only [leBytes]
    rw [Nat.div_eq_of_lt (by omega)]
    rfl
  have hty : UInt8.ofNat (if isDirIno r disk e.2 then 4 else 8) =
      if isDirIno r disk e.2 then 4 else 8 := by split_ifs <;> rfl
  obtain ⟨k, hk⟩ : ∃ k, recordLen e.1 - 19 - e.1.length = k + 1 :=
    ⟨recordLen e.1 - 20 - e.1.length, by omega⟩
  have hlay : buf = (pre ++ head) ++ UInt8.ofNat (recordLen e.1) :: 0 ::
      (if isDirIno r disk e.2 then 4 else 8) :: (e.1 ++ 0 :: (List.replicate k 0 ++ post)) := by
    rw [hbuf, entryRecord, direntRecord, htwo, hk, hty, List.replicate_succ, ← hhead]
    simp only [List.append_assoc, List.cons_append, List.nil_append]
  have hpre : (pre ++ head).length = pre.length + 16 := by rw [List.length_append, hhlen]
  refine ⟨?_, ?_, ?_, ?_, ?_⟩
  · rw [hlay, List.getElem?_append_right (by omega), hpre]
    simp
  · rw [hlay, List.getElem?_append_right (by omega), hpre]
    simp [show pre.length + 17 - (pre.length + 16) = 1 by omega]
  · rw [hlay, List.getElem?_append_right (by omega), hpre]
    simp [show pre.length + 18 - (pre.length + 16) = 2 by omega]
  · have hn := findNul_eq buf (pre ++ head ++ [UInt8.ofNat (recordLen e.1), 0,
      if isDirIno r disk e.2 then 4 else 8]) e.1 (List.replicate k 0 ++ post)
      (by rw [hlay]; simp) hname (k := recordLen e.1 - 19) (by omega)
    simp only [List.length_append, hhlen, List.length_cons, List.length_nil] at hn
    exact hn
  · rw [hlay]
    have hdrop : pre.length + 19 = (pre ++ head ++ [UInt8.ofNat (recordLen e.1), 0,
        if isDirIno r disk e.2 then 4 else 8]).length := by simp [hhlen]
    rw [hdrop, show (pre ++ head) ++ UInt8.ofNat (recordLen e.1) :: 0 ::
      (if isDirIno r disk e.2 then 4 else 8) :: (e.1 ++ 0 :: (List.replicate k 0 ++ post)) =
      (pre ++ head ++ [UInt8.ofNat (recordLen e.1), 0, if isDirIno r disk e.2 then 4 else 8]) ++
        (e.1 ++ 0 :: (List.replicate k 0 ++ post)) by simp, List.drop_left, List.take_left]

/-- Walking a sequence of records yields their entries. -/
theorem lsRecords_eq {r : MinixFs} {disk : Disk} (es : List (List UInt8 × ℕ)) :
    ∀ (seq fuel : ℕ) (buf pre post : List UInt8),
      buf = pre ++ (entryRecords r disk seq es).flatten ++ post →
      (∀ e ∈ es, (∀ b ∈ e.1, b ≠ 0) ∧ utf8Valid e.1 ∧ e.1.length ≤ 60) → es.length < fuel →
      lsRecords buf (pre.length + (entryRecords r disk seq es).flatten.length) fuel pre.length =
        some (es.map fun e => (e.1, isDirIno r disk e.2)) := by
  induction es with
  | nil =>
      intro seq fuel buf pre post hbuf _ hf
      obtain ⟨fuel, rfl⟩ : ∃ f, fuel = f + 1 := ⟨fuel - 1, by simp only [List.length_nil] at hf; omega⟩
      rw [lsRecords, if_neg]
      · rfl
      · simp [entryRecords]
  | cons e es ih =>
      intro seq fuel buf pre post hbuf hes hf
      obtain ⟨fuel, rfl⟩ : ∃ f, fuel = f + 1 := ⟨fuel - 1, by simp only [List.length_cons] at hf; omega⟩
      obtain ⟨hnul, hutf, hlen⟩ := hes e (by simp)
      have hge := recordLen_ge e.1
      have hle := recordLen_le hlen
      have hrl := entryRecord_length r disk seq e
      have hbuf' : buf = pre ++ entryRecord r disk seq e ++
          ((entryRecords r disk (seq + 1) es).flatten ++ post) := by
        rw [hbuf]
        simp only [entryRecords, List.flatten_cons, List.append_assoc]
      obtain ⟨h16, h17, h18, hnul', hname⟩ := record_reads hbuf' hlen hnul
      have hsize : (UInt8.ofNat (recordLen e.1)).toNat + 256 * (0 : UInt8).toNat =
          recordLen e.1 := by
        rw [UInt8.toNat_ofNat', UInt8.toNat_zero]
        omega
      have hblen : pre.length + recordLen e.1 ≤ buf.length := by
        rw [hbuf']
        simp only [List.length_append, hrl]
        omega
      have hnext := ih (seq + 1) fuel buf (pre ++ entryRecord r disk seq e) post
        (by rw [hbuf']; simp only [List.append_assoc]) (fun d hd => hes d (by simp [hd]))
        (by simp only [List.length_cons] at hf; omega)
      rw [List.length_append, hrl] at hnext
      have htotal : pre.length + (entryRecords r disk seq (e :: es)).flatten.length =
          pre.length + recordLen e.1 + (entryRecords r disk (seq + 1) es).flatten.length := by
        simp only [entryRecords, List.flatten_cons, List.length_append, hrl]
        omega
      have hdt : (decide ((if isDirIno r disk e.2 then (4 : UInt8) else 8) = 4)) =
          isDirIno r disk e.2 := by
        cases isDirIno r disk e.2 <;> decide
      rw [htotal, lsRecords, if_pos (by omega)]
      simp only [h16, h17, h18, Option.bind_eq_bind, Option.bind_some, hsize, hnul']
      rw [if_neg (by omega)]
      have hcount : pre.length + 19 + e.1.length - (pre.length + 19) = e.1.length := by omega
      simp only [hnext, Option.bind_some, hcount, hname, hutf, if_true, hdt, List.map_cons]

/-! ## The listing -/

/-- The answer to one call: the records of at least one further entry, if any is
left. -/
theorem getdents_eq {fs : Fs} {r : MinixFs} (hroot : fs.root = some r) (hr : r.Sized)
    {disk : Disk} {ino : ℕ} {dir : Inode} (hino : r.inode disk ino = pure dir)
    (hdir : dir.isDir) {blocks : ℕ → List UInt8}
    (hst : ∀ i, i * blockSize < dir.size / direntSize * direntSize →
      MinixFs.Stored disk dir i (blocks i)) {pos : ℕ}
    (hlen : pos + 40 < usizeBound) :
    ∃ j, j ≤ ((MinixFs.dirEntries blocks dir.size).drop pos).length ∧
      getdents fs disk ino pos 512 =
        .ok (.ok ((entryRecords r disk (pos + 1)
          (((MinixFs.dirEntries blocks dir.size).drop pos).take j)).flatten, pos + j)) ∧
      ((MinixFs.dirEntries blocks dir.size).drop pos ≠ [] → 0 < j) := by
  obtain ⟨rest, hrest⟩ : ∃ l, l = (MinixFs.dirEntries blocks dir.size).drop pos := ⟨_, rfl⟩
  have hinode : fs.inode disk ino = pure dir := by
    rw [Fs.inode, Fs.withRoot, hroot]
    exact hino
  have hread : fs.readdir disk dir = pure (MinixFs.dirEntries blocks dir.size) := by
    rw [Fs.readdir, Fs.withRoot, hroot]
    exact MinixFs.readdir_eq hdir hst
  obtain ⟨j, hj, hfill, hnext⟩ := fillDirents_eq hroot hr disk (min 512 512) pos (rest.take 32) [] 0
    (by simp only [List.length_take, usizeBound] at *; omega)
  rw [List.take_take] at hfill hnext
  have hj32 : j ≤ 32 ∧ j ≤ rest.length := by
    rw [List.length_take] at hj
    omega
  rw [Nat.min_eq_left hj32.1] at hfill hnext
  refine ⟨j, hrest ▸ hj32.2, ?_, fun hne => ?_⟩
  · unfold getdents
    rw [hinode]
    change (if (!dir.isDir) = true then _ else _) = _
    simp only [hdir, Bool.not_true, Bool.false_eq_true, if_false, hread]
    change (fillDirents fs disk (min 512 512) pos
      (List.take 32 ((MinixFs.dirEntries blocks dir.size).drop pos)) [] 0 >>= _) = _
    rw [← hrest, hfill]
    simp only [List.nil_append, Nat.zero_add, Nat.add_zero, bind, Except.bind, pure, Except.pure]
  · -- a record has at most 80 bytes, so the first one fits
    by_contra h0
    obtain rfl : j = 0 := by omega
    obtain ⟨e, es, hes⟩ : ∃ e es, rest = e :: es := by
      cases rest with
      | nil => exact absurd hrest.symm hne
      | cons e es => exact ⟨e, es, rfl⟩
    have hmem : e ∈ MinixFs.dirEntries blocks dir.size := by
      refine List.mem_of_mem_drop (i := pos) ?_
      rw [← hrest, hes]
      simp
    have hfull := hnext e (es.take 31) (by rw [hes]; rfl)
    have hle := recordLen_le (MinixFs.dirEntries_name hmem).2.2
    simp only [List.take_zero, entryRecords, List.flatten_nil, List.length_nil] at hfull
    omega

/-- From any position on, `ls` prints the entries that are left. -/
theorem cmdLs_from {fs : Fs} {r : MinixFs} (hroot : fs.root = some r) (hr : r.Sized)
    {disk : Disk} {ino : ℕ} {dir : Inode} (hino : r.inode disk ino = pure dir)
    (hdir : dir.isDir) {blocks : ℕ → List UInt8}
    (hst : ∀ i, i * blockSize < dir.size / direntSize * direntSize →
      MinixFs.Stored disk dir i (blocks i)) (fuel : ℕ) :
    ∀ (pos : ℕ) (buf : List UInt8), pos + 40 < usizeBound →
      (MinixFs.dirEntries blocks dir.size).length + 40 < usizeBound →
      (MinixFs.dirEntries blocks dir.size).length - pos < fuel →
      cmdLs fs disk ino fuel pos buf = some (((MinixFs.dirEntries blocks dir.size).drop pos).map
        fun e => (e.1, isDirIno r disk e.2)) := by
  induction fuel with
  | zero => intro pos buf _ _ hf; omega
  | succ fuel ih =>
      intro pos buf hpos hall hf
      obtain ⟨j, hj, hget, hprog⟩ := getdents_eq hroot hr hino hdir hst hpos
      obtain ⟨rest, hrest⟩ : ∃ l, l = (MinixFs.dirEntries blocks dir.size).drop pos := ⟨_, rfl⟩
      rw [← hrest] at hj hget hprog ⊢
      have hrlen : rest.length = (MinixFs.dirEntries blocks dir.size).length - pos := by
        rw [hrest, List.length_drop]
      obtain ⟨out, hout⟩ : ∃ o, o = (entryRecords r disk (pos + 1) (rest.take j)).flatten :=
        ⟨_, rfl⟩
      rw [← hout] at hget
      rw [cmdLs, hget]
      dsimp only
      by_cases hnil : rest = []
      · have hj0 : j = 0 := by
          rw [hnil] at hj
          simpa using hj
        rw [if_pos (by rw [hout, hj0]; rfl), hnil]
        rfl
      · have hj0 := hprog hnil
        have hnames : ∀ e ∈ rest.take j, (∀ b ∈ e.1, b ≠ 0) ∧ utf8Valid e.1 ∧ e.1.length ≤ 60 := by
          intro e he
          have hmem := List.mem_of_mem_take he
          rw [hrest] at hmem
          exact MinixFs.dirEntries_name (List.mem_of_mem_drop hmem)
        have hlong : (rest.take j).length ≤ out.length := hout ▸ entryRecords_long ..
        have hne : out ≠ [] := by
          intro h0
          rw [h0, List.length_take, List.length_nil] at hlong
          omega
        rw [if_neg hne]
        have hrec := lsRecords_eq (rest.take j) (pos + 1) (out.length + 1)
          (out ++ buf.drop out.length) [] (buf.drop out.length) (by rw [← hout]; rfl) hnames
          (by omega)
        rw [← hout, List.length_nil, Nat.zero_add] at hrec
        have hnext := ih (pos + j) (out ++ buf.drop out.length) (by omega) hall (by omega)
        have hdrop : (MinixFs.dirEntries blocks dir.size).drop (pos + j) = rest.drop j := by
          rw [hrest, List.drop_drop]
        rw [hdrop] at hnext
        simp only [hrec, hnext, Option.bind_eq_bind, Option.bind_some]
        rw [← List.map_append, List.take_append_drop]

/-- `ls` of a directory on a readable disk terminates and prints every entry once,
in order, for directories within the 263 blocks that the driver can follow. -/
theorem cmdLs_lists {fs : Fs} {r : MinixFs} (hroot : fs.root = some r) (hr : r.Sized)
    {disk : Disk} (hdisk : ∀ z, ∃ b, disk z = .ok b) {ino : ℕ} {dir : Inode}
    (hino : r.inode disk ino = pure dir) (hdir : dir.isDir)
    (hsize : dir.size / direntSize ≤ 4208) (buf : List UInt8) :
    ∃ n, ∀ fuel, n ≤ fuel → cmdLs fs disk ino fuel 0 buf =
      some ((MinixFs.dirEntries (MinixFs.fileBlocks disk dir) dir.size).map
        fun e => (e.1, isDirIno r disk e.2)) := by
  have hz : dir.zones.length = 10 := MinixFs.inode_zones hr hino
  have hst (i : ℕ) (hi : i * blockSize < dir.size / direntSize * direntSize) :
      MinixFs.Stored disk dir i (MinixFs.fileBlocks disk dir i) := by
    refine MinixFs.stored_of_readable hdisk hz ?_
    simp only [direntSize, blockSize] at *
    omega
  have hcount : (MinixFs.dirEntries (MinixFs.fileBlocks disk dir) dir.size).length ≤ 4208 := by
    refine le_trans (List.length_filterMap_le _ _) ?_
    rwa [List.length_range]
  refine ⟨4209, fun fuel hfuel => ?_⟩
  have h := cmdLs_from hroot hr hino hdir hst fuel 0 buf (by decide)
    (lt_of_le_of_lt (Nat.add_le_add_right hcount 40) (by decide)) (by omega)
  rwa [List.drop_zero] at h

/-! Directories beyond those 263 blocks are refused as a whole. -/

theorem MinixFs.readdirLoop_large {disk : Disk} (hdisk : ∀ z, ∃ b, disk z = .ok b) {dir : Inode}
    (hz : dir.zones.length = 10) (hlarge : 4208 < dir.size / direntSize) (k : ℕ) :
    ∀ n, n + k = 4208 → ∀ fuel, k < fuel → ∃ e,
      MinixFs.readdirLoop disk dir fuel (n * direntSize) = throw e := by
  induction k with
  | zero =>
      intro n hn fuel hf
      obtain ⟨fuel, rfl⟩ : ∃ f, fuel = f + 1 := ⟨fuel - 1, by omega⟩
      obtain rfl : n = 4208 := by omega
      have hsize : ¬ dir.size < 4208 * direntSize + direntSize := by
        simp only [direntSize] at *
        omega
      have hread : MinixFs.readAt disk dir (4208 * direntSize) direntSize =
          throw "minix3: file too large (double-indirect unsupported)" := by
        have hwant : min direntSize (dir.size - 4208 * direntSize) = 63 + 1 := by
          simp only [direntSize] at *
          omega
        rw [MinixFs.readAt, if_neg (by simp only [direntSize] at *; omega), hwant]
        rfl
      refine ⟨"minix3: file too large (double-indirect unsupported)", ?_⟩
      rw [MinixFs.readdirLoop, if_neg hsize, hread]
      rfl
  | succ k ih =>
      intro n hn fuel hf
      obtain ⟨fuel, rfl⟩ : ∃ f, fuel = f + 1 := ⟨fuel - 1, by omega⟩
      obtain ⟨e, he⟩ := ih (n + 1) (by omega) fuel (by omega)
      rw [Nat.add_mul, Nat.one_mul] at he
      have hsize : ¬ dir.size < n * direntSize + direntSize := by
        simp only [direntSize] at *
        omega
      have hread : MinixFs.readAt disk dir (n * direntSize) direntSize = pure (MinixFs.bytesOf
          (MinixFs.fileBlocks disk dir) (n * direntSize) direntSize) := by
        have hmin : min direntSize (dir.size - n * direntSize) = direntSize := by omega
        have h : MinixFs.readAt disk dir (n * direntSize) direntSize = pure (MinixFs.bytesOf
            (MinixFs.fileBlocks disk dir) (n * direntSize)
              (min direntSize (dir.size - n * direntSize))) := by
          refine MinixFs.readAt_eq fun i hi => MinixFs.stored_of_readable hdisk hz ?_
          simp only [direntSize, blockSize] at *
          omega
        rwa [hmin] at h
      refine ⟨e, ?_⟩
      rw [MinixFs.readdirLoop, if_neg hsize, hread, pure_bind,
        if_neg (by rw [MinixFs.bytesOf_length]; omega),
        le32_eq _ (by rw [MinixFs.bytesOf_length]; decide), pure_bind, he]
      rfl

/-- `ls` of a directory that is too large prints nothing. -/
theorem cmdLs_large {fs : Fs} {r : MinixFs} (hroot : fs.root = some r) (hr : r.Sized)
    {disk : Disk} (hdisk : ∀ z, ∃ b, disk z = .ok b) {ino : ℕ} {dir : Inode}
    (hino : r.inode disk ino = pure dir) (hdir : dir.isDir)
    (hlarge : 4208 < dir.size / direntSize) (fuel : ℕ) (buf : List UInt8) :
    cmdLs fs disk ino (fuel + 1) 0 buf = some [] := by
  obtain ⟨e, he⟩ := MinixFs.readdirLoop_large hdisk (MinixFs.inode_zones hr hino) hlarge 4208 0
    rfl (dir.size / direntSize + 1) (by omega)
  rw [Nat.zero_mul] at he
  have hinode : fs.inode disk ino = pure dir := by
    rw [Fs.inode, Fs.withRoot, hroot]
    exact hino
  have hread : fs.readdir disk dir = throw e := by
    rw [Fs.readdir, Fs.withRoot, hroot]
    change MinixFs.readdir disk dir = _
    rw [MinixFs.readdir, if_pos hdir, he]
  have hget : getdents fs disk ino 0 512 = .ok (.error eio) := by
    unfold getdents
    rw [hinode]
    change (if (!dir.isDir) = true then _ else _) = _
    simp only [hdir, Bool.not_true, Bool.false_eq_true, if_false, hread]
    rfl
  rw [cmdLs, hget]

/-- A block that starts with the given bytes. -/
def blockOf (bytes : List UInt8) : Vector UInt8 blockSize :=
  Vector.ofFn fun i => bytes.getD i 0

/-- The inode of a directory of that many bytes, all its blocks in zone 5. -/
def dirInodeBytes (size : ℕ) : List UInt8 :=
  [0xed, 0x41, 2, 0, 0, 0, 0, 0] ++ leBytes 4 size ++ List.replicate 12 0 ++
    (List.replicate 10 [5, 0, 0, 0]).flatten

/-- The inode of an empty file. -/
def fileInodeBytes : List UInt8 := [0xa4, 0x81, 1, 0] ++ List.replicate 60 0

/-- The entries of a block have names of 60 bytes and belong to the inodes 1 and 2 in turn;
the fourth is deleted. -/
def slotIno (i : ℕ) : ℕ := if i = 3 then 0 else 1 + i % 2
def slotName (i : ℕ) : List UInt8 := List.replicate 59 0x61 ++ [UInt8.ofNat (0x61 + i)]
def dirSlot (i : ℕ) : List UInt8 := leBytes 4 (slotIno i) ++ slotName i
def dirBlock : List UInt8 := (List.range 16).flatMap dirSlot

/-- Inode 1 is that directory and inode 2 the file. -/
def dirDisk (size : ℕ) : Disk := fun z =>
  .ok (if z = 4 then blockOf (dirInodeBytes size ++ fileInodeBytes) else blockOf dirBlock)

def dirFs : Fs := ⟨some ⟨1, 1, 2, 16⟩, ⟨[], []⟩⟩

def dirInode (size : ℕ) : Inode := ⟨1, 0o040755, 2, size, List.replicate 10 5⟩

/-- Taking bytes of a block from its front part. -/
theorem blockOf_slice (bytes : List UInt8) {off n : ℕ} (h : off + n ≤ bytes.length)
    (hb : bytes.length ≤ blockSize) :
    ((blockOf bytes).toList.drop off).take n = (bytes.drop off).take n := by
  refine List.ext_getElem ?_ fun j h1 h2 => ?_
  · simp only [List.length_take, List.length_drop, Vector.length_toList]
    omega
  · simp only [List.length_take, List.length_drop] at h2
    simp only [blockOf, List.getElem_take, List.getElem_drop, Vector.getElem_toList,
      Vector.getElem_ofFn]
    rw [List.getD_eq_getElem _ _ (by omega)]

theorem inodeAt_blockOf (ino : ℕ) {bytes : List UInt8} {off : ℕ} (h : off + 64 ≤ bytes.length)
    (hb : bytes.length ≤ blockSize) :
    MinixFs.inodeAt ino (blockOf bytes).toList off = MinixFs.inodeAt ino bytes off := by
  have hs (i n : ℕ) (hn : i + n ≤ off + 64) :
      ((blockOf bytes).toList.drop i).take n = (bytes.drop i).take n :=
    blockOf_slice bytes (by omega) hb
  have hzones : ((List.range 10).map fun i =>
      leValue (((blockOf bytes).toList.drop (off + 24 + i * 4)).take 4)) =
      (List.range 10).map fun i => leValue ((bytes.drop (off + 24 + i * 4)).take 4) := by
    refine List.map_congr_left fun i hi => ?_
    have := List.mem_range.mp hi
    rw [hs _ _ (by omega)]
  rw [MinixFs.inodeAt, MinixFs.inodeAt, hs _ _ (by omega), hs _ _ (by omega), hs _ _ (by omega),
    hzones]

theorem inodeTable_length (size : ℕ) : (dirInodeBytes size ++ fileInodeBytes).length = 128 := by
  simp [dirInodeBytes, fileInodeBytes]

theorem dirInode_loads (size : ℕ)
    (h : MinixFs.inodeAt 1 (dirInodeBytes size ++ fileInodeBytes) 0 = dirInode size) :
    MinixFs.inode ⟨1, 1, 2, 16⟩ (dirDisk size) 1 = pure (dirInode size) := by
  have hlen := inodeTable_length size
  rw [MinixFs.inode_eq ⟨by decide, by decide, by decide⟩, if_neg (by decide)]
  change pure (MinixFs.inodeAt 1 (blockOf (dirInodeBytes size ++ fileInodeBytes)).toList 0) = _
  rw [inodeAt_blockOf 1 (by omega) (by rw [hlen]; decide), h]

/-- Inode 2 is no directory. -/
theorem fileInode_loads : isDirIno ⟨1, 1, 2, 16⟩ (dirDisk 1024) 2 = false := by
  have hlen := inodeTable_length 1024
  have hmode : (MinixFs.inodeAt 2 (dirInodeBytes 1024 ++ fileInodeBytes) 64).isDir = false := by decide
  have hload : MinixFs.inode ⟨1, 1, 2, 16⟩ (dirDisk 1024) 2 = pure (MinixFs.inodeAt 2
      (blockOf (dirInodeBytes 1024 ++ fileInodeBytes)).toList 64) := by
    rw [MinixFs.inode_eq ⟨by decide, by decide, by decide⟩, if_neg (by decide)]
    rfl
  rw [isDirIno, hload, inodeAt_blockOf 2 (by omega) (by rw [hlen]; decide)]
  exact hmode

/-- Pieces of one length lie one after the other. -/
theorem flatMap_piece {f : ℕ → List UInt8} {n : ℕ} (hf : ∀ i, (f i).length = n) {i m : ℕ}
    (hi : i < m) : (((List.range m).flatMap f).drop (i * n)).take n = f i := by
  obtain ⟨j, rfl⟩ : ∃ j, m = i + (j + 1) := ⟨m - i - 1, by omega⟩
  have hlen : ((List.range i).flatMap f).length = i * n := by
    simp [List.length_flatMap, hf]
  rw [List.range_add, List.flatMap_append, List.drop_left' hlen, List.range_succ_eq_map,
    List.map_cons, List.flatMap_cons]
  exact List.take_left' (hf i)

theorem slotName_length (i : ℕ) : (slotName i).length = 60 := by simp [slotName]

theorem dirSlot_length (i : ℕ) : (dirSlot i).length = direntSize := by
  simp [dirSlot, slotName_length, direntSize]

theorem dirBlock_length : dirBlock.length = blockSize := by
  simp only [dirBlock, List.length_flatMap, dirSlot_length]
  rfl

theorem dirSlot_bytes (size : ℕ) {i : ℕ} (hi : i < 16) :
    MinixFs.bytesOf (MinixFs.fileBlocks (dirDisk size) (dirInode size)) (i * direntSize)
      direntSize = dirSlot i := by
  have hfit : i * direntSize + direntSize ≤ blockSize := by
    simp only [direntSize, blockSize]
    omega
  have hlt : i * direntSize < blockSize := by
    simp only [direntSize, blockSize]
    omega
  have hblock : MinixFs.fileBlocks (dirDisk size) (dirInode size) (i * direntSize / blockSize) =
      (blockOf dirBlock).toList := by
    rw [Nat.div_eq_of_lt hlt]
    rfl
  have hmod : i * direntSize % blockSize = i * direntSize := Nat.mod_eq_of_lt hlt
  rw [MinixFs.bytesOf_block (by rw [hblock, Vector.length_toList]) (by rwa [hmod]), hblock, hmod,
    blockOf_slice dirBlock (by rwa [dirBlock_length]) dirBlock_length.le]
  exact flatMap_piece dirSlot_length hi

theorem dirSlot_entry {i : ℕ} (hi : i < 16) : MinixFs.rawEntry (dirSlot i) =
    if i = 3 then none else some (slotName i, 1 + i % 2) := by
  have hlast : ∀ j < 16, UInt8.ofNat (0x61 + j) ≠ 0 ∧ UInt8.ofNat (0x61 + j) < 0x80 := by decide
  have hnum : ∀ j < 16, leValue (leBytes 4 (slotIno j)) = slotIno j := by decide
  have hbytes : ∀ b ∈ slotName i, b ≠ 0 ∧ b < 0x80 := by
    intro b hb
    rcases List.mem_append.mp hb with hb | hb
    · rw [List.eq_of_mem_replicate hb]
      decide
    · rw [List.mem_singleton.mp hb]
      exact hlast i hi
  have hino : leValue ((dirSlot i).take 4) = slotIno i := by
    rw [dirSlot, List.take_left' (leBytes_length _ _)]
    exact hnum i hi
  have hname : ((dirSlot i).drop 4).takeWhile (· ≠ 0) = slotName i := by
    rw [dirSlot, List.drop_left' (leBytes_length _ _)]
    exact List.takeWhile_eq_self_iff.mpr fun b hb => by simpa using (hbytes b hb).1
  rw [MinixFs.rawEntry, hino, hname, utf8Valid_ascii fun b hb => (hbytes b hb).2, slotIno]
  split_ifs <;> simp_all

/-- The entries of one block. -/
theorem dirDisk_entries : MinixFs.dirEntries (MinixFs.fileBlocks (dirDisk 1024) (dirInode 1024))
    (dirInode 1024).size =
      ((List.range 16).filter (· ≠ 3)).map fun i => (slotName i, 1 + i % 2) := by
  have hsize : (dirInode 1024).size / direntSize = 16 := by decide
  rw [MinixFs.dirEntries, hsize, List.filterMap_congr fun i hi => by
    rw [dirSlot_bytes 1024 (List.mem_range.mp hi), dirSlot_entry (List.mem_range.mp hi)]]
  rfl

/-- A directory of one block, whose records take three answers of 512 bytes: `ls` prints the
fifteen entries in order. -/
theorem cmdLs_lists_calls :
    (∃ n, ∀ fuel, n ≤ fuel → cmdLs dirFs (dirDisk 1024) 1 fuel 0 (List.replicate 512 0) =
      some (((List.range 16).filter (· ≠ 3)).map fun i => (slotName i, decide (i % 2 = 0)))) ∧
    2 * 512 < (((List.range 16).filter (· ≠ 3)).map fun i => recordLen (slotName i)).sum := by
  have hload := dirInode_loads 1024 (by decide)
  have hroot : dirFs.root = some ⟨1, 1, 2, 16⟩ := rfl
  have hdisk (z : ℕ) : ∃ b, dirDisk 1024 z = .ok b := ⟨_, rfl⟩
  have hls := cmdLs_lists hroot ⟨by decide, by decide, by decide⟩ hdisk hload (by decide)
    (by decide) (List.replicate 512 0)
  have hdir : isDirIno ⟨1, 1, 2, 16⟩ (dirDisk 1024) 1 = true := by
    rw [isDirIno, hload]
    decide
  have hkind (i : ℕ) : isDirIno ⟨1, 1, 2, 16⟩ (dirDisk 1024) (1 + i % 2) = decide (i % 2 = 0) := by
    rcases Nat.mod_two_eq_zero_or_one i with h | h
    · rw [h, hdir]
      rfl
    · rw [h, fileInode_loads]
      rfl
  have hlen (i : ℕ) : recordLen (slotName i) = 80 := by rw [recordLen, slotName_length]
  constructor
  · rw [dirDisk_entries, List.map_map] at hls
    simpa only [Function.comp_def, hkind] using hls
  · simp only [hlen]
    decide

/-- A directory of 270 KiB on a readable disk: `ls` prints none of its entries. -/
theorem cmdLs_large_directory :
    (∀ z, ∃ b, dirDisk 276480 z = .ok b) ∧
    MinixFs.inode ⟨1, 1, 2, 16⟩ (dirDisk 276480) 1 = pure (dirInode 276480) ∧
    (dirInode 276480).isDir ∧
    ¬ ∃ n, ∀ fuel, n ≤ fuel → cmdLs dirFs (dirDisk 276480) 1 fuel 0 (List.replicate 512 0) =
      some ((MinixFs.dirEntries (MinixFs.fileBlocks (dirDisk 276480) (dirInode 276480))
        (dirInode 276480).size).map fun e =>
          (e.1, isDirIno ⟨1, 1, 2, 16⟩ (dirDisk 276480) e.2)) := by
  have hdisk (z : ℕ) : ∃ b, dirDisk 276480 z = .ok b := ⟨_, rfl⟩
  have hload := dirInode_loads 276480 (by decide)
  refine ⟨hdisk, hload, by decide, fun ⟨n, hn⟩ => ?_⟩
  have hls := hn (n + 1) (by omega)
  rw [cmdLs_large rfl ⟨by decide, by decide, by decide⟩ hdisk hload (by decide) (by decide)] at hls
  have hentry : MinixFs.rawEntry (MinixFs.bytesOf
      (MinixFs.fileBlocks (dirDisk 276480) (dirInode 276480)) (0 * direntSize) direntSize) =
        some (slotName 0, 1) := by
    rw [dirSlot_bytes 276480 (by decide), dirSlot_entry (by decide)]
    rfl
  have hmem : (slotName 0, 1) ∈ MinixFs.dirEntries
      (MinixFs.fileBlocks (dirDisk 276480) (dirInode 276480)) (dirInode 276480).size :=
    List.mem_filterMap.mpr ⟨0, List.mem_range.mpr (by decide), hentry⟩
  rw [List.eq_nil_of_map_eq_nil (Option.some.inj hls).symm] at hmem
  exact absurd hmem (by simp)

end LightOS
