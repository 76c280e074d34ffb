import LightOS.Process

/-!
# System calls

The calls of `kernel/syscall/posix.rs` and their dispatcher. A call returns its
result, or `none` when it has parked the caller and its result will be written
by whoever completes it. The block and network devices answer through `Io`.
Bytes written to the console leave the machine and are not part of the state.
-/
namespace LightOS
open Lib

abbrev enoent : ℤ := -2
abbrev eio : ℤ := -5
abbrev ebadf : ℤ := -9
abbrev eagain : ℤ := -11
abbrev enomem : ℤ := -12
abbrev efault : ℤ := -14
abbrev enotdir : ℤ := -20
abbrev eisdir : ℤ := -21
abbrev einval : ℤ := -22
abbrev enfile : ℤ := -23
abbrev erofs : ℤ := -30
abbrev enosys : ℤ := -38
abbrev emsgsize : ℤ := -90
abbrev eprotonosupport : ℤ := -93
abbrev eaddrinuse : ℤ := -98
abbrev enetunreach : ℤ := -101
abbrev esrch : ℤ := -3

/-- The devices as one system call meets them. -/
structure Io where
  disk : Disk
  net : NetIo

/-- Little-endian bytes of `v`. -/
def leBytes : ℕ → ℕ → List UInt8
  | 0, _ => []
  | n + 1, v => UInt8.ofNat v :: leBytes n (v / 256)

/-- Little-endian value of a byte string. -/
def leValue : List UInt8 → ℕ
  | [] => 0
  | b :: bs => b.toNat + 256 * leValue bs

/-- `p.files.get(fd - 3).copied().flatten()`. -/
def Process.file (p : Process) (fd : ℕ) : Option OpenFile := (p.files[fd - 3]?).join

/-- Advance or replace the position of an open descriptor. -/
def setPos (cur fd pos : ℕ) : KernelM Unit := do
  let p ← procAt cur
  match p.file fd with
  | some f => setProc cur (some { p with files := p.files.set (fd - 3) (some { f with pos := pos }) })
  | none => pure ()

/-- Reuse a closed slot or append. -/
def addFile (files : List (Option OpenFile)) (f : OpenFile) : List (Option OpenFile) × ℕ :=
  match files.findIdx? (·.isNone) with
  | some i => (files.set i (some f), i)
  | none => (files ++ [some f], files.length)

/-! ### Console and devices -/

/-- Writing to the console: the rounds of 256 bytes, in order. -/
def writeConsole (root uva len : ℕ) : KernelM ℤ := do
  let r ← onMachine (Prog.tryEach (fun i => do
    let va ← Prog.ofExcept (checkedAdd uva (256 * i))
    match ← copyIn root va (min 256 (len - 256 * i)) with
    | .error e => return .error e
    | .ok _ => return .ok ()) (List.range ((len + 255) / 256)))
  match r with
  | .ok _ => return toIsize len
  | .error _ => return efault

/-- A power-state name written to `/dev/nceN` requests that transition. -/
def nceWrite (fd uva len : ℕ) : KernelM ℤ := do
  let k ← get
  let p ← procAt k.current
  match p.file fd with
  | none => return ebadf
  | some f =>
    match f.kind with
    | .nce slot =>
      let n := min len 16
      let (rootPa, _) ← currentInfo
      match ← onMachine (copyIn rootPa uva n) with
      | .error _ => return efault
      | .ok text =>
        if !utf8Valid text then return einval
        match PowerState.parse text with
        | none => return einval
        | some state =>
          match Nce.setPower k.nces slot state with
          | .ok nces =>
            modify fun k => { k with nces := nces }
            return n
          | .error _ => return einval
    | _ => return erofs

def sysWrite (tf : TrapFrame) : KernelM ℤ := do
  let fd := toIsize tf.a0
  if fd = 1 ∨ fd = 2 then
    let (rootPa, _) ← currentInfo
    writeConsole rootPa tf.a1 tf.a2
  else if 3 ≤ fd then nceWrite fd.toNat tf.a1 tf.a2
  else return ebadf

/-- Reading `/dev/nceN`. -/
def nceRead (fd slot pos uva len : ℕ) : KernelM ℤ := do
  let k ← get
  match Nce.describe k.nces slot with
  | none => return ebadf
  | some bytes =>
    if bytes.length ≤ pos then return 0
    let n := min len (bytes.length - pos)
    let (rootPa, _) ← currentInfo
    match ← onMachine (copyOut rootPa uva ((bytes.drop pos).take n)) with
    | .error _ => return efault
    | .ok _ =>
      let newPos ← Prog.ofExcept (checkedAdd pos n)
      setPos k.current fd newPos
      return n

/-- The read loop of `file_read`: chunks of at most 512 bytes until the file or
the request ends. Returns the bytes transferred, or the error code. -/
def fileReadLoop (fs : Fs) (disk : Disk) (inode : Inode) (root pos uva : ℕ) :
    ℕ → ℕ → ℕ → MachineM (Except ℤ ℕ)
  | 0, _, done => return .ok done
  | fuel + 1, left, done => do
    if left = 0 then return .ok done
    let n := min 512 left
    let off ← Prog.ofExcept (checkedAdd pos done)
    match ← Prog.ofExcept (fs.readAt disk inode off n).run with
    | .error _ => return .error eio
    | .ok bytes =>
      if bytes = [] then return .ok done
      let va ← Prog.ofExcept (checkedAdd uva done)
      match ← copyOut root va bytes with
      | .error _ => return .error efault
      | .ok _ =>
        if bytes.length < n then return .ok (done + bytes.length)
        else fileReadLoop fs disk inode root pos uva fuel (left - bytes.length) (done + bytes.length)

/-- Read from a file- or device-backed fd. -/
def fileRead (io : Io) (fd uva len : ℕ) : KernelM ℤ := do
  let k ← get
  let p ← procAt k.current
  match p.file fd with
  | none => return ebadf
  | some f =>
    match f.kind with
    | .socket _ _ => return ebadf
    | .nce slot => nceRead fd slot f.pos uva len
    | .file ino =>
      match ← Prog.ofExcept (k.fs.inode io.disk ino).run with
      | .error _ => return ebadf
      | .ok inode =>
        if inode.isDir then return eisdir
        let (rootPa, _) ← currentInfo
        match ← onMachine (fileReadLoop k.fs io.disk inode rootPa f.pos uva (len + 1) len 0) with
        | .error e => return e
        | .ok done =>
          let newPos ← Prog.ofExcept (checkedAdd f.pos done)
          setPos k.current fd newPos
          return done

/-- fd 0 reads the console, blocking when nothing is buffered. -/
def sysRead (io : Io) (tf : TrapFrame) : KernelM (Option ℤ) := do
  let fd := toIsize tf.a0
  if 3 ≤ fd then return some (← fileRead io fd.toNat tf.a1 tf.a2)
  if fd ≠ 0 then return some ebadf
  if tf.a2 = 0 then return some 0
  let k ← get
  let (bytes, rx) := k.rx.readBytes (min tf.a2 128)
  modify fun k => { k with rx := rx }
  if bytes = [] then
    blockOnConsole tf.a1 tf.a2
    return none
  let (rootPa, _) ← currentInfo
  match ← onMachine (copyOut rootPa tf.a1 bytes) with
  | .error _ => return some efault
  | .ok _ => return some bytes.length

/-! ### Descriptors -/

abbrev oDirectory : ℕ := 0o200000

/-- `str::parse::<usize>()`: an optional `+`, then digits that fit. -/
def parseUsize (s : List UInt8) : Option ℕ :=
  let digits := match s with
    | 0x2b :: rest => rest
    | _ => s
  if digits ≠ [] ∧ digits.all (fun d => 0x30 ≤ d && d ≤ 0x39) then
    let v := digits.foldl (fun acc d => acc * 10 + (d.toNat - 0x30)) 0
    if v < usizeBound then some v else none
  else none

/-- What an openat path refers to, or the error code. -/
def openKind (k : Kernel) (disk : Disk) (path : List UInt8) (flags : ℕ) :
    Except Fault (Except ℤ FdKind) := do
  let pre := asciiBytes "/dev/nce"
  if pre.isPrefixOf path then
    match parseUsize (path.drop pre.length) with
    | none => return .error enoent
    | some slot =>
      if k.nces.length ≤ slot then return .error enoent
      if flags &&& oDirectory ≠ 0 then return .error enotdir
      return .ok (.nce slot)
  else
    match ← (k.fs.lookup disk path).run with
    | .ok (some inode) =>
      if flags &&& oDirectory ≠ 0 && !inode.isDir then return .error enotdir
      return .ok (.file inode.ino)
    | _ => return .error enoent

def sysOpenat (io : Io) (tf : TrapFrame) : KernelM ℤ := do
  let (rootPa, _) ← currentInfo
  match ← onMachine (copyInCstr rootPa tf.a1 128) with
  | .error _ => return efault
  | .ok path =>
    let k ← get
    match ← Prog.ofExcept (openKind k io.disk path tf.a2) with
    | .error e => return e
    | .ok kind =>
      let p ← procAt k.current
      let (files, idx) := addFile p.files ⟨kind, 0⟩
      setProc k.current (some { p with files := files })
      return (idx + 3 : ℕ)

/-- Closing a socket descriptor frees the socket's slot. -/
def sysClose (tf : TrapFrame) : KernelM ℤ := do
  let fd := toIsize tf.a0
  if fd < 3 then return 0
  let k ← get
  let p ← procAt k.current
  match p.file fd.toNat with
  | none => return ebadf
  | some f =>
    match f.kind with
    | .socket idx _ =>
      modify fun k => { k with net := { k.net with sockets := k.net.sockets.free idx } }
    | _ => pure ()
    setProc k.current (some { p with files := p.files.set (fd.toNat - 3) none })
    return 0

/-- One dirent64 record: header, name, NUL, padded to a multiple of 8. -/
def direntRecord (ino seq reclen dtype : ℕ) (name : List UInt8) : List UInt8 :=
  leBytes 8 ino ++ leBytes 8 seq ++ leBytes 2 reclen ++ [UInt8.ofNat dtype] ++ name ++
    List.replicate (reclen - 19 - name.length) 0

/-- Fill the output buffer from the collected entries: the bytes and how many
entries they take. -/
def fillDirents (fs : Fs) (disk : Disk) (room start : ℕ) :
    List (List UInt8 × ℕ) → List UInt8 → ℕ → Except Fault (List UInt8 × ℕ)
  | [], out, consumed => .ok (out, consumed)
  | (name, ino) :: rest, out, consumed => do
    let reclen := (19 + name.length + 1 + 7) / 8 * 8
    if room < out.length + reclen then return (out, consumed)
    let isDir := match ← (fs.inode disk ino).run with
      | .ok i => i.isDir
      | .error _ => false
    let seq ← checkedAdd start (consumed + 1)
    fillDirents fs disk room start rest
      (out ++ direntRecord ino seq reclen (if isDir then 4 else 8) name) (consumed + 1)

def sysGetdents64 (io : Io) (tf : TrapFrame) : KernelM ℤ := do
  let fd := tf.a0
  if fd < 3 then return ebadf
  let k ← get
  let p ← procAt k.current
  match p.file fd with
  | none => return ebadf
  | some f =>
    match f.kind with
    | .file ino =>
      match ← Prog.ofExcept (k.fs.inode io.disk ino).run with
      | .error _ => return ebadf
      | .ok dir =>
        if !dir.isDir then return enotdir
        match ← Prog.ofExcept (k.fs.readdir io.disk dir).run with
        | .error _ => return eio
        | .ok entries =>
          let (out, consumed) ← Prog.ofExcept (fillDirents k.fs io.disk (min 512 tf.a2) f.pos
            ((entries.drop f.pos).take 32) [] 0)
          let (rootPa, _) ← currentInfo
          let sent ← if out = [] then pure (.ok ()) else onMachine (copyOut rootPa tf.a1 out)
          match sent with
          | .error _ => return efault
          | .ok _ =>
            setPos k.current fd (f.pos + consumed)
            return out.length
    | _ => return enotdir

/-! ### Processes and memory -/

def sysExit (tf : TrapFrame) : KernelM (Option ℤ) := do
  exitCurrent (toI32 tf.a0)
  return none

def sysGetpid : KernelM ℤ := do
  let (_, pid) ← currentInfo
  return toIsize pid

def sysFork (tf : TrapFrame) : KernelM ℤ := forkCurrent tf

def sysExecve (io : Io) (tf : TrapFrame) : KernelM ℤ := do
  let (rootPa, _) ← currentInfo
  match ← onMachine (copyInCstr rootPa tf.a0 128) with
  | .error _ => return efault
  | .ok name => execCurrent io.disk name

def sysWait4 (tf : TrapFrame) : KernelM (Option ℤ) := do
  waitCurrent tf.a1
  return none

/-- The page loop of `sys_mmap`: `none` is the error exit. -/
def mmapPages (root va pages : ℕ) : MachineM (Except Unit Unit) :=
  Prog.tryEach (fun i => do
    match ← pageAlloc 1 with
    | none => return .error ()
    | some frame =>
      match ← PageTable.map root (va + i * pageSize) frame (pteU ||| pteR ||| pteW) with
      | .ok _ => return .ok ()
      | .error _ => return .error ()) (List.range pages)

/-- Anonymous RW mapping at the bump pointer, which moves before any page is
mapped and stays moved on failure. -/
def sysMmap (tf : TrapFrame) : KernelM ℤ := do
  let len := tf.a1
  if len = 0 then return einval
  let pages := pagesOf len
  let k ← get
  let p ← procAt k.current
  let va := p.nextMmap
  let size ← Prog.ofExcept (checkedMul pages pageSize)
  let next ← Prog.ofExcept (checkedAdd va size)
  setProc k.current (some { p with nextMmap := next })
  match ← onMachineFor p.pid (mmapPages p.rootPa va pages) with
  | .ok _ => return toIsize va
  | .error _ => return enomem

/-- The page loop of `sys_munmap`. -/
def munmapPages (root va pages : ℕ) : MachineM Unit :=
  Prog.each (fun i => do
    let page ← Prog.ofExcept (checkedAdd va (i * pageSize))
    match ← PageTable.unmap root page with
    | some pa => pageFree pa 1
    | none => pure ()) (List.range pages)

def sysMunmap (tf : TrapFrame) : KernelM ℤ := do
  let va := tf.a0
  let len := tf.a1
  if va % pageSize ≠ 0 ∨ len = 0 then return einval
  let (rootPa, _) ← currentInfo
  onMachine (munmapPages rootPa va (pagesOf len))
  return 0

def sysSchedSetaffinity (tf : TrapFrame) : KernelM ℤ := do
  if tf.a0 ≠ 0 then return esrch
  let (rootPa, _) ← currentInfo
  match ← onMachine (copyIn rootPa tf.a2 (min tf.a1 8)) with
  | .error _ => return efault
  | .ok bytes =>
    let k ← get
    match ← slotAt k.current with
    | some p =>
      setProc k.current (some { p with nceAffinity := leValue bytes })
      return 0
    | none => return esrch

def sysSchedGetaffinity (tf : TrapFrame) : KernelM ℤ := do
  if tf.a0 ≠ 0 then return esrch
  let k ← get
  let mask := (← slotAt k.current).elim 0 (·.nceAffinity)
  let (rootPa, _) ← currentInfo
  let len := min tf.a1 8
  match ← onMachine (copyOut rootPa tf.a2 ((leBytes 8 mask).take len)) with
  | .error _ => return efault
  | .ok _ => return len

/-- uptime_secs, total_ram, free_ram, procs. -/
def sysSysinfo (tf : TrapFrame) : KernelM ℤ := do
  let k ← get
  let free ← Prog.ofExcept (checkedMul k.machine.pages.freeFrames pageSize)
  let buf := leBytes 8 (k.ticks / 100) ++ leBytes 8 ramSize ++ leBytes 8 free ++
    leBytes 8 (countActive k.procs)
  let (rootPa, _) ← currentInfo
  match ← onMachine (copyOut rootPa tf.a0 buf) with
  | .error _ => return efault
  | .ok _ => return 0

/-- cmd 0 powers off, anything else reboots. -/
def sysReboot (tf : TrapFrame) : KernelM ℤ :=
  Prog.stop (if tf.a0 = 0 then .poweroff else .reboot)

def sysProclist (tf : TrapFrame) : KernelM ℤ := do
  let k ← get
  let bytes ← Prog.ofExcept (listing k.procs)
  let n := min tf.a1 bytes.length
  let (rootPa, _) ← currentInfo
  match ← onMachine (copyOut rootPa tf.a0 (bytes.take n)) with
  | .error _ => return efault
  | .ok _ => return n

/-! ### Sockets -/

abbrev afInet : ℕ := 2
abbrev sockDgram : ℕ := 2

/-- Socket-table index behind an fd. -/
def socketIdx (fd : ℕ) : KernelM (Option ℕ) := do
  if fd < 3 then return none
  let k ← get
  match ← slotAt k.current with
  | none => return none
  | some p =>
    match p.file fd with
    | some ⟨.socket idx _, _⟩ => return some idx
    | _ => return none

def installFd (kind : FdKind) : KernelM ℤ := do
  let k ← get
  match ← slotAt k.current with
  | none => return ebadf
  | some p =>
    let (files, idx) := addFile p.files ⟨kind, 0⟩
    setProc k.current (some { p with files := files })
    return (idx + 3 : ℕ)

def sysSocket (tf : TrapFrame) : KernelM ℤ := do
  if tf.a0 ≠ afInet ∨ tf.a1 % 256 ≠ sockDgram then return eprotonosupport
  let k ← get
  match k.net.sockets.alloc with
  | none => return enfile
  | some (idx, t) =>
    modify fun k => { k with net := { k.net with sockets := t } }
    installFd (.socket idx k.net.sockets.nextSerial)

/-- `u16::from_be_bytes([sa[2], sa[3]])`. -/
def sockPort (sa : List UInt8) : ℕ := (sa.getD 2 0).toNat * 256 + (sa.getD 3 0).toNat

def socketBind (idx port : ℕ) : KernelM (Option ℕ) := do
  let k ← get
  let (r, t) := k.net.sockets.bind idx port
  set { k with net := { k.net with sockets := t } }
  return r

def sysBind (tf : TrapFrame) : KernelM ℤ := do
  match ← socketIdx tf.a0 with
  | none => return ebadf
  | some idx =>
    if tf.a2 < 8 then return einval
    let (rootPa, _) ← currentInfo
    match ← onMachine (copyIn rootPa tf.a1 8) with
    | .error _ => return efault
    | .ok sa =>
      match ← socketBind idx (sockPort sa) with
      | some _ => return 0
      | none => return eaddrinuse

/-- The source port of a socket, bound to an ephemeral one on first use. -/
def autoBind (idx : ℕ) : KernelM (Option ℕ) := do
  let srcPort := (← get).net.sockets.localPort idx
  if srcPort = 0 then socketBind idx 0 else return some srcPort

def sysSendto (io : Io) (tf : TrapFrame) : KernelM ℤ := do
  match ← socketIdx tf.a0 with
  | none => return ebadf
  | some idx =>
    if tf.a5 < 8 then return einval
    if 1472 < tf.a2 then return emsgsize
    let (rootPa, _) ← currentInfo
    match ← onMachine (copyIn rootPa tf.a4 8) with
    | .error _ => return efault
    | .ok sa =>
      match ← autoBind idx with
      | none => return eaddrinuse
      | some srcPort =>
        match ← onMachine (copyIn rootPa tf.a1 tf.a2) with
        | .error _ => return efault
        | .ok payload =>
          match ← onNet (sendUdp io.net ((sa.drop 4).take 4) (sockPort sa) srcPort payload) with
          | .ok _ => return tf.a2
          | .error _ => return enetunreach

/-- sockaddr_in of a datagram's sender. -/
def sockaddrOf (d : Datagram) : List UInt8 :=
  [UInt8.ofNat afInet, 0] ++ be16 d.srcPort ++ d.srcIp ++ List.replicate 8 0

def sysRecvfrom (io : Io) (tf : TrapFrame) : KernelM ℤ := do
  match ← socketIdx tf.a0 with
  | none => return ebadf
  | some idx =>
    match ← onNet (pollRecv io.net idx 4000 0) with
    | none => return eagain
    | some d =>
      let (rootPa, _) ← currentInfo
      let n := min tf.a2 d.data.length
      match ← onMachine (copyOut rootPa tf.a1 (d.data.take n)) with
      | .error _ => return efault
      | .ok _ =>
        if tf.a4 ≠ 0 then
          let _ ← onMachine (copyOut rootPa tf.a4 (sockaddrOf d))
        return n

/-! ### Dispatch -/

/-- The numbered system calls (Linux riscv64 ABI). -/
inductive Sysno where
  | openat | close | getdents64 | read | write | exit | schedSetaffinity | schedGetaffinity
  | reboot | getpid | sysinfo | socket | bind | sendto | recvfrom | munmap | clone | execve
  | mmap | wait4 | proclist | unknown
  deriving DecidableEq, Repr

def Sysno.ofNr (nr : ℕ) : Sysno :=
  match nr with
  | 56 => openat
  | 57 => close
  | 61 => getdents64
  | 63 => read
  | 64 => write
  | 93 => exit
  | 122 => schedSetaffinity
  | 123 => schedGetaffinity
  | 142 => reboot
  | 172 => getpid
  | 179 => sysinfo
  | 198 => socket
  | 200 => bind
  | 206 => sendto
  | 207 => recvfrom
  | 215 => munmap
  | 220 => clone
  | 221 => execve
  | 222 => mmap
  | 260 => wait4
  | 500 => proclist
  | _ => unknown

/-- The call itself: its result, or `none` if it parked the caller. -/
def syscall (io : Io) (tf : TrapFrame) : Sysno → KernelM (Option ℤ)
  | .write => some <$> sysWrite tf
  | .read => sysRead io tf
  | .openat => some <$> sysOpenat io tf
  | .close => some <$> sysClose tf
  | .getdents64 => some <$> sysGetdents64 io tf
  | .schedSetaffinity => some <$> sysSchedSetaffinity tf
  | .schedGetaffinity => some <$> sysSchedGetaffinity tf
  | .exit => sysExit tf
  | .getpid => some <$> sysGetpid
  | .clone => some <$> sysFork tf
  | .execve => some <$> sysExecve io tf
  | .wait4 => sysWait4 tf
  | .mmap => some <$> sysMmap tf
  | .munmap => some <$> sysMunmap tf
  | .sysinfo => some <$> sysSysinfo tf
  | .reboot => some <$> sysReboot tf
  | .proclist => some <$> sysProclist tf
  | .socket => some <$> sysSocket tf
  | .bind => some <$> sysBind tf
  | .sendto => some <$> sysSendto io tf
  | .recvfrom => some <$> sysRecvfrom io tf
  | .unknown => return some enosys

/-- Handle the system call in the current process's frame. A result goes to a0
and the caller resumes; a successful execve has replaced the frame by then. -/
def dispatch (io : Io) : KernelM Unit := do
  let k ← get
  let tf := k.frames k.current
  match ← syscall io tf (Sysno.ofNr tf.a7) with
  | some ret =>
    setFrame k.current (((← get).frames k.current).setA0 (ofIsize ret))
    resumeCurrent
  | none => pure ()

end LightOS
