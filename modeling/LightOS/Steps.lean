import LightOS.Moves

/-!
# Every step is a sequence of moves

The system calls, the trap paths and the idle loop, read one after the other
against the list of moves.
-/
namespace LightOS
open Lib

/-! ### The network stack allocates no socket -/

/-- Whatever the program does, the same sockets stay allocated. -/
def Keeps {α : Type} (x : NetM α) : Prop :=
  ∀ s, Prog.Wp x s (fun _ s' => s.sockets.SameAlloc s'.sockets) fun _ => True

namespace Keeps

variable {α β : Type}

theorem pure (a : α) : Keeps (Pure.pure a) := fun _ => Prog.wp_pure.mpr (.refl _)

theorem get : Keeps (MonadState.get : NetM NetState) := fun _ => Prog.wp_get.mpr (.refl _)

theorem modifies {f : NetState → NetState}
    (h : ∀ s : NetState, s.sockets.SameAlloc (f s).sockets) : Keeps (modify f) := fun s =>
  Prog.wp_modify.mpr (h s)

theorem setIface (i : Option Iface) :
    Keeps (modify fun s : NetState => { s with iface := i }) := modifies fun _ => .refl _

theorem ofExcept (x : Except Fault α) : Keeps (Prog.ofExcept x : NetM α) := by
  intro s
  rw [Prog.wp_ofExcept]
  cases x with
  | ok a => exact .refl _
  | error e => trivial

theorem bind {x : NetM α} {f : α → NetM β} (hx : Keeps x) (hf : ∀ a, Keeps (f a)) :
    Keeps (x >>= f) := fun s =>
  (hx s).bind fun a t ht => (hf a t).mono (fun _ _ h => ht.trans h) fun _ h => h

theorem each {f : β → NetM PUnit} (hf : ∀ b, Keeps (f b)) (l : List β) :
    Keeps (Prog.each f l) := by
  induction l with
  | nil => exact Keeps.pure _
  | cons b l ih => exact (hf b).bind fun _ => ih

end Keeps

theorem nextIdent_keeps : Keeps nextIdent := by
  intro s
  unfold nextIdent
  rw [Prog.wp_bind, Prog.wp_get, Prog.wp_bind, Prog.wp_set, Prog.wp_pure]
  exact .refl _

theorem handleArp_keeps (iface : Iface) (payload : List UInt8) : Keeps (handleArp iface payload) := by
  unfold handleArp
  refine (Keeps.ofExcept _).bind fun o => ?_
  cases o with
  | none => exact Keeps.pure _
  | some a =>
    refine (Keeps.setIface _).bind fun _ => ?_
    split_ifs
    · exact Keeps.pure _
    · exact (Keeps.setIface _).bind fun _ => Keeps.pure _
    · exact Keeps.pure _
    · exact Keeps.pure _

theorem handleIcmp_keeps (iface : Iface) (ethSrc : List UInt8) (pkt : Ipv4.Packet) :
    Keeps (handleIcmp iface ethSrc pkt) := by
  unfold handleIcmp
  refine (Keeps.ofExcept _).bind fun o => ?_
  cases o with
  | none => exact Keeps.pure _
  | some msg =>
    dsimp only
    split_ifs
    · exact (Keeps.ofExcept _).bind fun _ => nextIdent_keeps.bind fun _ =>
        (Keeps.ofExcept _).bind fun _ => Keeps.pure _
    · exact (Keeps.ofExcept _).bind fun _ => (Keeps.setIface _).bind fun _ =>
        Keeps.pure _
    · exact Keeps.pure _
    · exact Keeps.pure _

theorem handleUdp_keeps (pkt : Ipv4.Packet) : Keeps (handleUdp pkt) := by
  unfold handleUdp
  refine (Keeps.ofExcept _).bind fun o => ?_
  cases o with
  | none => exact Keeps.pure _
  | some d => exact (Keeps.modifies fun s => SocketTable.deliver_sameAlloc _ _ _).bind fun _ =>
      Keeps.pure _

theorem handleFrame_keeps (frame : List UInt8) : Keeps (handleFrame frame) := by
  unfold handleFrame
  refine (Keeps.ofExcept _).bind fun o => ?_
  cases o with
  | none => exact Keeps.pure _
  | some eth =>
    refine Keeps.get.bind fun s => ?_
    cases s.iface with
    | none => exact Keeps.pure _
    | some iface =>
      dsimp only
      split_ifs
      · exact handleArp_keeps _ _
      · refine (Keeps.ofExcept _).bind fun o => ?_
        cases o with
        | none => exact Keeps.pure _
        | some pkt =>
          dsimp only
          split_ifs
          · exact Keeps.pure _
          · exact handleIcmp_keeps _ _ _
          · exact handleUdp_keeps _
          · exact Keeps.pure _
      · exact Keeps.pure _

theorem driverSend_keeps (io : NetIo) (frame : List UInt8) : Keeps (driverSend io frame) := by
  unfold driverSend
  by_cases h : bufSize - netHdrLen < frame.length
  · rw [if_pos h]
    exact Keeps.pure _
  · rw [if_neg h]
    exact (Keeps.modifies (f := fun s => { s with transmitted := s.transmitted ++ [frame] })
      fun _ => .refl _).bind fun _ => Keeps.pure _

theorem poll_keeps (io : NetIo) (i : ℕ) : Keeps (poll io i) := by
  refine Keeps.each (fun f => (handleFrame_keeps f).bind fun o => ?_) _
  cases o with
  | none => exact Keeps.pure _
  | some reply => exact (driverSend_keeps _ _).bind fun _ => Keeps.pure _

theorem sendUdp_keeps (io : NetIo) (dstIp : List UInt8) (dstPort srcPort : ℕ)
    (payload : List UInt8) : Keeps (sendUdp io dstIp dstPort srcPort payload) := by
  unfold sendUdp
  refine Keeps.get.bind fun s => ?_
  cases s.iface with
  | none => exact Keeps.pure _
  | some iface =>
    dsimp only
    cases iface.gatewayMac with
    | none => exact Keeps.pure _
    | some gwMac => exact (Keeps.ofExcept _).bind fun _ => nextIdent_keeps.bind fun _ =>
        (Keeps.ofExcept _).bind fun _ => driverSend_keeps _ _

theorem pollRecv_keeps (io : NetIo) (idx left i : ℕ) : Keeps (pollRecv io idx left i) := by
  induction left generalizing i with
  | zero => exact Keeps.pure _
  | succ left ih =>
    rw [pollRecv]
    refine (poll_keeps io i).bind fun _ s => ?_
    rw [Prog.wp_bind, Prog.wp_get]
    have hrecv := SocketTable.recv_sameAlloc s.sockets idx
    rcases hr : s.sockets.recv idx with ⟨o, st⟩
    rw [hr] at hrecv
    cases o with
    | none => exact ih (i + 1) s
    | some d =>
      rw [Prog.wp_bind, Prog.wp_set, Prog.wp_pure]
      exact hrecv

/-! ### System calls that stay with their caller -/

section Calls

variable {e : Event} {k0 k k' : Kernel} {t : UserTrap} {io : Io}

theorem currentInfo_ok {r : ℕ × ℕ} : currentInfo k = .ok (r, k') ↔
    ∃ p, k.current < maxProcs ∧ k.procs.slots k.current = some p ∧ r = (p.rootPa, p.pid) ∧ k' = k := by
  unfold currentInfo
  rw [Prog.get_bind_ok, Prog.bind_ok]
  constructor
  · rintro ⟨p, k1, h1, h2⟩
    obtain ⟨hi, hp, rfl⟩ := procAt_ok.mp h1
    obtain ⟨rfl, rfl⟩ := Prod.mk.inj (Prog.pure_ok.mp h2)
    exact ⟨p, hi, hp, rfl, rfl⟩
  · rintro ⟨p, hi, hp, rfl, rfl⟩
    exact ⟨p, _, procAt_ok.mpr ⟨hi, hp, rfl⟩, rfl⟩

theorem Moves.quiet (h : Quiet k k') : Moves e k0 k k' := .single (.quiet h)

theorem Quiet.net {n : NetState} (h : k.net.sockets.SameAlloc n.sockets) :
    Quiet k { k with net := n } := ⟨rfl, rfl, rfl, rfl, rfl, h, rfl, rfl, rfl⟩

/-- From `k`, where the caller is still the current process, the program makes
moves only and the caller stays current. -/
def Serves {α : Type} (e : Event) (k0 k : Kernel) (x : KernelM α) : Prop :=
  k.current = k0.current →
    Prog.Wp x k (fun _ k' => Moves e k0 k k' ∧ k'.current = k0.current) fun _ => True

namespace Serves

variable {α β : Type}

theorem pure (a : α) : Serves e k0 k (Pure.pure a) := fun hc => Prog.wp_pure.mpr ⟨.refl, hc⟩

theorem stop (f : Fault) : Serves e k0 k (Prog.stop f : KernelM α) := fun _ =>
  Prog.wp_stop.mpr trivial

theorem bind {x : KernelM α} {f : α → KernelM β} (hx : Serves e k0 k x)
    (hf : ∀ a k1, x k = .ok (a, k1) → Serves e k0 k1 (f a)) : Serves e k0 k (x >>= f) := by
  intro hc
  have h1 : Prog.Wp x k (fun a k1 => x k = .ok (a, k1)) fun _ => True := .of_returns fun _ _ h => h
  refine h1.bind fun a k1 h => ?_
  obtain ⟨hm, hc1⟩ := (hx hc).ok h
  exact (hf a k1 h hc1).mono (fun _ _ h2 => ⟨hm.trans h2.1, h2.2⟩) fun _ h2 => h2

/-- The first part only looks. -/
theorem read {x : KernelM α} {f : α → KernelM β}
    (hx : ∀ a k1, x k = .ok (a, k1) → k1 = k ∧ Serves e k0 k (f a)) :
    Serves e k0 k (x >>= f) := by
  refine bind (fun hc => ?_) fun a k1 h => ?_
  · refine .of_returns fun a k1 h => ?_
    obtain rfl := (hx a k1 h).1
    exact ⟨.refl, hc⟩
  · obtain ⟨rfl, hs⟩ := hx a k1 h
    exact hs

theorem get {f : Kernel → KernelM β} (hf : Serves e k0 k (f k)) :
    Serves e k0 k (MonadState.get >>= f) :=
  read fun a k1 h => by
    obtain ⟨rfl, rfl⟩ := Prod.mk.inj (Prog.get_ok.mp h)
    exact ⟨rfl, hf⟩

theorem ofExcept {x : Except Fault α} {f : α → KernelM β}
    (hf : ∀ a, x = .ok a → Serves e k0 k (f a)) : Serves e k0 k (Prog.ofExcept x >>= f) :=
  read fun a k1 h => by
    obtain ⟨hx, rfl⟩ := Prog.ofExcept_ok.mp h
    exact ⟨rfl, hf a hx⟩

theorem slotAt {i : ℕ} {f : Option Process → KernelM β}
    (hf : Serves e k0 k (f (k.procs.slots i))) : Serves e k0 k (LightOS.slotAt i >>= f) :=
  read fun a k1 h => by
    obtain ⟨-, rfl, rfl⟩ := slotAt_ok.mp h
    exact ⟨rfl, hf⟩

theorem procAt {i : ℕ} {f : Process → KernelM β}
    (hf : ∀ p, k.procs.slots i = some p → Serves e k0 k (f p)) :
    Serves e k0 k (LightOS.procAt i >>= f) :=
  read fun a k1 h => by
    obtain ⟨-, hp, rfl⟩ := procAt_ok.mp h
    exact ⟨rfl, hf a hp⟩

theorem currentInfo {f : ℕ × ℕ → KernelM β}
    (hf : ∀ p, k.procs.slots k.current = some p → Serves e k0 k (f (p.rootPa, p.pid))) :
    Serves e k0 k (LightOS.currentInfo >>= f) :=
  read fun a k1 h => by
    obtain ⟨p, -, hp, rfl, rfl⟩ := currentInfo_ok.mp h
    exact ⟨rfl, hf p hp⟩

/-- A memory operation that only looks. -/
theorem look {x : MachineM α} {f : α → KernelM β}
    (hx : ∀ {m m' : Machine} {a : α}, x m = .ok (a, m') → m' = m)
    (hf : ∀ a, x k.machine = .ok (a, k.machine) → Serves e k0 k (f a)) :
    Serves e k0 k (onMachine x >>= f) :=
  read fun a k1 h => by
    obtain ⟨m, h1, rfl⟩ := onMachine_ok.mp h
    obtain rfl := hx h1
    exact ⟨rfl, hf a h1⟩

theorem copyOut {p : Process} {uva : ℕ} {bs : List UInt8} {f : Except String Unit → KernelM β}
    (hp : k.procs.slots k.current = some p)
    (hf : ∀ r m, Serves e k0 { k with machine := m } (f r)) :
    Serves e k0 k (onMachine (LightOS.copyOut p.rootPa uva bs) >>= f) := by
  refine bind (fun hc => .of_returns fun a k1 h => ?_) fun a k1 h => ?_
  · obtain ⟨m, h1, rfl⟩ := onMachine_ok.mp h
    exact ⟨.single (.memory hc hp (.copyOut h1)), hc⟩
  · obtain ⟨m, -, rfl⟩ := onMachine_ok.mp h
    exact hf a m

theorem net {x : NetM α} {f : α → KernelM β} (hx : Keeps x)
    (hf : ∀ a n, Serves e k0 { k with net := n } (f a)) : Serves e k0 k (onNet x >>= f) := by
  refine bind (fun hc => .of_returns fun a k1 h => ?_) fun a k1 h => ?_
  · obtain ⟨n, h1, rfl⟩ := onNet_ok.mp h
    exact ⟨.quiet (.net ((hx k.net).ok h1)), hc⟩
  · obtain ⟨n, -, rfl⟩ := onNet_ok.mp h
    exact hf a n

theorem quiet {g : Kernel → Kernel} (hg : Quiet k (g k)) : Serves e k0 k (modify g) := fun hc =>
  Prog.wp_modify.mpr ⟨.quiet hg, hg.current.trans hc⟩

/-- The caller's own fields change. -/
theorem own {p p' : Process} (hp : k.procs.slots k.current = some p) (h : OwnFields p p') :
    Serves e k0 k (setProc k.current (some p')) := fun hc =>
  Prog.wp_modify.mpr ⟨.single (.own hc hp h), hc⟩

end Serves

/-- Descriptors with another position keep their socket. -/
theorem OwnFields.files {p : Process} {fs : List (Option OpenFile)}
    (h : ∀ i, { p with files := fs }.sock i = p.sock i) : OwnFields p { p with files := fs } :=
  ⟨rfl, h, fun ha => ha, le_rfl⟩

theorem sock_set {p : Process} {j : ℕ} {o : Option OpenFile} (i : ℕ) :
    { p with files := p.files.set j o }.sock i =
      if i = j ∧ j < p.files.length then sockOf o else p.sock i := by
  unfold Process.sock
  rw [List.getElem?_set]
  by_cases h : j = i
  · subst h
    by_cases hl : j < p.files.length
    · simp [hl]
    · simp [hl]
  · have h' : ¬ (i = j ∧ j < p.files.length) := by omega
    simp [h, h']

theorem setPos_serves {fd pos : ℕ} : Serves e k0 k (setPos k.current fd pos) := by
  unfold setPos
  refine .procAt fun p hp => ?_
  cases hf : p.file fd with
  | none => exact .pure _
  | some f =>
    refine .own hp (.files fun i => ?_)
    rw [sock_set]
    split_ifs with hi
    · obtain ⟨rfl, hl⟩ := hi
      unfold Process.file at hf
      rw [Process.sock, hf]
      obtain ⟨kind, pos'⟩ := f
      cases kind <;> rfl
    · rfl

theorem addFile_sock {p : Process} {f : OpenFile} (hf : ∀ idx serial, f.kind ≠ .socket idx serial)
    (i : ℕ) : { p with files := (addFile p.files f).1 }.sock i = p.sock i := by
  have hnone : sockOf (some f) = none := by
    obtain ⟨kind, pos⟩ := f
    cases kind with
    | socket idx serial => exact absurd rfl (hf idx serial)
    | file ino => rfl
    | nce slot => rfl
  unfold addFile
  cases hx : p.files.findIdx? (·.isNone) with
  | some j =>
    obtain ⟨hj, hnj, -⟩ := List.findIdx?_eq_some_iff_getElem.mp hx
    simp only
    rw [sock_set]
    split_ifs with hi
    · rw [hnone, hi.1]
      have he : p.files[j]? = some none := by
        rw [List.getElem?_eq_getElem hj]
        simpa using hnj
      simp [Process.sock, he, sockOf]
    · rfl
  | none =>
    unfold Process.sock
    by_cases hi : i < p.files.length
    · rw [List.getElem?_append_left hi]
    · have hout : p.files[i]? = none := List.getElem?_eq_none (by omega)
      rw [List.getElem?_append_right (by omega), hout]
      by_cases h0 : i - p.files.length = 0
      · rw [h0]
        exact hnone
      · have hsing : [some f][i - p.files.length]? = none := List.getElem?_eq_none (by simp; omega)
        rw [hsing]

theorem tryEach_read {β γ : Type} {f : β → MachineM (Except γ PUnit)}
    (hf : ∀ b {m m' : Machine} {r : Except γ PUnit}, f b m = .ok (r, m') → m' = m) (l : List β)
    {m m' : Machine} {r : Except γ PUnit} (h : Prog.tryEach f l m = .ok (r, m')) : m' = m := by
  induction l with
  | nil => exact Prog.pure_state h
  | cons b l ih =>
    rw [Prog.tryEach] at h
    obtain ⟨r1, m1, h1, h2⟩ := Prog.bind_ok.mp h
    obtain rfl := hf b h1
    cases r1 with
    | ok u => exact ih h2
    | error c => exact Prog.pure_state h2

theorem writeConsole_serves {root uva len : ℕ} : Serves e k0 k (writeConsole root uva len) := by
  unfold writeConsole
  refine .look (fun h => ?_) fun r _ => ?_
  · refine tryEach_read (fun i m m' r hr => ?_) _ h
    obtain ⟨va, m1, h1, h2⟩ := Prog.bind_ok.mp hr
    obtain ⟨-, rfl⟩ := Prog.ofExcept_ok.mp h1
    obtain ⟨res, m2, h3, h4⟩ := Prog.bind_ok.mp h2
    obtain rfl := copyIn_read h3
    cases res <;> exact Prog.pure_state h4
  · cases r <;> exact .pure _

theorem nceWrite_serves {fd uva len : ℕ} : Serves e k0 k (nceWrite fd uva len) := by
  unfold nceWrite
  refine .get (.procAt fun p hp => ?_)
  cases p.file fd with
  | none => exact .pure _
  | some f =>
    obtain ⟨kind, pos⟩ := f
    cases kind with
    | file ino => exact .pure _
    | socket idx serial => exact .pure _
    | nce slot =>
      refine .currentInfo fun q hq => .look copyIn_read fun r _ => ?_
      cases r with
      | error err => exact .pure _
      | ok text =>
        dsimp only
        split_ifs
        · exact .pure _
        · cases PowerState.parse text with
          | none => exact .pure _
          | some state =>
            dsimp only
            cases Nce.setPower k.nces slot state with
            | error err => exact .pure _
            | ok nces =>
              exact .bind (.quiet ⟨rfl, rfl, rfl, rfl, rfl, .refl _, rfl, rfl, rfl⟩) fun _ _ _ => .pure _

theorem sysWrite_serves {tf : TrapFrame} : Serves e k0 k (sysWrite tf) := by
  unfold sysWrite
  dsimp only
  split_ifs
  · exact .currentInfo fun _ _ => writeConsole_serves
  · exact nceWrite_serves
  · exact .pure _

theorem nceRead_serves {fd slot pos uva len : ℕ} :
    Serves e k0 k (nceRead fd slot pos uva len) := by
  unfold nceRead
  refine .get ?_
  cases Nce.describe k.nces slot with
  | none => exact .pure _
  | some bytes =>
    dsimp only
    split_ifs
    · exact .pure _
    · refine .currentInfo fun p hp => .copyOut hp fun r m => ?_
      cases r with
      | error err => exact .pure _
      | ok u => exact .ofExcept fun pos' _ => .bind setPos_serves fun _ _ _ => .pure _

/-- Every round of the read loop is a copy into the caller. -/
theorem fileReadLoop_serves {fs : Fs} {disk : Disk} {inode : Inode} {p : Process}
    {pos uva fuel left done : ℕ} (hp : k.procs.slots k.current = some p) :
    Serves e k0 k (onMachine (fileReadLoop fs disk inode p.rootPa pos uva fuel left done)) := by
  intro hc
  refine .of_returns fun r k1 hrun => ?_
  obtain ⟨m, h, rfl⟩ := onMachine_ok.mp hrun
  refine ⟨?_, hc⟩
  clear hrun
  induction fuel generalizing k left done with
  | zero =>
    obtain rfl := Prog.pure_state h
    exact .refl
  | succ fuel ih =>
    rw [fileReadLoop] at h
    split_ifs at h
    · obtain rfl := Prog.pure_state h
      exact .refl
    · obtain ⟨off, m1, h1, h⟩ := Prog.bind_ok.mp h
      obtain ⟨-, rfl⟩ := Prog.ofExcept_ok.mp h1
      obtain ⟨res, m2, h2, h⟩ := Prog.bind_ok.mp h
      obtain ⟨-, rfl⟩ := Prog.ofExcept_ok.mp h2
      cases res with
      | error err =>
        obtain rfl := Prog.pure_state h
        exact .refl
      | ok bytes =>
        dsimp only at h
        by_cases hb : bytes = []
        · rw [if_pos hb] at h
          obtain rfl := Prog.pure_state h
          exact .refl
        · rw [if_neg hb] at h
          obtain ⟨va, m3, h3, h⟩ := Prog.bind_ok.mp h
          obtain ⟨-, rfl⟩ := Prog.ofExcept_ok.mp h3
          obtain ⟨res, m4, h4, h⟩ := Prog.bind_ok.mp h
          have hmove : Move e k0 k { k with machine := m4 } := .memory hc hp (.copyOut h4)
          cases res with
          | error err =>
            obtain rfl := Prog.pure_state h
            exact .single hmove
          | ok u =>
            dsimp only at h
            split_ifs at h
            · obtain rfl := Prog.pure_state h
              exact .single hmove
            · exact .head hmove (ih (k := { k with machine := m4 }) hp hc h)

theorem fileRead_serves {fd uva len : ℕ} : Serves e k0 k (fileRead io fd uva len) := by
  unfold fileRead
  refine .get (.procAt fun p hp => ?_)
  cases p.file fd with
  | none => exact .pure _
  | some f =>
    obtain ⟨kind, pos⟩ := f
    cases kind with
    | socket idx serial => exact .pure _
    | nce slot => exact nceRead_serves
    | file ino =>
      refine .ofExcept fun r _ => ?_
      cases r with
      | error err => exact .pure _
      | ok inode =>
        dsimp only
        split_ifs
        · exact .pure _
        · refine .currentInfo fun q hq => .bind (fileReadLoop_serves hq) fun r k1 h => ?_
          obtain ⟨m, -, rfl⟩ := onMachine_ok.mp h
          cases r with
          | error err => exact .pure _
          | ok n => exact .ofExcept fun pos' _ => .bind setPos_serves fun _ _ _ => .pure _

theorem openKind_not_socket {disk : Disk} {path : List UInt8} {flags : ℕ} {kind : FdKind}
    (h : openKind k disk path flags = .ok (.ok kind)) (idx serial : ℕ) :
    kind ≠ .socket idx serial := by
  rintro rfl
  unfold openKind at h
  dsimp only at h
  by_cases hp : (asciiBytes "/dev/nce").isPrefixOf path = true
  · rw [if_pos hp] at h
    split at h
    · simp [pure, Except.pure] at h
    · split_ifs at h <;> simp [pure, Except.pure] at h
  · rw [if_neg hp] at h
    generalize ExceptT.run (k.fs.lookup disk path) = r at h
    rcases r with f | (err | _ | inode)
    · cases h
    · cases h
    · cases h
    · change (if _ then _ else _) = _ at h
      split_ifs at h <;> cases h

theorem sysOpenat_serves {tf : TrapFrame} : Serves e k0 k (sysOpenat io tf) := by
  unfold sysOpenat
  refine .currentInfo fun p hp => .look copyInCstr_read fun r _ => ?_
  cases r with
  | error err => exact .pure _
  | ok path =>
    refine .get (.ofExcept fun r hr => ?_)
    cases r with
    | error err => exact .pure _
    | ok kind =>
      refine .procAt fun q hq => .bind (.own hq (.files fun i => ?_)) fun _ _ _ => .pure _
      exact addFile_sock (openKind_not_socket hr) i

theorem sysGetdents64_serves {tf : TrapFrame} : Serves e k0 k (sysGetdents64 io tf) := by
  unfold sysGetdents64
  dsimp only
  split_ifs with h3
  · exact .pure _
  refine .get (.procAt fun p hp => ?_)
  cases p.file tf.a0 with
  | none => exact .pure _
  | some f =>
    obtain ⟨kind, pos⟩ := f
    cases kind with
    | socket idx serial => exact .pure _
    | nce slot => exact .pure _
    | file ino =>
      refine .ofExcept fun r _ => ?_
      cases r with
      | error err => exact .pure _
      | ok dir =>
        dsimp only
        split_ifs
        · exact .pure _
        · refine .ofExcept fun r _ => ?_
          cases r with
          | error err => exact .pure _
          | ok entries =>
            refine .ofExcept fun r _ => .currentInfo fun q hq => ?_
            obtain ⟨out, consumed⟩ := r
            dsimp only
            by_cases ho : out = []
            · rw [if_pos ho]
              refine .read fun a k1 h => ?_
              obtain ⟨rfl, rfl⟩ := Prod.mk.inj (Prog.pure_ok.mp h)
              exact ⟨rfl, .bind setPos_serves fun _ _ _ => .pure _⟩
            · rw [if_neg ho]
              refine .copyOut hq fun r m => ?_
              cases r with
              | error err => exact .pure _
              | ok u => exact .bind setPos_serves fun _ _ _ => .pure _

theorem sysSchedSetaffinity_serves {tf : TrapFrame} : Serves e k0 k (sysSchedSetaffinity tf) := by
  unfold sysSchedSetaffinity
  split_ifs
  · exact .pure _
  refine .currentInfo fun p hp => .look copyIn_read fun r _ => ?_
  cases r with
  | error err => exact .pure _
  | ok bytes =>
    refine .get (.slotAt ?_)
    rw [hp]
    exact .bind (.own hp ⟨rfl, fun _ => rfl, fun ha => ha, le_rfl⟩) fun _ _ _ => .pure _

theorem sysSchedGetaffinity_serves {tf : TrapFrame} : Serves e k0 k (sysSchedGetaffinity tf) := by
  unfold sysSchedGetaffinity
  split_ifs
  · exact .pure _
  refine .get (.slotAt (.currentInfo fun p hp => .copyOut hp fun r m => ?_))
  cases r <;> exact .pure _

theorem sysSysinfo_serves {tf : TrapFrame} : Serves e k0 k (sysSysinfo tf) := by
  unfold sysSysinfo
  refine .get (.ofExcept fun free _ => .currentInfo fun p hp => .copyOut hp fun r m => ?_)
  cases r <;> exact .pure _

theorem sysProclist_serves {tf : TrapFrame} : Serves e k0 k (sysProclist tf) := by
  unfold sysProclist
  refine .get (.ofExcept fun bytes _ => .currentInfo fun p hp => .copyOut hp fun r m => ?_)
  cases r <;> exact .pure _

theorem sysGetpid_serves : Serves e k0 k sysGetpid := by
  unfold sysGetpid
  exact .currentInfo fun _ _ => .pure _

theorem socketIdx_bind {β : Type} {fd : ℕ} {f : Option ℕ → KernelM β}
    (hf : ∀ o, Serves e k0 k (f o)) : Serves e k0 k (socketIdx fd >>= f) := by
  refine .read fun a k1 h => ⟨?_, hf a⟩
  unfold socketIdx at h
  by_cases h3 : fd < 3
  · rw [if_pos h3] at h
    exact Prog.pure_state h
  · rw [if_neg h3, Prog.get_bind_ok] at h
    obtain ⟨o, k2, h1, h2⟩ := Prog.bind_ok.mp h
    obtain ⟨-, rfl, rfl⟩ := slotAt_ok.mp h1
    revert h2
    cases k2.procs.slots k2.current with
    | none => exact Prog.pure_state
    | some p =>
      dsimp only
      rcases p.file fd with _ | ⟨kind, pos⟩
      · exact Prog.pure_state
      · cases kind <;> exact Prog.pure_state

theorem sysSocket_serves {tf : TrapFrame} {p : Process} (hp : k.procs.slots k.current = some p) :
    Serves e k0 k (sysSocket tf) := by
  unfold sysSocket
  split_ifs
  · exact .pure _
  refine .get ?_
  cases ha : k.net.sockets.alloc with
  | none => exact .pure _
  | some r =>
    obtain ⟨idx, st⟩ := r
    dsimp only
    -- allocating and installing are one move
    intro hc
    refine .of_returns fun r k2 h => ?_
    obtain ⟨_, k1, h1, h2⟩ := Prog.bind_ok.mp h
    obtain rfl := Prog.modify_ok.mp h1
    unfold installFd at h2
    rw [Prog.get_bind_ok] at h2
    obtain ⟨o, k1, h3, h4⟩ := Prog.bind_ok.mp h2
    obtain ⟨-, rfl, rfl⟩ := slotAt_ok.mp h3
    dsimp only at h4
    rw [hp] at h4
    obtain ⟨_, k1, h5, h6⟩ := Prog.bind_ok.mp h4
    obtain rfl := setProc_ok.mp h5
    obtain rfl := Prog.pure_state h6
    exact ⟨.single (.socket hc hp ha), hc⟩

/-- With no current process nothing is installed. -/
theorem sysSocket_vacant {tf : TrapFrame} {r : ℤ} (hp : k.procs.slots k.current = none)
    (h : sysSocket tf k = .ok (r, k')) : k'.procs = k.procs ∧ k'.current = k.current := by
  unfold sysSocket at h
  split_ifs at h
  · rw [Prog.pure_state h]
    exact ⟨rfl, rfl⟩
  rw [Prog.get_bind_ok] at h
  cases ha : k.net.sockets.alloc with
  | none =>
    rw [ha] at h
    rw [Prog.pure_state h]
    exact ⟨rfl, rfl⟩
  | some r =>
    rw [ha] at h
    obtain ⟨_, k1, h1, h2⟩ := Prog.bind_ok.mp h
    obtain rfl := Prog.modify_ok.mp h1
    unfold installFd at h2
    rw [Prog.get_bind_ok] at h2
    obtain ⟨o, k1, h3, h4⟩ := Prog.bind_ok.mp h2
    obtain ⟨-, rfl, rfl⟩ := slotAt_ok.mp h3
    dsimp only at h4
    rw [hp] at h4
    rw [Prog.pure_state h4]
    exact ⟨rfl, rfl⟩

theorem socketBind_serves {idx port : ℕ} : Serves e k0 k (socketBind idx port) := by
  intro hc
  unfold socketBind
  rw [Prog.wp_bind, Prog.wp_get, Prog.wp_bind, Prog.wp_set, Prog.wp_pure]
  exact ⟨.quiet (.net (SocketTable.bind_sameAlloc _ _ _)), hc⟩

theorem sysBind_serves {tf : TrapFrame} : Serves e k0 k (sysBind tf) := by
  unfold sysBind
  refine socketIdx_bind fun o => ?_
  cases o with
  | none => exact .pure _
  | some idx =>
    dsimp only
    split_ifs
    · exact .pure _
    · refine .currentInfo fun p hp => .look copyIn_read fun r _ => ?_
      cases r with
      | error err => exact .pure _
      | ok sa =>
        refine .bind socketBind_serves fun r _ _ => ?_
        cases r <;> exact .pure _

theorem autoBind_serves {idx : ℕ} : Serves e k0 k (autoBind idx) := by
  unfold autoBind
  refine .get ?_
  dsimp only
  split_ifs
  · exact socketBind_serves
  · exact .pure _

theorem sysSendto_serves {tf : TrapFrame} : Serves e k0 k (sysSendto io tf) := by
  unfold sysSendto
  refine socketIdx_bind fun o => ?_
  cases o with
  | none => exact .pure _
  | some idx =>
    dsimp only
    split_ifs
    · exact .pure _
    · exact .pure _
    · refine .currentInfo fun p hp => .look copyIn_read fun r _ => ?_
      cases r with
      | error err => exact .pure _
      | ok sa =>
        refine .bind autoBind_serves fun r k1 _ => ?_
        cases r with
        | none => exact .pure _
        | some srcPort =>
          refine .look copyIn_read fun r _ => ?_
          cases r with
          | error err => exact .pure _
          | ok payload =>
            refine .net (sendUdp_keeps _ _ _ _ _) fun r _ => ?_
            cases r <;> exact .pure _

theorem sysRecvfrom_serves {tf : TrapFrame} : Serves e k0 k (sysRecvfrom io tf) := by
  unfold sysRecvfrom
  refine socketIdx_bind fun o => ?_
  cases o with
  | none => exact .pure _
  | some idx =>
    refine .net (pollRecv_keeps _ _ _ _) fun r n => ?_
    cases r with
    | none => exact .pure _
    | some d =>
      refine .currentInfo fun p hp => .copyOut hp fun r m => ?_
      cases r with
      | error err => exact .pure _
      | ok u =>
        dsimp only
        split_ifs
        · exact .copyOut hp fun _ _ => .pure _
        · exact .pure _

/-! ### System calls that act on processes and memory -/

/-- On entry to the dispatcher the frame of the caller is the trap's. -/
theorem trapState_frame : (trapState t k0).frames k0.current = trapFrame t (k0.frames k0.current) := by
  simp [trapState, Kernel.withFrame]

theorem trapFrame_reg (hc : t.cause = .ecall io) (tf : TrapFrame) {i : Fin 32} (hi : i ≠ 0) :
    (trapFrame t tf).reg i = t.arg i := by
  simp [trapFrame, hc, saveFrame, TrapFrame.reg, UserTrap.arg, hi]

variable {tf : TrapFrame}

theorem sysClose_serves (hc : Call e t io .close) (ha : tf.a0 = t.arg 10) :
    Serves e k0 (trapState t k0) (sysClose tf) := by
  unfold sysClose
  dsimp only
  split_ifs with h3
  · exact .pure _
  refine .get (.procAt fun p hp => ?_)
  obtain ⟨fd, hfd⟩ : ∃ fd : ℕ, toIsize tf.a0 = fd := ⟨(toIsize tf.a0).toNat, by omega⟩
  rw [hfd, Int.toNat_natCast]
  rcases hf : p.file fd with _ | ⟨kind, pos⟩
  · exact .pure _
  have hsock : ∀ {kind : FdKind}, p.file fd = some ⟨kind, pos⟩ →
      p.sock (fd - 3) = sockOf (some ⟨kind, pos⟩) := by
    intro kind h
    rw [Process.sock, ← h]
    rfl
  have hown : (∀ idx serial, kind ≠ .socket idx serial) →
      OwnFields p { p with files := p.files.set (fd - 3) none } := by
    intro hk
    refine .files fun i => ?_
    rw [sock_set]
    split_ifs with hi
    · rw [hi.1, hsock hf]
      cases kind with
      | file ino => rfl
      | nce slot => rfl
      | socket idx serial => exact absurd rfl (hk idx serial)
    · rfl
  cases kind with
  | file ino =>
    exact .bind (.own hp (hown (by simp))) fun _ _ _ => .pure _
  | nce slot =>
    exact .bind (.own hp (hown (by simp))) fun _ _ _ => .pure _
  | socket idx serial =>
    intro hcur
    rw [Prog.wp_bind, Prog.wp_modify, Prog.wp_bind]
    refine .of_returns fun _ k1 h => ?_
    obtain rfl := setProc_ok.mp h
    rw [Prog.wp_pure]
    exact ⟨.single (.close hc (ha ▸ hfd) (by omega) hp hf), hcur⟩

theorem sysMmap_serves (hc : Call e t io .mmap) (ha : tf.a1 = t.arg 11) :
    Serves e k0 (trapState t k0) (sysMmap tf) := by
  unfold sysMmap
  dsimp only
  rw [ha]
  split_ifs with h0
  · exact .pure _
  refine .get (.procAt fun p hp => .ofExcept fun size hsize => .ofExcept fun next hnext => ?_)
  obtain ⟨-, rfl⟩ := checkedMul_ok.mp hsize
  obtain ⟨hlt, rfl⟩ := checkedAdd_ok.mp hnext
  have hal : p.nextMmap % pageSize = 0 →
      (p.nextMmap + pagesOf (t.arg 11) * pageSize) % pageSize = 0 := by
    intro h
    rw [Nat.add_mul_mod_self_right, h]
  refine .bind (.own hp ⟨rfl, fun _ => rfl, hal, Nat.le_add_right _ _⟩) fun _ k1 h1 => ?_
  obtain rfl := setProc_ok.mp h1
  refine .bind (fun hcur => .of_returns fun r k2 h2 => ?_) fun r k2 h2 => ?_
  · obtain ⟨m, h3, rfl⟩ := onMachineFor_ok.mp h2
    exact ⟨.single (.memory hcur (Kernel.setSlot_self _ _) (.mmap hc h0 hp rfl hlt h3)), hcur⟩
  · cases r <;> exact .pure _

theorem sysMunmap_serves (hc : Call e t io .munmap) (ha0 : tf.a0 = t.arg 10)
    (ha1 : tf.a1 = t.arg 11) : Serves e k0 (trapState t k0) (sysMunmap tf) := by
  unfold sysMunmap
  dsimp only
  rw [ha0, ha1]
  split_ifs with h0
  · exact .pure _
  refine .currentInfo fun p hp => .bind (fun hcur => .of_returns fun _ k1 h1 => ?_) fun _ _ _ =>
    .pure _
  obtain ⟨m, h2, rfl⟩ := onMachine_ok.mp h1
  obtain ⟨hva, hlen⟩ := not_or.mp h0
  exact ⟨.single (.memory hcur hp (.munmap hc (not_not.mp hva) hlen h2)), hcur⟩

theorem sysFork_serves (hc : Call e t io .clone)
    (ha : tf = (trapState t k0).frames k0.current) :
    Serves e k0 (trapState t k0) (sysFork tf) := by
  unfold sysFork forkCurrent
  refine .get ?_
  dsimp only
  cases hslot : (trapState t k0).procs.position (·.isNone) with
  | none => exact .pure _
  | some slot =>
    refine .procAt fun p hp hcur => .of_returns fun r k1 hrun => ?_
    obtain ⟨o, k2, h1, hrun⟩ := Prog.bind_ok.mp hrun
    obtain ⟨m1, hroot, rfl⟩ := onMachineFor_ok.mp h1
    cases o with
    | none =>
      obtain rfl := Prog.pure_state hrun
      exact ⟨.single (.memory hcur hp (.forkNone hc hroot)), hcur⟩
    | some root =>
      obtain ⟨res, k2, h2, hrun⟩ := Prog.bind_ok.mp hrun
      obtain ⟨m2, hclone, rfl⟩ := onMachine_ok.mp h2
      cases res with
      | error err =>
        obtain ⟨_, k2, h3, hrun⟩ := Prog.bind_ok.mp hrun
        obtain ⟨m3, hfree, rfl⟩ := onMachine_ok.mp h3
        obtain ⟨_, k2, h4, hrun⟩ := Prog.bind_ok.mp hrun
        obtain ⟨m4, hdrop, rfl⟩ := onMachine_ok.mp h4
        obtain rfl := Prog.pure_state hrun
        exact ⟨.single (.memory hcur hp (.forkUndo hc hroot hclone hfree hdrop)), hcur⟩
      | ok u =>
        obtain ⟨next, k2, h3, hrun⟩ := Prog.bind_ok.mp hrun
        obtain ⟨hadd, rfl⟩ := Prog.ofExcept_ok.mp h3
        obtain ⟨hpid, rfl⟩ := checkedAdd_ok.mp hadd
        obtain ⟨_, k2, h4, hrun⟩ := Prog.bind_ok.mp hrun
        obtain rfl := Prog.modify_ok.mp h4
        obtain ⟨_, k2, h5, hrun⟩ := Prog.bind_ok.mp hrun
        obtain rfl := setFrame_ok.mp h5
        obtain ⟨_, k2, h6, hrun⟩ := Prog.bind_ok.mp hrun
        obtain rfl := setProc_ok.mp h6
        obtain ⟨_, k2, h7, hrun⟩ := Prog.bind_ok.mp hrun
        obtain rfl := record_ok.mp h7
        obtain rfl := Prog.pure_state hrun
        subst ha
        exact ⟨.single (.fork hc hslot hp hroot hclone hpid), hcur⟩

theorem sysExecve_serves (hc : Call e t io .execve) (ha : tf.a0 = t.arg 10) :
    Serves e k0 (trapState t k0) (sysExecve io tf) := by
  unfold sysExecve
  refine .currentInfo fun p hp => .look copyInCstr_read fun r hname => ?_
  rw [ha] at hname
  cases r with
  | error err => exact .pure _
  | ok name =>
    unfold execCurrent
    refine .get (.ofExcept fun o himage => ?_)
    cases o with
    | none => exact .pure _
    | some image =>
      refine .get (.procAt fun q hq hcur => .of_returns fun r k1 hrun => ?_)
      obtain rfl := Option.some.inj (hp.symm.trans hq)
      obtain ⟨res, k2, h1, hrun⟩ := Prog.bind_ok.mp hrun
      obtain ⟨m1, hbuild, rfl⟩ := onMachineFor_ok.mp h1
      cases res with
      | error err =>
        obtain rfl := Prog.pure_state hrun
        exact ⟨.single (.memory hcur hp (.execFail hc hname himage hbuild)), hcur⟩
      | ok u =>
        obtain ⟨newRoot, entry, brk⟩ := u
        obtain ⟨q', k2, h2, hrun⟩ := Prog.bind_ok.mp hrun
        obtain ⟨-, hq', rfl⟩ := procAt_ok.mp h2
        obtain rfl := Option.some.inj (hp.symm.trans hq')
        obtain ⟨_, k2, h3, hrun⟩ := Prog.bind_ok.mp hrun
        obtain ⟨m2, hfree, rfl⟩ := onMachine_ok.mp h3
        obtain ⟨_, k2, h4, hrun⟩ := Prog.bind_ok.mp hrun
        obtain ⟨m3, hdrop, rfl⟩ := onMachine_ok.mp h4
        obtain ⟨_, k2, h5, hrun⟩ := Prog.bind_ok.mp hrun
        obtain rfl := setProc_ok.mp h5
        obtain ⟨_, k2, h6, hrun⟩ := Prog.bind_ok.mp hrun
        obtain rfl := setFrame_ok.mp h6
        obtain rfl := Prog.pure_state hrun
        exact ⟨.single (.exec hc hp hname himage hbuild hfree hdrop), hcur⟩

/-! ### Scheduling and the calls that give up the hart -/

/-- The idle kernel stays idle, as nobody is ready, or enters the process it picks. -/
def Scheduled (k k' : Kernel) : Prop :=
  (k' = k ∧ ∀ slot, ¬ Picked k.procs slot) ∨ ∃ slot p, Picked k.procs slot ∧ k.procs.slots slot = some p ∧ k' = entered slot p k

theorem schedule_ok {u : Unit} (h : schedule k = .ok (u, k')) : Scheduled k k' := by
  unfold schedule at h
  obtain ⟨o, k1, hpick, henter⟩ := Prog.bind_ok.mp h
  unfold pickNext at hpick
  rw [Prog.get_bind_ok] at hpick
  cases hf : (pickOrder k.procs.lastRun).find? fun i => (k.procs.slots i).any (·.state = .ready) with
  | none =>
    rw [hf] at hpick
    obtain ⟨rfl, rfl⟩ := Prod.mk.inj (Prog.pure_ok.mp hpick)
    refine .inl ⟨Prog.pure_state henter, fun slot hs => ?_⟩
    exact Option.some_ne_none slot (hs.symm.trans hf)
  | some slot =>
    rw [hf] at hpick
    dsimp only at hpick
    rw [procAt_bind] at hpick
    obtain ⟨p, -, hp, hpick⟩ := hpick
    rw [setProc_bind, Prog.modify_bind_ok, Prog.pure_ok] at hpick
    obtain ⟨rfl, rfl⟩ := Prod.mk.inj hpick
    dsimp only at henter
    rw [Prog.modify_bind_ok] at henter
    unfold enterUser at henter
    rw [Prog.get_bind_ok] at henter
    obtain rfl := setFrame_ok.mp henter
    exact .inr ⟨slot, p, hf, hp, rfl⟩

theorem Scheduled.moves (h : Scheduled k k') (hc : k.current = noProc) : Moves e k0 k k' := by
  rcases h with ⟨rfl, -⟩ | ⟨slot, p, hf, hp, rfl⟩
  · exact .refl
  · exact .single (.schedule hc hf hp)

theorem park_ok {u : Unit} (h : park k = .ok (u, k')) : Scheduled k.idle k' := by
  unfold park at h
  rw [Prog.modify_bind_ok] at h
  exact schedule_ok h

theorem park_moves {u : Unit} (h : park k = .ok (u, k')) : Moves e k0 k.idle k' :=
  (park_ok h).moves rfl

theorem completeWait_ok {par child : ℕ} {u : Unit} (h : completeWait par child k = .ok (u, k')) :
    ∃ c p m1 m2, Reap par child c p m1 m2 k k' := by
  unfold completeWait at h
  rw [procAt_bind] at h
  obtain ⟨c, -, hchild, h⟩ := h
  rw [procAt_bind] at h
  obtain ⟨p, -, hpar, h⟩ := h
  rw [setProc_bind] at h
  -- what follows the status store
  have rest : ∀ m1, (do
      setFrame par (((← get).frames par).setA0 c.pid)
      onMachine (pageFree c.rootPa 1)
      setProc child none
      record (.reaped p.pid c.pid) : KernelM Unit)
      { k.setSlot par (some { p with state := .ready }) with machine := m1 } = .ok (u, k') →
      ∃ m2, pageFree c.rootPa 1 m1 = .ok ((), m2) ∧
        k' = (((({ k with machine := m2 }.setSlot par (some { p with state := .ready })).withFrame
          par ((k.frames par).setA0 c.pid))).setSlot child none).log (.reaped p.pid c.pid) := by
    intro m1 h
    rw [Prog.get_bind_ok, setFrame_bind, onMachine_bind] at h
    obtain ⟨_, m2, hfree, h⟩ := h
    rw [setProc_bind] at h
    obtain rfl := record_ok.mp h
    exact ⟨m2, hfree, rfl⟩
  dsimp only at h
  by_cases hw : p.waitStatusUva ≠ 0
  · rw [if_pos hw, onMachine_bind] at h
    obtain ⟨r, m1, hcopy, h⟩ := h
    obtain ⟨m2, hfree, rfl⟩ := rest m1 h
    exact ⟨c, p, m1, m2, hchild, hpar, fun h0 => absurd h0 hw, fun _ => ⟨r, hcopy⟩, hfree, rfl⟩
  · rw [if_neg hw] at h
    obtain ⟨m2, hfree, rfl⟩ := rest k.machine h
    exact ⟨c, p, k.machine, m2, hchild, hpar, fun _ => rfl, fun h0 => absurd h0 hw, hfree, rfl⟩

/-- A zombie goes to a parent that waits, else it stays. -/
theorem exitCurrent_ok {code : ℤ} {u : Unit} (h : exitCurrent code k = .ok (u, k')) :
    ∃ p m1 k1, Exit code p m1 k k1 ∧ (¬ ParentWaits k1 p ∧ Scheduled k1.idle k' ∨
      ParentWaits k1 p ∧ ∃ c q m2 m3 k2, Reap p.parent k.current c q m2 m3 k1 k2 ∧
        Scheduled k2.idle k') := by
  unfold exitCurrent at h
  rw [Prog.get_bind_ok] at h
  dsimp only at h
  rw [procAt_bind] at h
  obtain ⟨p, -, hp, h⟩ := h
  by_cases hpid : p.pid = 1
  · rw [if_pos hpid] at h
    obtain ⟨_, k2, h2, -⟩ := Prog.bind_ok.mp h
    exact (Prog.stop_ok.mp h2).elim
  rw [if_neg hpid, onMachine_bind] at h
  obtain ⟨_, m1, hfree, h⟩ := h
  rw [Prog.get_bind_ok, Prog.modify_bind_ok, procAt_bind] at h
  obtain ⟨q, -, hq, h⟩ := h
  obtain rfl : q = adopt k.current (initSlot k.procs) p := by
    have hq' : (k.procs.slots k.current).map (adopt k.current (initSlot k.procs)) = some q := hq
    rw [hp] at hq'
    exact (Option.some.inj hq').symm
  rw [setProc_bind, record_bind] at h
  generalize hk1 : Kernel.log _ _ = k1 at h
  refine ⟨p, m1, k1, ⟨hp, hpid, hfree, hk1.symm⟩, ?_⟩
  by_cases hpar : p.parent ≠ noProc
  · rw [if_pos hpar, slotAt_bind] at h
    obtain ⟨-, h⟩ := h
    cases hs : k1.procs.slots p.parent with
    | none =>
      rw [hs] at h
      refine .inl ⟨?_, park_ok h⟩
      rintro ⟨-, par, h1, -⟩
      exact Option.some_ne_none _ (h1.symm.trans hs)
    | some par =>
      rw [hs] at h
      dsimp only at h
      by_cases hsl : par.state = .sleepChild
      · rw [if_pos hsl] at h
        obtain ⟨_, k2, h1, h2⟩ := Prog.bind_ok.mp h
        obtain ⟨c, q, m2, m3, hr⟩ := completeWait_ok h1
        exact .inr ⟨⟨hpar, par, hs, hsl⟩, c, q, m2, m3, k2, hr, park_ok h2⟩
      · rw [if_neg hsl] at h
        refine .inl ⟨?_, park_ok h⟩
        rintro ⟨-, par', h1, h2⟩
        obtain rfl := Option.some.inj (h1.symm.trans hs)
        exact hsl h2
  · rw [if_neg hpar] at h
    exact .inl ⟨fun hw => hpar hw.1, park_ok h⟩

theorem exitCurrent_moves {code : ℤ} {u : Unit} (he : e = .trap t)
    (hcode : (∃ io, Call e t io .exit ∧ code = toI32 (t.arg 10)) ∨
      ∃ sc, t.cause = .fault sc ∧ code = -1)
    (h : exitCurrent code (trapState t k0) = .ok (u, k')) : Moves e k0 (trapState t k0) k' := by
  obtain ⟨p, m1, k1, hx, ⟨hno, hs⟩ | ⟨hw, c, q, m2, m3, k2, hr, hs⟩⟩ := exitCurrent_ok h
  · exact .head (.exit he hcode hx hno) (hs.moves rfl)
  · exact .head (.exitReap he hcode hx hw hr) (hs.moves rfl)

/-- The three ways out of `waitCurrent`. -/
theorem waitCurrent_ok {uva : ℕ} {u : Unit} (h : waitCurrent uva k = .ok (u, k')) :
    ∃ p, k.procs.slots k.current = some p ∧
      ((∃ child c q m1 m2 k1, (waitScan k.procs k.current).2 = some child ∧
          Reap k.current child c q m1 m2 (k.setSlot k.current (some (asleep p uva))) k1 ∧
          Scheduled k1.idle k') ∨
        waitScan k.procs k.current = (true, none) ∧
          Scheduled (k.setSlot k.current (some (asleep p uva))).idle k' ∨
        waitScan k.procs k.current = (false, none) ∧
          Scheduled (((k.setSlot k.current
            (some { p with waitStatusUva := uva, state := .ready })).withFrame k.current
            ((k.frames k.current).setA0 (ofIsize (-10)))).log (.noChild p.pid)).idle k') := by
  unfold waitCurrent at h
  rw [Prog.get_bind_ok] at h
  dsimp only at h
  rw [procAt_bind] at h
  obtain ⟨p, -, hp, h⟩ := h
  refine ⟨p, hp, ?_⟩
  cases hz : (waitScan k.procs k.current).2 with
  | some child =>
    rw [hz] at h
    dsimp only at h
    rw [setProc_bind] at h
    obtain ⟨_, k2, h1, h2⟩ := Prog.bind_ok.mp h
    obtain ⟨c, q, m1, m2, hr⟩ := completeWait_ok h1
    exact .inl ⟨child, c, q, m1, m2, k2, rfl, hr, park_ok h2⟩
  | none =>
    rw [hz] at h
    dsimp only at h
    cases hch : (waitScan k.procs k.current).1 with
    | true =>
      rw [hch, if_pos rfl, setProc_bind] at h
      exact .inr (.inl ⟨Prod.ext hch hz, park_ok h⟩)
    | false =>
      rw [hch, if_neg Bool.false_ne_true, setProc_bind, setFrame_bind, record_bind] at h
      exact .inr (.inr ⟨Prod.ext hch hz, park_ok h⟩)

theorem waitCurrent_moves {u : Unit} (hc : Call e t io .wait4)
    (h : waitCurrent (t.arg 11) (trapState t k0) = .ok (u, k')) :
    Moves e k0 (trapState t k0) k' := by
  obtain ⟨p, hp, ⟨child, c, q, m1, m2, k1, hz, hr, hs⟩ | ⟨hz, hs⟩ | ⟨hz, hs⟩⟩ := waitCurrent_ok h
  · exact .head (.waitReap hc hp hz hr) (hs.moves rfl)
  · exact .head (.waitBlock hc hp hz) (hs.moves rfl)
  · exact .head (.waitNone hc hp hz) (hs.moves rfl)

/-- The read that blocks, or copies what is buffered. -/
theorem sysRead_moves {r : Option ℤ} (hc : Call e t io .read) (ha1 : tf.a1 = t.arg 11)
    (ha2 : tf.a2 = t.arg 12) (hcur : k.current = k0.current) (h : sysRead io tf k = .ok (r, k')) :
    Moves e k0 k k' ∧ (r.isSome → k'.current = k0.current) := by
  unfold sysRead at h
  dsimp only at h
  split_ifs at h with h1 h2 h3
  · obtain ⟨a, k1, h4, h5⟩ := Prog.bind_ok.mp h
    obtain ⟨hm, hcur'⟩ := (fileRead_serves (e := e) hcur).ok h4
    obtain rfl := Prog.pure_state h5
    exact ⟨hm, fun _ => hcur'⟩
  · obtain rfl := Prog.pure_state h
    exact ⟨.refl, fun _ => hcur⟩
  · obtain rfl := Prog.pure_state h
    exact ⟨.refl, fun _ => hcur⟩
  · rw [Prog.get_bind_ok] at h
    rcases hb : k.rx.readBytes (min tf.a2 128) with ⟨bytes, rx⟩
    rw [hb] at h
    dsimp only at h
    rw [Prog.modify_bind_ok] at h
    have hq : Quiet k { k with rx := rx } := ⟨rfl, rfl, rfl, rfl, rfl, .refl _, rfl, rfl, rfl⟩
    by_cases he : bytes = []
    · rw [if_pos he] at h
      obtain ⟨_, k1, h4, h5⟩ := Prog.bind_ok.mp h
      obtain ⟨rfl, rfl⟩ := Prod.mk.inj (Prog.pure_ok.mp h5)
      unfold blockOnConsole at h4
      rw [Prog.get_bind_ok, procAt_bind] at h4
      obtain ⟨p, -, hp, h4⟩ := h4
      rw [setProc_bind, ha1, ha2] at h4
      refine ⟨.head (.quiet hq) (.head (.block hc hcur hp) (park_moves h4)), ?_⟩
      simp
    · rw [if_neg he] at h
      obtain ⟨hm, hcur'⟩ : Moves e k0 { k with rx := rx } k' ∧ k'.current = k0.current := by
        refine Prog.Wp.ok (Q := fun _ x => Moves e k0 { k with rx := rx } x ∧
          x.current = k0.current) (E := fun _ => True) ?_ h
        refine Serves.currentInfo (fun p hp => .copyOut hp fun r m => ?_) hcur
        cases r <;> exact .pure _
      exact ⟨.head (.quiet hq) hm, fun _ => hcur'⟩

/-! ### The dispatcher and the trap paths -/

theorem Serves.answer {x : KernelM ℤ} {r : Option ℤ} (hx : Serves e k0 k x)
    (hcur : k.current = k0.current) (h : (some <$> x) k = .ok (r, k')) :
    Moves e k0 k k' ∧ (r.isSome → k'.current = k0.current) := by
  obtain ⟨a, k1, h1, h2⟩ := Prog.map_ok.mp h
  obtain ⟨rfl, rfl⟩ := Prod.mk.inj h2
  obtain ⟨hm, hcur'⟩ := (hx hcur).ok h1
  exact ⟨hm, fun _ => hcur'⟩

/-- Every call is a sequence of moves; the caller is still current when there is
a result. Only `sysSocket` does not check that there is a caller. -/
theorem syscall_moves {no : Sysno} {r : Option ℤ} (hc : Call e t io no)
    (hp : no = .socket → ∃ p, k0.procs.slots k0.current = some p)
    (h : syscall io ((trapState t k0).frames k0.current) no (trapState t k0) = .ok (r, k')) :
    Moves e k0 (trapState t k0) k' ∧ (r.isSome → k'.current = k0.current) := by
  have harg : ∀ i : Fin 32, i ≠ 0 → ((trapState t k0).frames k0.current).reg i = t.arg i := by
    intro i hi
    rw [trapState_frame, trapFrame_reg hc.cause _ hi]
  have hcur : (trapState t k0).current = k0.current := rfl
  cases no with
  | write => exact sysWrite_serves.answer hcur h
  | read => exact sysRead_moves hc (harg 11 (by decide)) (harg 12 (by decide)) hcur h
  | openat => exact sysOpenat_serves.answer hcur h
  | close => exact (sysClose_serves hc (harg 10 (by decide))).answer hcur h
  | getdents64 => exact sysGetdents64_serves.answer hcur h
  | schedSetaffinity => exact sysSchedSetaffinity_serves.answer hcur h
  | schedGetaffinity => exact sysSchedGetaffinity_serves.answer hcur h
  | exit =>
    obtain ⟨_, k1, h1, h2⟩ := Prog.bind_ok.mp h
    obtain ⟨rfl, rfl⟩ := Prod.mk.inj (Prog.pure_ok.mp h2)
    have ha : ((trapState t k0).frames k0.current).a0 = t.arg 10 := harg 10 (by decide)
    rw [ha] at h1
    refine ⟨exitCurrent_moves hc.event (.inl ⟨io, hc, rfl⟩) h1, ?_⟩
    simp
  | getpid => exact sysGetpid_serves.answer hcur h
  | clone => exact (sysFork_serves hc rfl).answer hcur h
  | execve => exact (sysExecve_serves hc (harg 10 (by decide))).answer hcur h
  | wait4 =>
    obtain ⟨_, k1, h1, h2⟩ := Prog.bind_ok.mp h
    obtain ⟨rfl, rfl⟩ := Prod.mk.inj (Prog.pure_ok.mp h2)
    have ha : ((trapState t k0).frames k0.current).a1 = t.arg 11 := harg 11 (by decide)
    rw [ha] at h1
    refine ⟨waitCurrent_moves hc h1, ?_⟩
    simp
  | mmap => exact (sysMmap_serves hc (harg 11 (by decide))).answer hcur h
  | munmap =>
    exact (sysMunmap_serves hc (harg 10 (by decide)) (harg 11 (by decide))).answer hcur h
  | sysinfo => exact sysSysinfo_serves.answer hcur h
  | reboot => exact (Serves.stop _).answer hcur h
  | proclist => exact sysProclist_serves.answer hcur h
  | socket =>
    obtain ⟨p, hp⟩ := hp rfl
    exact (sysSocket_serves (k := trapState t k0) hp).answer hcur h
  | bind => exact sysBind_serves.answer hcur h
  | sendto => exact sysSendto_serves.answer hcur h
  | recvfrom => exact sysRecvfrom_serves.answer hcur h
  | unknown =>
    obtain ⟨rfl, rfl⟩ := Prod.mk.inj (Prog.pure_ok.mp h)
    exact ⟨.refl, fun _ => hcur⟩

theorem resumeCurrent_moves {u : Unit} (h : resumeCurrent k = .ok (u, k')) :
    (∃ p, k.procs.slots k.current = some p) ∧ Moves e k0 k k' := by
  unfold resumeCurrent at h
  rw [Prog.get_bind_ok, procAt_bind] at h
  obtain ⟨p, -, hp, h⟩ := h
  unfold enterUser at h
  rw [Prog.get_bind_ok] at h
  obtain rfl := setFrame_ok.mp h
  exact ⟨⟨p, hp⟩, .single (.resume hp)⟩

theorem dispatch_moves {u : Unit} (he : e = .trap t) (hcause : t.cause = .ecall io)
    (h : dispatch io (trapState t k0) = .ok (u, k')) : Moves e k0 (trapState t k0) k' := by
  unfold dispatch at h
  rw [Prog.get_bind_ok] at h
  obtain ⟨r, k1, h1, h2⟩ := Prog.bind_ok.mp h
  have ha7 : ((trapState t k0).frames (trapState t k0).current).a7 = (t.regs 17).toNat :=
    trapState_frame.symm ▸ trapFrame_reg hcause _ (by decide)
  have hc : Call e t io (Sysno.ofNr ((trapState t k0).frames (trapState t k0).current).a7) :=
    ⟨he, hcause, by rw [ha7]⟩
  cases r with
  | none =>
    obtain rfl := Prog.pure_state h2
    refine (syscall_moves hc (fun hs => ?_) h1).1
    rw [hs] at h1
    obtain ⟨_, _, -, ⟨⟩⟩ := Prog.map_ok.mp h1
  | some ret =>
    dsimp only at h2
    rw [Prog.get_bind_ok, setFrame_bind] at h2
    obtain ⟨hocc, hresume⟩ := @resumeCurrent_moves e k0 _ _ _ h2
    -- a vacant slot would still be vacant on the way back to user mode
    have hcaller : Sysno.ofNr ((trapState t k0).frames (trapState t k0).current).a7 = .socket →
        ∃ p, k0.procs.slots k0.current = some p := by
      intro hs
      rw [hs] at h1
      obtain ⟨_, _, h3, h4⟩ := Prog.map_ok.mp h1
      obtain ⟨-, rfl⟩ := Prod.mk.inj h4
      cases ho : k0.procs.slots k0.current with
      | some p => exact ⟨p, rfl⟩
      | none =>
        obtain ⟨hprocs, hcur⟩ := sysSocket_vacant (k := trapState t k0) ho h3
        obtain ⟨p, hp⟩ := hocc
        have hp' : k1.procs.slots k1.current = some p := hcur.symm ▸ hp
        rw [hprocs, hcur] at hp'
        exact absurd (hp'.symm.trans ho) (Option.some_ne_none p)
    obtain ⟨hm, hcur⟩ := syscall_moves hc hcaller h1
    have hcur := hcur rfl
    refine hm.trans (.head ?_ hresume)
    have hmove := @Move.result e k0 _ _ _ _ ret hc hcur
    rw [hcur] at hmove
    exact hmove

theorem timerTick_quiet {u : Unit} (h : timerTick k = .ok (u, k')) : Quiet k k' := by
  unfold timerTick at h
  rw [Prog.get_bind_ok] at h
  obtain ⟨n, k1, h1, h2⟩ := Prog.bind_ok.mp h
  obtain ⟨-, rfl⟩ := Prog.ofExcept_ok.mp h1
  obtain rfl := Prog.set_ok.mp h2
  exact ⟨rfl, rfl, rfl, rfl, rfl, .refl _, rfl, rfl, rfl⟩

theorem wakeConsoleReader_moves {u : Unit} (h : wakeConsoleReader k = .ok (u, k')) :
    Moves e k0 k k' ∧ k'.current = k.current := by
  unfold wakeConsoleReader at h
  rw [Prog.get_bind_ok] at h
  cases hs : k.procs.position fun s => s.any (·.state = .sleepConsole) with
  | none =>
    rw [hs] at h
    obtain rfl := Prog.pure_state h
    exact ⟨.refl, rfl⟩
  | some slot =>
    rw [hs] at h
    dsimp only at h
    rw [procAt_bind] at h
    obtain ⟨p, -, hp, h⟩ := h
    rcases hb : k.rx.readBytes (min p.readLen 128) with ⟨bytes, rx⟩
    rw [hb] at h
    dsimp only at h
    rw [Prog.modify_bind_ok] at h
    by_cases hbytes : bytes = []
    · rw [if_pos hbytes] at h
      obtain rfl := Prog.pure_state h
      exact ⟨.quiet ⟨rfl, rfl, rfl, rfl, rfl, .refl _, rfl, rfl, rfl⟩, rfl⟩
    · rw [if_neg hbytes, onMachine_bind] at h
      obtain ⟨r, m, hcopy, h⟩ := h
      rw [Prog.get_bind_ok, setFrame_bind] at h
      obtain rfl := setProc_ok.mp h
      refine ⟨.single ?_, rfl⟩
      cases r with
      | ok u => exact .wake hs hp hb hcopy
      | error err => exact .wake hs hp hb hcopy

theorem externalInterrupt_moves {irq : ℕ} {input : List UInt8} {u : Unit}
    (h : externalInterrupt irq input k = .ok (u, k')) :
    Moves e k0 k k' ∧ k'.current = k.current := by
  unfold externalInterrupt at h
  split_ifs at h
  · unfold handleInterrupt at h
    rw [Prog.get_bind_ok] at h
    rcases hb : k.rx.receiveAll input with ⟨rx, got⟩
    rw [hb] at h
    dsimp only at h
    obtain ⟨_, k1, h1, h2⟩ := Prog.bind_ok.mp h
    obtain rfl := Prog.set_ok.mp h1
    have hq : Quiet k { k with rx := rx } := ⟨rfl, rfl, rfl, rfl, rfl, .refl _, rfl, rfl, rfl⟩
    cases got with
    | true =>
      obtain ⟨hm, hcur⟩ := @wakeConsoleReader_moves e k0 _ _ _ h2
      exact ⟨.head (.quiet hq) hm, hcur⟩
    | false =>
      obtain rfl := Prog.pure_state h2
      exact ⟨.quiet hq, rfl⟩
  · obtain rfl := Prog.pure_state h
    exact ⟨.refl, rfl⟩

theorem yieldCurrent_moves {u : Unit} (he : e = .trap t) (hc : t.cause = .interrupt .timer)
    (hcur : k.current = k0.current) (h : yieldCurrent k = .ok (u, k')) : Moves e k0 k k' := by
  unfold yieldCurrent at h
  rw [Prog.get_bind_ok] at h
  dsimp only at h
  rw [slotAt_bind] at h
  obtain ⟨-, h⟩ := h
  refine .head (.yield he hc hcur) ?_
  cases hs : k.procs.slots k.current with
  | none =>
    rw [hs] at h
    rw [Option.map_none, ← hs, Kernel.setSlot_same]
    exact park_moves h
  | some p =>
    rw [hs] at h
    dsimp only at h
    rw [Option.map_some]
    split_ifs at h ⊢ with hr
    · rw [setProc_bind] at h
      exact park_moves h
    · rw [← hs, Kernel.setSlot_same]
      exact park_moves h

theorem usertrap_moves {u : Unit} (he : e = .trap t)
    (h : usertrap t.cause (({ k0 with sstatus := t.sstatus } : Kernel).withFrame k0.current
      (saveFrame (k0.frames k0.current) t)) = .ok (u, k')) : Moves e k0 (trapState t k0) k' := by
  have hframe : ∀ {c : Cause}, t.cause = c → (∀ io, c ≠ .ecall io) → trapState t k0 =
      ({ k0 with sstatus := t.sstatus } : Kernel).withFrame k0.current
        (saveFrame (k0.frames k0.current) t) := by
    intro c hc hne
    subst hc
    unfold trapState trapFrame
    split
    · rename_i io hio
      exact absurd hio (hne io)
    · rfl
  cases hc : t.cause with
  | interrupt i =>
    have hs := hframe hc (by simp)
    rw [hc, ← hs] at h
    cases i with
    | timer =>
      obtain ⟨_, k1, h1, h2⟩ := Prog.bind_ok.mp h
      have hq := timerTick_quiet h1
      exact .head (.quiet hq) (yieldCurrent_moves he hc hq.current h2)
    | external irq input =>
      obtain ⟨_, k1, h1, h2⟩ := Prog.bind_ok.mp h
      exact (externalInterrupt_moves h1).1.trans (resumeCurrent_moves h2).2
    | other code => exact (resumeCurrent_moves h).2
  | ecall io =>
    rw [hc] at h
    unfold usertrap at h
    rw [Prog.get_bind_ok] at h
    obtain ⟨sepc, k1, h1, h2⟩ := Prog.bind_ok.mp h
    obtain ⟨hadd, rfl⟩ := Prog.ofExcept_ok.mp h1
    obtain ⟨-, rfl⟩ := checkedAdd_ok.mp hadd
    rw [setFrame_bind] at h2
    refine dispatch_moves (u := u) he hc (Eq.trans ?_ h2)
    congr 1
    unfold trapState trapFrame
    rw [hc]
    exact (Kernel.withFrame_twice
      (f := fun tf => { tf with sepc := UInt64.ofNat (tf.sepc.toNat + 4) })).symm
  | fault sc =>
    have hs := hframe hc (by simp)
    rw [hc, ← hs] at h
    obtain ⟨_, k1, h1, h2⟩ := Prog.bind_ok.mp h
    obtain ⟨p, -, -, -, rfl⟩ := currentInfo_ok.mp h1
    exact exitCurrent_moves he (.inr ⟨sc, hc, rfl⟩) h2

theorem spawn_ok {disk : Disk} {name : List UInt8} {r : Except String ℕ}
    (h : spawn disk name k = .ok (r, k')) : k' = k ∨ ∃ image,
      k.fs.loadProgram disk name = .ok (some image) ∧ ∃ res m,
      buildAddressSpace image { k.machine with account := k.procs.nextPid } = .ok (res, m) ∧
      (k' = { k with machine := m } ∨ ∃ q entry brk slot, res = .ok (q, entry, brk) ∧
        k.procs.position (·.isNone) = some slot ∧ k.procs.nextPid + 1 < usizeBound ∧
        k' = spawnState k name slot q entry brk m) := by
  unfold spawn at h
  rw [Prog.get_bind_ok] at h
  obtain ⟨o, k1, h1, h2⟩ := Prog.bind_ok.mp h
  obtain ⟨himage, rfl⟩ := Prog.ofExcept_ok.mp h1
  cases o with
  | none => exact .inl (Prog.pure_state h2)
  | some image =>
    dsimp only at h2
    rw [Prog.get_bind_ok] at h2
    obtain ⟨res, k2, h3, h4⟩ := Prog.bind_ok.mp h2
    obtain ⟨m, hbuild, rfl⟩ := onMachineFor_ok.mp h3
    refine .inr ⟨image, himage, res, m, hbuild, ?_⟩
    cases res with
    | error err => exact .inl (Prog.pure_state h4)
    | ok u =>
      obtain ⟨q, entry, brk⟩ := u
      dsimp only at h4
      rw [Prog.get_bind_ok] at h4
      dsimp only at h4
      cases hslot : k1.procs.position (·.isNone) with
      | none =>
        rw [hslot] at h4
        exact .inl (Prog.pure_state h4)
      | some slot =>
        rw [hslot] at h4
        dsimp only at h4
        obtain ⟨next, k2, h5, h6⟩ := Prog.bind_ok.mp h4
        obtain ⟨hadd, rfl⟩ := Prog.ofExcept_ok.mp h5
        obtain ⟨hpid, rfl⟩ := checkedAdd_ok.mp hadd
        rw [Prog.modify_bind_ok, setFrame_bind, setProc_bind] at h6
        exact .inr ⟨q, entry, brk, slot, rfl, rfl, hpid, Prog.pure_state h6⟩

theorem spawn_moves {disk : Disk} {name : List UInt8} {r : Except String ℕ}
    (he : e = .spawn disk name) (hc : k0.current = noProc) (h : spawn disk name k0 = .ok (r, k')) :
    Moves e k0 k0 k' := by
  obtain rfl | ⟨image, himage, res, m, hbuild, rfl | ⟨q, entry, brk, slot, rfl, hslot, hpid, rfl⟩⟩ :=
    spawn_ok h
  · exact .refl
  · exact .single (.spawnFail he hc himage hbuild)
  · exact .single (.spawn he hc himage hbuild hslot hpid)

theorem heapGrow_moves {size align : ℕ} {u : Unit} (he : e = .heapGrow size align)
    (h : heapGrow size align k0 = .ok (u, k')) : Moves e k0 k0 k' := by
  unfold heapGrow at h
  obtain ⟨o, k1, h1, h2⟩ := Prog.bind_ok.mp h
  obtain ⟨m, halloc, rfl⟩ := onMachineFor_ok.mp h1
  cases o with
  | none => exact (Prog.stop_ok.mp h2).elim
  | some addr =>
    obtain rfl := Prog.modify_ok.mp h2
    exact .single (.heapGrow he halloc)

/-- Every step is a sequence of moves. -/
theorem step_moves {u : Unit} (h : step e k = .ok (u, k')) : Moves e k k k' := by
  unfold step at h
  rw [Prog.get_bind_ok] at h
  cases e with
  | idle i =>
    dsimp only at h
    split_ifs at h with hc
    · cases i with
      | none => exact (schedule_ok h).moves hc
      | some i =>
        obtain ⟨_, k1, h1, h2⟩ := Prog.bind_ok.mp h
        cases i with
        | timer =>
          have hq := timerTick_quiet h1
          exact .head (.quiet hq) ((schedule_ok h2).moves (hq.current.trans hc))
        | external irq input =>
          obtain ⟨hm, hcur⟩ := @externalInterrupt_moves
            (.idle (some (.external irq input))) k _ _ _ _ _ h1
          exact hm.trans ((schedule_ok h2).moves (hcur.trans hc))
        | other code =>
          obtain rfl := Prog.pure_state h1
          exact (schedule_ok h2).moves hc
    · obtain rfl := Prog.pure_state h
      exact .refl
  | store va b =>
    dsimp only at h
    split_ifs at h with hc
    · obtain rfl := Prog.pure_state h
      exact .refl
    · rw [procAt_bind] at h
      obtain ⟨p, -, hp, h⟩ := h
      cases hw : userWritable k.machine p.rootPa va with
      | none =>
        rw [hw] at h
        obtain rfl := Prog.pure_state h
        exact .refl
      | some pa =>
        rw [hw] at h
        obtain ⟨m, hm, rfl⟩ := onMachine_ok.mp h
        obtain rfl := Prog.modify_ok.mp hm
        exact .single (.store rfl hp hw)
  | trap t =>
    dsimp only at h
    split_ifs at h with hc
    · obtain rfl := Prog.pure_state h
      exact .refl
    · obtain ⟨_, k1, h1, h2⟩ := Prog.bind_ok.mp h
      unfold userVec at h1
      rw [Prog.get_bind_ok] at h1
      obtain ⟨_, k2, h3, h4⟩ := Prog.bind_ok.mp h1
      obtain rfl := Prog.set_ok.mp h3
      obtain rfl := setFrame_ok.mp h4
      exact .head (.trap rfl hc) (usertrap_moves rfl h2)
  | heapGrow size align => exact heapGrow_moves rfl h
  | spawn disk name =>
    dsimp only at h
    split_ifs at h with hc
    · obtain ⟨r, k1, h1, h2⟩ := Prog.bind_ok.mp h
      obtain rfl := Prog.pure_state h2
      exact spawn_moves rfl hc h1
    · obtain rfl := Prog.pure_state h
      exact .refl

/-! What a trap runs. -/

/-- A trap other than a system call enters the handler with the saved frame. -/
theorem step_trap {u : Unit} (he : e = .trap t) (hcur : k.current ≠ noProc)
    (hne : ∀ io, t.cause ≠ .ecall io) (h : step e k = .ok (u, k')) :
    usertrap t.cause (trapState t k) = .ok (u, k') := by
  subst he
  unfold step at h
  rw [Prog.get_bind_ok] at h
  dsimp only at h
  rw [if_neg hcur] at h
  obtain ⟨_, k1, h1, h2⟩ := Prog.bind_ok.mp h
  unfold userVec at h1
  rw [Prog.get_bind_ok] at h1
  obtain ⟨_, k2, h3, h4⟩ := Prog.bind_ok.mp h1
  obtain rfl := Prog.set_ok.mp h3
  obtain rfl := setFrame_ok.mp h4
  refine Eq.trans ?_ h2
  congr 1
  unfold trapState trapFrame
  split
  · rename_i io hio
    exact absurd hio (hne io)
  · rfl

/-- A system call runs its body; if that returns, the result goes to the caller. -/
theorem step_call {u : Unit} {no : Sysno} (hc : Call e t io no) (hcur : k.current ≠ noProc)
    (h : step e k = .ok (u, k')) : t.sepc.toNat + 4 < usizeBound ∧ ∃ r k1,
      syscall io ((trapState t k).frames k.current) no (trapState t k) = .ok (r, k1) ∧
      match r with
      | none => k' = k1
      | some ret => resumeCurrent (k1.withFrame k.current
          ((k1.frames k.current).setA0 (ofIsize ret))) = .ok ((), k') := by
  obtain ⟨rfl, hcause, hnr⟩ := hc
  unfold step at h
  rw [Prog.get_bind_ok] at h
  dsimp only at h
  rw [if_neg hcur] at h
  obtain ⟨_, k1, h1, h2⟩ := Prog.bind_ok.mp h
  unfold userVec at h1
  rw [Prog.get_bind_ok] at h1
  obtain ⟨_, k2, h3, h4⟩ := Prog.bind_ok.mp h1
  obtain rfl := Prog.set_ok.mp h3
  obtain rfl := setFrame_ok.mp h4
  rw [hcause] at h2
  unfold usertrap at h2
  rw [Prog.get_bind_ok] at h2
  obtain ⟨sepc, k1, h5, h6⟩ := Prog.bind_ok.mp h2
  obtain ⟨hadd, rfl⟩ := Prog.ofExcept_ok.mp h5
  obtain ⟨hlt, rfl⟩ := checkedAdd_ok.mp hadd
  refine ⟨by simpa [Kernel.withFrame, saveFrame] using hlt, ?_⟩
  rw [setFrame_bind] at h6
  have hd : dispatch io (trapState t k) = .ok (u, k') := by
    refine Eq.trans ?_ h6
    congr 1
    unfold trapState trapFrame
    rw [hcause]
    exact (Kernel.withFrame_twice
      (f := fun tf => { tf with sepc := UInt64.ofNat (tf.sepc.toNat + 4) })).symm
  unfold dispatch at hd
  rw [Prog.get_bind_ok] at hd
  have ha7 : ((trapState t k).frames (trapState t k).current).a7 = (t.regs 17).toNat :=
    trapState_frame.symm ▸ trapFrame_reg hcause _ (by decide)
  rw [ha7, hnr] at hd
  obtain ⟨r, k1, h7, h8⟩ := Prog.bind_ok.mp hd
  refine ⟨r, k1, h7, ?_⟩
  cases r with
  | none => exact Prog.pure_state h8
  | some ret =>
    dsimp only at h8
    rw [Prog.get_bind_ok, setFrame_bind] at h8
    exact h8

end Calls

end LightOS
