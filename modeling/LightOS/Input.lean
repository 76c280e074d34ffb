import LightOS.Copies
import LightOS.Lib.Ring

/-!
# Input on its way to a process

Console bytes wait in the receive ring of the UART, datagrams in the queue of
their socket. A read takes them out first and copies them to the caller's buffer
afterwards, so what matters is whether that copy succeeds. The ring is read here
as the list of its unread bytes.
-/
namespace LightOS
open Lib

namespace RxRing

/-- The cells of the ring. -/
def cells (rx : RxRing) : Fin rxBufSize → UInt8 := fun i => rx.buf[i]

/-- The bytes that no reader has taken yet, oldest first. -/
def unread (rx : RxRing) : List UInt8 :=
  ringRead rx.cells rx.tail.val (rx.head - rx.tail).val

theorem length_unread (rx : RxRing) : rx.unread.length = (rx.head - rx.tail).val := by
  simp [unread, ringRead]

theorem unread_window (rx : RxRing) : Lib.Window rx.cells rx.tail.val rx.unread := by
  intro i hi
  simp [unread, ringRead]

/-- The window from the tail to the head is what is unread. -/
theorem unread_eq {rx : RxRing} {l : List UInt8} (hw : Lib.Window rx.cells rx.tail.val l)
    (hl : l.length < rxBufSize) (hh : rx.head = Fin.ofNat rxBufSize (rx.tail.val + l.length)) :
    rx.unread = l := by
  have hlen : (rx.head - rx.tail).val = l.length := by
    rw [hh, Fin.sub_def]
    have := rx.tail.isLt
    simp only [Fin.val_ofNat, rxBufSize] at *
    omega
  rw [unread, hlen]
  exact hw.read_eq

theorem unread_nil {rx : RxRing} (h : rx.head = rx.tail) : rx.unread = [] := by
  refine List.length_eq_zero_iff.mp ?_
  rw [length_unread, h]
  simp

theorem head_eq (rx : RxRing) :
    rx.head = Fin.ofNat rxBufSize (rx.tail.val + rx.unread.length) := by
  rw [length_unread]
  apply Fin.ext
  rw [Fin.sub_def]
  have h1 := rx.tail.isLt
  have h2 := rx.head.isLt
  simp only [Fin.val_ofNat, rxBufSize] at *
  omega

/-- One byte leaves at the front. -/
theorem readByte_unread {rx : RxRing} (h : rx.head ≠ rx.tail) :
    ∃ b l rx', rx.unread = b :: l ∧ rx.readByte = (some b, rx') ∧ rx'.unread = l := by
  obtain hnil | ⟨b, l, hbl⟩ : rx.unread = [] ∨ ∃ b l, rx.unread = b :: l := by
    cases rx.unread with
    | nil => exact Or.inl rfl
    | cons b l => exact Or.inr ⟨b, l, rfl⟩
  · have hhead := rx.head_eq
    rw [hnil] at hhead
    refine absurd (hhead.trans ?_) h
    apply Fin.ext
    have := rx.tail.isLt
    simp only [Fin.val_ofNat, List.length_nil, rxBufSize] at *
    omega
  · have hw := rx.unread_window
    rw [hbl] at hw
    have hb : rx.buf[rx.tail] = b := by
      have := hw.head
      rwa [Fin.ofNat_val_eq_self] at this
    refine ⟨b, l, { rx with tail := rx.tail + 1 }, hbl, by rw [readByte, if_neg h, hb], ?_⟩
    have hlen : l.length + 1 < rxBufSize := by
      have := (rx.head - rx.tail).isLt
      rw [← length_unread, hbl] at this
      exact this
    have hval : (rx.tail + 1).val % rxBufSize = (rx.tail.val + 1) % rxBufSize := by
      rw [Fin.val_add]
      simp [rxBufSize]
    refine unread_eq (hw.tail.congr hval) (by omega) ?_
    change rx.head = _
    rw [rx.head_eq, hbl]
    apply Fin.ext
    rw [Fin.val_ofNat, Fin.val_ofNat, List.length_cons, Nat.add_mod ((rx.tail + 1).val), hval,
      ← Nat.add_mod]
    congr 1
    omega

/-- The drain loop takes the oldest bytes, as many as it may. -/
theorem readBytes_unread (rx : RxRing) (n : ℕ) :
    (rx.readBytes n).1 = rx.unread.take n ∧ (rx.readBytes n).2.unread = rx.unread.drop n := by
  induction n generalizing rx with
  | zero => exact ⟨rfl, rfl⟩
  | succ n ih =>
    rw [readBytes]
    by_cases h : rx.head = rx.tail
    · have hnil := unread_nil h
      have hbyte : rx.readByte = (none, rx) := by rw [readByte, if_pos h]
      rw [hbyte, hnil]
      exact ⟨rfl, List.drop_nil.symm⟩
    · obtain ⟨b, l, rx', hbl, hbyte, hrest⟩ := readByte_unread h
      obtain ⟨h1, h2⟩ := ih rx'
      rw [hbyte, hbl, List.take_succ_cons, List.drop_succ_cons, ← hrest]
      exact ⟨by rw [← h1], h2⟩

/-- What a read of `n` bytes returns and leaves. -/
theorem readBytes_eq {rx rx' : RxRing} {n : ℕ} {bytes : List UInt8}
    (h : rx.readBytes n = (bytes, rx')) :
    bytes = rx.unread.take n ∧ rx'.unread = rx.unread.drop n := by
  have := rx.readBytes_unread n
  rwa [h] at this

end RxRing

/-! ### Console reads -/

section Console

variable {k k' : Kernel} {p : Process}

/-- A console read of at most `len` bytes to `uva` finds nothing to take, or a
buffer that holds what it takes. -/
def BufferFits (k : Kernel) (root uva len : ℕ) : Prop :=
  min (min len 128) k.rx.unread.length = 0 ∨
    CopyReady k.machine root uva (min (min len 128) k.rx.unread.length)

theorem length_taken {rx rx' : RxRing} {n : ℕ} {bytes : List UInt8}
    (h : rx.readBytes n = (bytes, rx')) : bytes.length = min n rx.unread.length := by
  rw [(RxRing.readBytes_eq h).1, List.length_take]

/-- Taking bytes out changes what is unread. -/
theorem unread_ne {rx rx' : RxRing} {n : ℕ} {bytes : List UInt8}
    (h : rx.readBytes n = (bytes, rx')) (hne : bytes ≠ []) : rx'.unread ≠ rx.unread := by
  intro he
  have hlen := length_taken h
  have hpos := List.length_pos_of_ne_nil hne
  have hdrop := congrArg List.length ((RxRing.readBytes_eq h).2.symm.trans he)
  rw [List.length_drop] at hdrop
  omega

/-- What a copy of console bytes tells the caller. -/
theorem copyOut_result {m : Machine} {root : ℕ} (hr : UserRoot m root) (uva : ℕ)
    (bytes : List UInt8) :
    ∃ r m', copyOut root uva bytes m = .ok (r, m') ∧
      (CopyReady m root uva bytes.length ∧ r = .ok () ∨
        ¬ CopyReady m root uva bytes.length ∧ ∃ e, r = .error e) := by
  obtain ⟨r, m', hout, hok, -⟩ := (copyOut_exact hr uva bytes).returns
  refine ⟨r, m', hout, ?_⟩
  cases r with
  | ok u => exact Or.inl ⟨hok.mp rfl, rfl⟩
  | error e => exact Or.inr ⟨fun h => (by simpa using hok.mpr h), e, rfl⟩

/-- `read(0, ..)` with bytes waiting: the copy decides the result, the bytes are
gone either way. -/
theorem sysRead_takes {io : Io} {tf : TrapFrame} {bytes : List UInt8} {rx : RxRing}
    {r : Except String Unit} {m : Machine} (hcur : k.current < maxProcs)
    (hp : k.procs.slots k.current = some p) (hfd : tf.a0 = 0) (hlen : tf.a2 ≠ 0)
    (hb : k.rx.readBytes (min tf.a2 128) = (bytes, rx)) (hne : bytes ≠ [])
    (hcopy : copyOut p.rootPa tf.a1 bytes k.machine = .ok (r, m)) :
    sysRead io tf k = .ok (some (match r with
      | .ok _ => (bytes.length : ℤ)
      | .error _ => efault), { k with rx := rx, machine := m }) := by
  unfold sysRead
  rw [hfd]
  dsimp only
  rw [if_neg (by decide), if_neg (by decide), if_neg hlen, Prog.get_bind_ok, hb]
  dsimp only
  rw [Prog.modify_bind_ok, if_neg hne, Prog.bind_ok]
  refine ⟨(p.rootPa, p.pid), { k with rx := rx }, currentInfo_ok.mpr ⟨p, hcur, hp, rfl, rfl⟩, ?_⟩
  dsimp only
  rw [onMachine_bind]
  refine ⟨r, m, hcopy, ?_⟩
  cases r with
  | ok u => rfl
  | error e => rfl

/-- A read that finds nothing to take returns no error. -/
theorem sysRead_idle {io : Io} {tf : TrapFrame} (hfd : tf.a0 = 0)
    (hnone : min (min tf.a2 128) k.rx.unread.length = 0)
    (h : sysRead io tf k = .ok (some efault, k')) : False := by
  unfold sysRead at h
  rw [hfd] at h
  dsimp only at h
  rw [if_neg (by decide), if_neg (by decide)] at h
  by_cases hlen : tf.a2 = 0
  · rw [if_pos hlen] at h
    simpa using Prog.pure_value h
  · rw [if_neg hlen, Prog.get_bind_ok] at h
    obtain ⟨bytes, rx, hb⟩ : ∃ bytes rx, k.rx.readBytes (min tf.a2 128) = (bytes, rx) := ⟨_, _, rfl⟩
    have hnil : bytes = [] := by
      refine List.length_eq_zero_iff.mp ?_
      rw [length_taken hb, hnone]
    rw [hb, hnil] at h
    dsimp only at h
    rw [Prog.modify_bind_ok, if_pos rfl] at h
    obtain ⟨u, k1, -, h⟩ := Prog.bind_ok.mp h
    cases Prog.pure_value h

/-- A read that gives EFAULT has left the ring alone. -/
def ReadKeeps (io : Io) (tf : TrapFrame) (k : Kernel) : Prop :=
  ∀ k', sysRead io tf k = .ok (some efault, k') → k'.rx.unread = k.rx.unread

theorem readKeeps_iff {io : Io} {tf : TrapFrame} (hcur : k.current < maxProcs)
    (hp : k.procs.slots k.current = some p) (hr : UserRoot k.machine p.rootPa) (hfd : tf.a0 = 0) :
    ReadKeeps io tf k ↔ BufferFits k p.rootPa tf.a1 tf.a2 := by
  obtain ⟨bytes, rx, hb⟩ : ∃ bytes rx, k.rx.readBytes (min tf.a2 128) = (bytes, rx) := ⟨_, _, rfl⟩
  have hlen := length_taken hb
  obtain ⟨r, m, hcopy, hres⟩ := copyOut_result hr tf.a1 bytes
  rw [BufferFits, ← hlen]
  constructor
  · intro hkeeps
    by_contra hno
    obtain ⟨hpos, hnot⟩ := not_or.mp hno
    have hne : bytes ≠ [] := fun he => hpos (by rw [he]; rfl)
    have hlen0 : tf.a2 ≠ 0 := by
      intro h0
      rw [h0] at hlen
      omega
    obtain ⟨hready, -⟩ | ⟨-, e, rfl⟩ := hres
    · exact hnot hready
    · exact unread_ne hb hne (hkeeps _ (sysRead_takes hcur hp hfd hlen0 hb hne hcopy))
  · intro hfits k1 h
    obtain hzero | hready := hfits
    · exact (sysRead_idle hfd (hlen ▸ hzero) h).elim
    · by_cases hne : bytes = []
      · refine (sysRead_idle hfd ?_ h).elim
        rw [← hlen, hne]
        rfl
      · have hlen0 : tf.a2 ≠ 0 := by
          intro h0
          rw [h0] at hlen
          exact hne (List.length_eq_zero_iff.mp (by omega))
        obtain ⟨-, rfl⟩ | ⟨hnot, -⟩ := hres
        · rw [sysRead_takes hcur hp hfd hlen0 hb hne hcopy] at h
          have hret : (bytes.length : ℤ) = -14 :=
            Option.some.inj (Prod.mk.inj (Except.ok.inj h)).1
          omega
        · exact absurd hready hnot

/-- A wake-up that gives a sleeper EFAULT has left the ring alone. -/
def WakeKeeps (k : Kernel) : Prop :=
  ∀ k', wakeConsoleReader k = .ok ((), k') → ∀ slot p q, k.procs.slots slot = some p →
    p.state = .sleepConsole → k'.procs.slots slot = some q → q.state = .ready →
    (k'.frames slot).a0 = ofIsize efault → k'.rx.unread = k.rx.unread

/-- The reader that console input goes to. -/
def firstReader (k : Kernel) : Option ℕ :=
  k.procs.position fun s => s.any (·.state = .sleepConsole)

theorem wake_none (h : firstReader k = none) (hw : wakeConsoleReader k = .ok ((), k')) : k' = k := by
  unfold wakeConsoleReader at hw
  rw [Prog.get_bind_ok, show k.procs.position _ = none from h] at hw
  exact Prog.pure_state hw

theorem wake_takes {slot : ℕ} {bytes : List UInt8} {rx : RxRing} {r : Except String Unit}
    {m : Machine} (hslot : firstReader k = some slot) (hp : k.procs.slots slot = some p)
    (hlt : slot < maxProcs) (hb : k.rx.readBytes (min p.readLen 128) = (bytes, rx))
    (hcopy : copyOut p.rootPa p.readBufUva bytes k.machine = .ok (r, m)) :
    wakeConsoleReader k = .ok ((), if bytes = [] then { k with rx := rx }
      else woken k slot p bytes rx r m) := by
  unfold wakeConsoleReader
  rw [Prog.get_bind_ok, show k.procs.position _ = some slot from hslot]
  dsimp only
  rw [procAt_bind]
  refine ⟨p, hlt, hp, ?_⟩
  rw [hb]
  dsimp only
  rw [Prog.modify_bind_ok]
  by_cases hne : bytes = []
  · rw [if_pos hne, if_pos hne]
    rfl
  · rw [if_neg hne, if_neg hne, onMachine_bind]
    refine ⟨r, m, hcopy, ?_⟩
    rw [Prog.get_bind_ok, setFrame_bind]
    refine setProc_ok.mpr ?_
    cases r <;> rfl

theorem firstReader_sleeps {slot : ℕ} (h : firstReader k = some slot) :
    slot < maxProcs ∧ ∃ p, k.procs.slots slot = some p ∧ p.state = .sleepConsole := by
  obtain ⟨hmem, hany⟩ := position_some h
  cases hs : k.procs.slots slot with
  | none =>
    rw [hs] at hany
    cases hany
  | some p =>
    rw [hs] at hany
    exact ⟨hmem, p, rfl, by simpa using hany⟩

theorem setA0_a0 (tf : TrapFrame) (v : ℕ) : (tf.setA0 v).a0 = v % 2 ^ 64 := by
  simp [TrapFrame.setA0, TrapFrame.setReg, TrapFrame.a0, TrapFrame.reg]

theorem woken_slot {slot : ℕ} {bytes : List UInt8} {rx : RxRing} {r : Except String Unit}
    {m : Machine} (i : ℕ) : (woken k slot p bytes rx r m).procs.slots i =
      if i = slot then some { p with state := .ready } else k.procs.slots i := rfl

theorem woken_a0 {slot : ℕ} {bytes : List UInt8} {rx : RxRing} {r : Except String Unit}
    {m : Machine} : ((woken k slot p bytes rx r m).frames slot).a0 =
      wokenResult bytes r % 2 ^ 64 := by
  rw [← setA0_a0 (k.frames slot)]
  change (if slot = slot then _ else _ : TrapFrame).a0 = _
  rw [if_pos rfl]

theorem wakeKeeps_iff
    (hroots : ∀ i p, k.procs.slots i = some p → UserRoot k.machine p.rootPa) :
    WakeKeeps k ↔ ∀ slot p, firstReader k = some slot → k.procs.slots slot = some p →
      BufferFits k p.rootPa p.readBufUva p.readLen := by
  constructor
  · intro hkeeps slot p hslot hp
    obtain ⟨hlt, p', hp', hsleep⟩ := firstReader_sleeps hslot
    obtain rfl : p' = p := Option.some.inj (hp'.symm.trans hp)
    obtain ⟨bytes, rx, hb⟩ : ∃ bytes rx, k.rx.readBytes (min p'.readLen 128) = (bytes, rx) :=
      ⟨_, _, rfl⟩
    obtain ⟨r, m, hcopy, hres⟩ := copyOut_result (hroots slot p' hp) p'.readBufUva bytes
    have hwake := wake_takes hslot hp hlt hb hcopy
    rw [BufferFits, ← length_taken hb]
    by_contra hno
    obtain ⟨hpos, hnot⟩ := not_or.mp hno
    have hne : bytes ≠ [] := fun he => hpos (by rw [he]; rfl)
    obtain ⟨hready, -⟩ | ⟨-, e, rfl⟩ := hres
    · exact hnot hready
    · rw [if_neg hne] at hwake
      refine unread_ne hb hne (hkeeps _ hwake slot p' _ hp hsleep (by rw [woken_slot, if_pos rfl])
        rfl ?_)
      rw [woken_a0]
      exact (by decide : ofIsize (-14) % 2 ^ 64 = ofIsize efault)
  · intro hfits k1 hwake slot p q hp hsleep hq hready hfault
    cases hslot : firstReader k with
    | none => rw [wake_none hslot hwake]
    | some i =>
      obtain ⟨hlt, c, hc, hcsleep⟩ := firstReader_sleeps hslot
      obtain ⟨bytes, rx, hb⟩ : ∃ bytes rx, k.rx.readBytes (min c.readLen 128) = (bytes, rx) :=
        ⟨_, _, rfl⟩
      obtain ⟨r, m, hcopy, hres⟩ := copyOut_result (hroots i c hc) c.readBufUva bytes
      have hrun := wake_takes hslot hc hlt hb hcopy
      have hbuf := hfits i c hslot hc
      rw [BufferFits, ← length_taken hb] at hbuf
      obtain rfl := (Prod.mk.inj (Except.ok.inj (hrun.symm.trans hwake))).2
      by_cases hne : bytes = []
      · rw [if_pos hne]
        have hlen := length_taken hb
        rw [hne, List.length_nil] at hlen
        change rx.unread = _
        rw [(RxRing.readBytes_eq hb).2]
        by_cases hzero : min c.readLen 128 = 0
        · rw [hzero, List.drop_zero]
        · have hnil : k.rx.unread = [] := List.length_eq_zero_iff.mp (by omega)
          rw [hnil, List.drop_nil]
      · rw [if_neg hne] at hq hfault
        rw [woken_slot] at hq
        by_cases hsi : slot = i
        · -- the sleeper it was is told how many bytes it got
          subst hsi
          rw [woken_a0] at hfault
          obtain ⟨-, rfl⟩ | ⟨hnot, -⟩ := hres
          · have hsmall := length_taken hb
            have hf : ofIsize efault = 2 ^ 64 - 14 := by decide
            rw [hf] at hfault
            change bytes.length % 2 ^ 64 = _ at hfault
            omega
          · obtain hzero | hready' := hbuf
            · exact absurd (List.length_eq_zero_iff.mp hzero) hne
            · exact absurd hready' hnot
        · rw [if_neg hsi, hp] at hq
          obtain rfl := Option.some.inj hq
          rw [hsleep] at hready
          cases hready

end Console

/-! ### Datagrams -/

/-- The datagrams that wait for a socket. -/
def NetState.queue (n : NetState) (idx : ℕ) : List Datagram :=
  if idx < maxSockets then (n.sockets.slots idx).elim [] (·.rx) else []

/-- Taking a datagram takes the head of the queue. -/
theorem recv_queue (n : NetState) (idx : ℕ) :
    n.queue idx = [] ∧ n.sockets.recv idx = (none, n.sockets) ∨
    ∃ d rest t, n.queue idx = d :: rest ∧ n.sockets.recv idx = (some d, t) ∧
      ({ n with sockets := t } : NetState).queue idx = rest := by
  unfold NetState.queue SocketTable.recv
  by_cases hi : idx < maxSockets
  · simp only [if_pos hi]
    cases hs : n.sockets.slots idx with
    | none => exact Or.inl ⟨rfl, rfl⟩
    | some s =>
      dsimp only [Option.elim]
      cases hrx : s.rx with
      | nil => exact Or.inl ⟨rfl, rfl⟩
      | cons d rest =>
        refine Or.inr ⟨d, rest, _, rfl, rfl, ?_⟩
        simp [SocketTable.setSlot]
  · simp only [if_neg hi]
    exact Or.inl ⟨trivial, trivial⟩

/-- The state of the network in which the polling of `recvfrom` first finds a
datagram for the socket, within `left` polls from poll `i` on. -/
inductive Finds (io : NetIo) (idx : ℕ) : ℕ → ℕ → NetState → NetState → Prop
  | now {left i n n'} : poll io i n = .ok ((), n') → n'.queue idx ≠ [] →
      Finds io idx (left + 1) i n n'
  | later {left i n n₁ n'} : poll io i n = .ok ((), n₁) → n₁.queue idx = [] →
      Finds io idx left (i + 1) n₁ n' → Finds io idx (left + 1) i n n'

section Datagrams

variable {io : NetIo} {idx : ℕ}

/-- The poll loop returns the first datagram that it finds. -/
theorem Finds.pollRecv {left i : ℕ} {n n' : NetState} (h : Finds io idx left i n n') :
    ∃ d rest t, n'.queue idx = d :: rest ∧ ({ n' with sockets := t } : NetState).queue idx = rest ∧
      LightOS.pollRecv io idx left i n = .ok (some d, { n' with sockets := t }) := by
  induction h with
  | @now left i n n' hpoll hne =>
    obtain ⟨hnil, -⟩ | ⟨d, rest, t, hq, hrecv, hrest⟩ := recv_queue n' idx
    · exact absurd hnil hne
    · refine ⟨d, rest, t, hq, hrest, ?_⟩
      rw [LightOS.pollRecv, Prog.bind_ok]
      refine ⟨(), n', hpoll, ?_⟩
      rw [Prog.get_bind_ok, hrecv]
      rfl
  | @later left i n n₁ n' hpoll hnil _ ih =>
    obtain ⟨d, rest, t, hq, hrest, hrun⟩ := ih
    refine ⟨d, rest, t, hq, hrest, ?_⟩
    obtain ⟨-, hrecv⟩ | ⟨d', rest', t', hq', -⟩ := recv_queue n₁ idx
    · rw [LightOS.pollRecv, Prog.bind_ok]
      refine ⟨(), n₁, hpoll, ?_⟩
      rw [Prog.get_bind_ok, hrecv]
      exact hrun
    · rw [hnil] at hq'
      cases hq'

/-- A datagram that the poll loop returns was found. -/
theorem exists_finds {left i : ℕ} {n n' : NetState} {d : Datagram}
    (h : pollRecv io idx left i n = .ok (some d, n')) : ∃ n₁, Finds io idx left i n n₁ := by
  induction left generalizing i n with
  | zero => cases Prog.pure_value h
  | succ left ih =>
    rw [pollRecv, Prog.bind_ok] at h
    obtain ⟨⟨⟩, n₁, hpoll, h⟩ := h
    rw [Prog.get_bind_ok] at h
    obtain ⟨hnil, hrecv⟩ | ⟨d', rest, t, hq, -⟩ := recv_queue n₁ idx
    · rw [hrecv] at h
      obtain ⟨n₂, hfind⟩ := ih h
      exact ⟨n₂, .later hpoll hnil hfind⟩
    · exact ⟨n₁, .now hpoll (by rw [hq]; simp)⟩

theorem Finds.unique {left i : ℕ} {n n₁ n₂ : NetState} (h : Finds io idx left i n n₁)
    (h' : Finds io idx left i n n₂) : n₁ = n₂ := by
  induction h with
  | now hpoll hne =>
    cases h' with
    | now hpoll' _ => exact (Prod.mk.inj (Except.ok.inj (hpoll.symm.trans hpoll'))).2
    | later hpoll' hnil _ =>
      obtain rfl := (Prod.mk.inj (Except.ok.inj (hpoll.symm.trans hpoll'))).2
      exact absurd hnil hne
  | later hpoll hnil _ ih =>
    cases h' with
    | now hpoll' hne =>
      obtain rfl := (Prod.mk.inj (Except.ok.inj (hpoll.symm.trans hpoll'))).2
      exact absurd hnil hne
    | later hpoll' _ hrest =>
      obtain rfl := (Prod.mk.inj (Except.ok.inj (hpoll.symm.trans hpoll'))).2
      exact ih hrest

end Datagrams

section Recvfrom

variable {k k' : Kernel} {p : Process} {io : Io} {tf : TrapFrame}

/-- The descriptor is a socket of the process. -/
def Process.socket (p : Process) (fd idx : ℕ) : Prop :=
  3 ≤ fd ∧ ∃ serial pos, p.file fd = some ⟨.socket idx serial, pos⟩

theorem socketIdx_some {fd : ℕ} (hcur : k.current < maxProcs)
    (hp : k.procs.slots k.current = some p) {idx : ℕ} (h : p.socket fd idx) :
    socketIdx fd k = .ok (some idx, k) := by
  obtain ⟨h3, serial, pos, hf⟩ := h
  unfold socketIdx
  rw [if_neg (by omega), Prog.get_bind_ok, slotAt_bind]
  refine ⟨hcur, ?_⟩
  rw [hp]
  dsimp only
  rw [hf]
  rfl

theorem socketIdx_socket {fd : ℕ} (hp : k.procs.slots k.current = some p) {o : Option ℕ} {k₁ : Kernel}
    (h : socketIdx fd k = .ok (o, k₁)) : k₁ = k ∧ ∀ idx, o = some idx → p.socket fd idx := by
  unfold socketIdx at h
  by_cases h3 : fd < 3
  · rw [if_pos h3] at h
    refine ⟨Prog.pure_state h, fun idx ho => ?_⟩
    rw [Prog.pure_value h] at ho
    cases ho
  · rw [if_neg h3, Prog.get_bind_ok, slotAt_bind, hp] at h
    obtain ⟨-, h⟩ := h
    dsimp only at h
    generalize hf : p.file fd = f at h
    rcases f with _ | ⟨kind, pos⟩
    · refine ⟨Prog.pure_state h, fun idx ho => ?_⟩
      rw [Prog.pure_value h] at ho
      cases ho
    · cases kind with
      | socket i serial =>
        refine ⟨Prog.pure_state h, fun idx ho => ?_⟩
        rw [Prog.pure_value h] at ho
        obtain rfl := Option.some.inj ho
        exact ⟨by omega, serial, pos, hf⟩
      | file ino =>
        refine ⟨Prog.pure_state h, fun idx ho => ?_⟩
        rw [Prog.pure_value h] at ho
        cases ho
      | nce slot =>
        refine ⟨Prog.pure_state h, fun idx ho => ?_⟩
        rw [Prog.pure_value h] at ho
        cases ho

/-- A `recvfrom` that gives EFAULT leaves the datagrams it found in the queue. -/
def RecvKeeps (io : Io) (tf : TrapFrame) (k : Kernel) : Prop :=
  ∀ k', sysRecvfrom io tf k = .ok (efault, k') → ∀ p idx n, k.procs.slots k.current = some p →
    p.socket tf.a0 idx → Finds io.net idx 4000 0 k.net n → k'.net.queue idx = n.queue idx

/-- What `recvfrom` does once it has a datagram. -/
theorem sysRecvfrom_takes (hcur : k.current < maxProcs) (hp : k.procs.slots k.current = some p)
    {idx : ℕ} (hsock : p.socket tf.a0 idx) {d : Datagram} {n : NetState}
    (hpoll : pollRecv io.net idx 4000 0 k.net = .ok (some d, n)) {e : String} {m : Machine}
    (hcopy : copyOut p.rootPa tf.a1 (d.data.take (min tf.a2 d.data.length)) k.machine =
      .ok (.error e, m)) :
    sysRecvfrom io tf k = .ok (efault, { k with net := n, machine := m }) := by
  unfold sysRecvfrom
  rw [Prog.bind_ok]
  refine ⟨some idx, k, socketIdx_some hcur hp hsock, ?_⟩
  dsimp only
  rw [Prog.bind_ok]
  refine ⟨some d, { k with net := n }, onNet_ok.mpr ⟨n, hpoll, rfl⟩, ?_⟩
  dsimp only
  rw [Prog.bind_ok]
  refine ⟨(p.rootPa, p.pid), { k with net := n }, currentInfo_ok.mpr ⟨p, hcur, hp, rfl, rfl⟩, ?_⟩
  dsimp only
  rw [onMachine_bind]
  exact ⟨.error e, m, hcopy, rfl⟩

/-- EFAULT comes only from the copy of the datagram. -/
theorem sysRecvfrom_efault (hp : k.procs.slots k.current = some p)
    (h : sysRecvfrom io tf k = .ok (efault, k')) : ∃ idx d n e m, p.socket tf.a0 idx ∧
      pollRecv io.net idx 4000 0 k.net = .ok (some d, n) ∧
      copyOut p.rootPa tf.a1 (d.data.take (min tf.a2 d.data.length)) k.machine =
        .ok (.error e, m) := by
  unfold sysRecvfrom at h
  obtain ⟨o, k₁, hidx, h⟩ := Prog.bind_ok.mp h
  obtain ⟨rfl, hsock⟩ := socketIdx_socket hp hidx
  cases o with
  | none => exact absurd (Prog.pure_value h) (by decide)
  | some idx =>
    dsimp only at h
    obtain ⟨o, k₂, hnet, h⟩ := Prog.bind_ok.mp h
    obtain ⟨n, hpoll, rfl⟩ := onNet_ok.mp hnet
    cases o with
    | none => exact absurd (Prog.pure_value h) (by decide)
    | some d =>
      dsimp only at h
      obtain ⟨info, k₃, hinfo, h⟩ := Prog.bind_ok.mp h
      obtain ⟨p', -, hp', rfl, rfl⟩ := currentInfo_ok.mp hinfo
      obtain rfl : p = p' := Option.some.inj (hp.symm.trans hp')
      dsimp only at h
      obtain ⟨r, m, hcopy, h⟩ := onMachine_bind.mp h
      cases r with
      | error e => exact ⟨idx, d, n, e, m, hsock idx rfl, hpoll, hcopy⟩
      | ok u =>
        dsimp only at h
        -- from here on the call returns the number of bytes
        have hret : (efault : ℤ) = (min tf.a2 d.data.length : ℕ) := by
          by_cases ha : tf.a4 = 0
          · rw [if_neg (by simpa using ha)] at h
            exact Prog.pure_value h
          · rw [if_pos ha] at h
            obtain ⟨r, k₄, -, h⟩ := Prog.bind_ok.mp h
            exact Prog.pure_value h
        have : (efault : ℤ) < 0 := by decide
        omega

theorem recvKeeps_iff (hcur : k.current < maxProcs) (hp : k.procs.slots k.current = some p)
    (hr : UserRoot k.machine p.rootPa) :
    RecvKeeps io tf k ↔ ∀ idx n d rest, p.socket tf.a0 idx →
      Finds io.net idx 4000 0 k.net n → n.queue idx = d :: rest →
      CopyReady k.machine p.rootPa tf.a1 (min tf.a2 d.data.length) := by
  have hlen : ∀ d : Datagram, (d.data.take (min tf.a2 d.data.length)).length =
      min tf.a2 d.data.length := by
    intro d
    rw [List.length_take]
    omega
  constructor
  · intro hkeeps idx n d rest hsock hfind hq
    obtain ⟨d', rest', t, hq', hrest, hpoll⟩ := hfind.pollRecv
    obtain ⟨rfl, rfl⟩ := List.cons.inj (hq.symm.trans hq')
    obtain ⟨r, m, hcopy, hres⟩ := copyOut_result hr tf.a1 (d.data.take (min tf.a2 d.data.length))
    rw [hlen] at hres
    obtain ⟨hready, -⟩ | ⟨-, e, rfl⟩ := hres
    · exact hready
    · have hq2 := hkeeps _ (sysRecvfrom_takes hcur hp hsock hpoll hcopy) p idx n hp hsock hfind
      rw [hq] at hq2
      have := congrArg List.length (hrest.symm.trans hq2)
      simp at this
  · intro hready k₁ h p' idx n hp' hsock hfind
    obtain ⟨idx', d, n', e, m, hsock', hpoll, hcopy⟩ := sysRecvfrom_efault hp h
    obtain ⟨n₁, hfind'⟩ := exists_finds hpoll
    obtain ⟨d', rest, t, hq, -, hpoll'⟩ := hfind'.pollRecv
    obtain rfl : d = d' :=
      Option.some.inj (Prod.mk.inj (Except.ok.inj (hpoll.symm.trans hpoll'))).1
    obtain ⟨r, m', hcopy', hres⟩ := copyOut_result hr tf.a1 (d.data.take (min tf.a2 d.data.length))
    rw [hlen] at hres
    obtain rfl := (Prod.mk.inj (Except.ok.inj (hcopy.symm.trans hcopy'))).1
    obtain ⟨-, hok⟩ | ⟨hnot, -⟩ := hres
    · cases hok
    · exact absurd (hready idx' n₁ d rest hsock' hfind' hq) hnot

end Recvfrom

/-- Exactly when a failing read leaves the input for a retry: the caller's buffer
must be good for what the call takes. -/
theorem input_kept_iff {k : Kernel}
    (hroots : ∀ i p, k.procs.slots i = some p → UserRoot k.machine p.rootPa) :
    (∀ p io tf, k.current < maxProcs → k.procs.slots k.current = some p →
      (tf.a0 = 0 → (ReadKeeps io tf k ↔ BufferFits k p.rootPa tf.a1 tf.a2)) ∧
      (RecvKeeps io tf k ↔ ∀ idx n d rest, p.socket tf.a0 idx →
        Finds io.net idx 4000 0 k.net n → n.queue idx = d :: rest →
        CopyReady k.machine p.rootPa tf.a1 (min tf.a2 d.data.length))) ∧
    (WakeKeeps k ↔ ∀ slot p, firstReader k = some slot → k.procs.slots slot = some p →
      BufferFits k p.rootPa p.readBufUva p.readLen) := by
  refine ⟨fun p io tf hcur hp => ⟨fun hfd => ?_, ?_⟩, wakeKeeps_iff hroots⟩
  · exact readKeeps_iff hcur hp (hroots _ p hp) hfd
  · exact recvKeeps_iff hcur hp (hroots _ p hp)

/-- One byte that has just arrived on an empty ring. -/
theorem unread_first : (RxRing.empty.receiveAll [65]).1.unread = [65] := by
  refine RxRing.unread_eq ?_ (by decide) rfl
  intro i hi
  obtain rfl : i = 0 := by simpa using hi
  rfl

/-- The first process reads one byte into a page of its own. -/
theorem input_kept_iff_page : ∃ k tf, k.rx.unread = [65] ∧ tf.a0 = 0 ∧ tf.a2 = 1 ∧
    ReadKeeps noIo tf k := by
  obtain ⟨k, p, h⟩ := exists_firstRun
  obtain ⟨va, hva⟩ := h.mappedPage
  have hcur : k.current = 0 := h.shows_.current
  let k₁ : Kernel := { k with rx := (k.rx.receiveAll [65]).1 }
  let tf := (TrapFrame.zeroed.setReg 11 va).setReg 12 1
  have hunread : k₁.rx.unread = [65] := by
    change (k.rx.receiveAll [65]).1.unread = [65]
    rw [h.rx]
    exact unread_first
  have ha1 : tf.a1 = va := by
    change va % 2 ^ 64 = va
    exact Nat.mod_eq_of_lt (lt_of_le_of_lt (Nat.le_add_right va 1) (hva 1 (by decide)).fits)
  have hroots : ∀ i q, k₁.procs.slots i = some q → UserRoot k₁.machine q.rootPa :=
    fun i q hq => h.reached.userRoot hq
  have hcur₁ : k₁.current < maxProcs := by
    change k.current < maxProcs
    rw [hcur]
    decide
  have hp : k₁.procs.slots k₁.current = some p := by
    change k.procs.slots k.current = some p
    rw [hcur]
    exact h.slot
  refine ⟨k₁, tf, hunread, rfl, rfl, ?_⟩
  refine (((input_kept_iff hroots).1 p noIo tf hcur₁ hp).1 rfl).mpr (Or.inr ?_)
  rw [hunread, ha1]
  exact hva 1 (by decide)

/-- A process sleeps in `read(0, 0, 1)`: the byte that wakes it is lost. -/
theorem input_lost : ∃ k, Reached k ∧ ¬ WakeKeeps { k with rx := (k.rx.receiveAll [65]).1 } := by
  obtain ⟨k₁, p, h⟩ := exists_firstRun
  have hc : Calls (callTrap 63 0 0 1) noIo .read := ⟨rfl, rfl, show 0 + 4 < usizeBound by decide⟩
  obtain ⟨k, -, hreach, hshow, hmach, haside⟩ := h.shows_.read h.reached hc rfl rfl (by decide)
    (by rw [h.rx]; rfl)
  refine ⟨k, hreach, fun hkeeps => ?_⟩
  have hroots : ∀ i q, k.procs.slots i = some q → UserRoot k.machine q.rootPa :=
    fun i q hq => hreach.userRoot hq
  -- the process is still in its slot, asleep
  let q : Process := { p with state := .sleepConsole, readBufUva := 0, readLen := 1 }
  have hshow' : Shows k ⟨noProc, 0, [q]⟩ := hshow.idles 0 [.sleepConsole] rfl rfl (by decide)
  have hq : k.procs.slots 0 = some q := by
    rw [hshow'.slots]
    rfl
  have hfirst : firstReader k = some 0 := by
    rw [firstReader, ProcTable.position]
    rw [List.find?_range_eq_some]
    exact ⟨by rw [hq]; rfl, by decide, fun j hj => absurd hj (Nat.not_lt_zero j)⟩
  have hunread : (k.rx.receiveAll [65]).1.unread = [65] := by
    rw [haside.rx, h.rx]
    exact unread_first
  have hfits := (wakeKeeps_iff (k := { k with rx := (k.rx.receiveAll [65]).1 }) hroots).mp hkeeps
    0 q hfirst hq
  rw [BufferFits, hunread] at hfits
  obtain hzero | hready := hfits
  · exact absurd hzero (by decide : ¬ min (min 1 128) 1 = 0)
  · exact absurd hready.start (by decide : ¬ userVaStart ≤ 0)

end LightOS
