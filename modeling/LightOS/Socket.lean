import LightOS.Layout

/-!
# The UDP socket table

Slots, ports and receive queues of `kernel/net/socket.rs`. Each allocated socket
also carries the serial number of the `alloc` call that made it. Serials are
history only: they tell two sockets apart that used the same slot one after the
other, and no function reads them.
-/
namespace LightOS

abbrev maxSockets : ℕ := 32
abbrev maxBacklog : ℕ := 16
abbrev ephemeralBase : ℕ := 49152
abbrev u16Max : ℕ := 65535

/-- One received datagram waiting to be read. -/
structure Datagram where
  srcIp : List UInt8
  srcPort : ℕ
  data : List UInt8
  deriving DecidableEq, Repr

structure UdpSocket where
  localPort : ℕ
  rx : List Datagram
  serial : ℕ
  deriving DecidableEq, Repr

structure SocketTable where
  slots : ℕ → Option UdpSocket
  nextEphemeral : ℕ
  nextSerial : ℕ

namespace SocketTable

def empty : SocketTable := ⟨fun _ => none, ephemeralBase, 0⟩

def setSlot (t : SocketTable) (idx : ℕ) (s : Option UdpSocket) : SocketTable :=
  { t with slots := fun i => if i = idx then s else t.slots i }

/-- The first empty slot gets a new unbound socket. -/
def alloc (t : SocketTable) : Option (ℕ × SocketTable) :=
  ((List.range maxSockets).find? fun i => (t.slots i).isNone).map fun idx =>
    (idx, { t.setSlot idx (some ⟨0, [], t.nextSerial⟩) with nextSerial := t.nextSerial + 1 })

/-- Free a socket; an index outside the table is ignored. -/
def free (t : SocketTable) (idx : ℕ) : SocketTable :=
  if idx < maxSockets then t.setSlot idx none else t

def portInUse (t : SocketTable) (port : ℕ) : Bool :=
  (List.range maxSockets).any fun i => (t.slots i).any (·.localPort = port)

def nextPort (p : ℕ) : ℕ := if u16Max - 1 ≤ p then ephemeralBase else p + 1

/-- The search loop for a free ephemeral port. -/
def searchPort (t : SocketTable) : ℕ → ℕ → ℕ
  | 0, p => p
  | n + 1, p => if t.portInUse p then searchPort t n (nextPort p) else p

/-- Bind to `port`, or to an ephemeral one for 0. The ephemeral counter moves
even when the index turns out to be bad. -/
def bind (t : SocketTable) (idx port : ℕ) : Option ℕ × SocketTable :=
  if port ≠ 0 ∧ t.portInUse port then (none, t)
  else
    let p := t.searchPort (u16Max - ephemeralBase) t.nextEphemeral
    let chosen := if port = 0 then p else port
    let t := if port = 0 then { t with nextEphemeral := nextPort p } else t
    if idx < maxSockets then
      match t.slots idx with
      | some s => (some chosen, t.setSlot idx (some { s with localPort := chosen }))
      | none => (none, t)
    else (none, t)

def localPort (t : SocketTable) (idx : ℕ) : ℕ :=
  if idx < maxSockets then (t.slots idx).elim 0 (·.localPort) else 0

/-- Queue a datagram on the first socket that owns the port. -/
def deliver (t : SocketTable) (dstPort : ℕ) (d : Datagram) : SocketTable :=
  match (List.range maxSockets).find? fun i => (t.slots i).any (·.localPort = dstPort) with
  | none => t
  | some idx =>
    match t.slots idx with
    | none => t
    | some s =>
      if s.rx.length < maxBacklog then t.setSlot idx (some { s with rx := s.rx ++ [d] }) else t

/-- Pop the next datagram of a socket. -/
def recv (t : SocketTable) (idx : ℕ) : Option Datagram × SocketTable :=
  if idx < maxSockets then
    match t.slots idx with
    | some s =>
      match s.rx with
      | [] => (none, t)
      | d :: rest => (some d, t.setSlot idx (some { s with rx := rest }))
    | none => (none, t)
  else (none, t)

/-- The same sockets are allocated; their ports and queues may differ. -/
def SameAlloc (t t' : SocketTable) : Prop :=
  (∀ i, (t'.slots i).map (·.serial) = (t.slots i).map (·.serial)) ∧ t'.nextSerial = t.nextSerial

namespace SameAlloc

theorem refl (t : SocketTable) : SameAlloc t t := ⟨fun _ => rfl, rfl⟩

theorem trans {t t' t'' : SocketTable} (h : SameAlloc t t') (h' : SameAlloc t' t'') :
    SameAlloc t t'' := ⟨fun i => (h'.1 i).trans (h.1 i), h'.2.trans h.2⟩

/-- A socket is replaced by one with the same serial. -/
theorem setSlot {t : SocketTable} {idx : ℕ} {s s' : UdpSocket} (h : t.slots idx = some s)
    (hs : s'.serial = s.serial) : SameAlloc t (t.setSlot idx (some s')) := by
  refine ⟨fun i => ?_, rfl⟩
  simp only [SocketTable.setSlot]
  split_ifs with hi
  · rw [hi, h]
    simp [hs]
  · rfl

end SameAlloc

theorem bind_sameAlloc (t : SocketTable) (idx port : ℕ) : SameAlloc t (t.bind idx port).2 := by
  unfold bind
  by_cases h1 : port ≠ 0 ∧ t.portInUse port
  · rw [if_pos h1]
    exact .refl t
  · rw [if_neg h1]
    dsimp only
    -- the ephemeral counter may have moved first
    generalize ht : (if port = 0 then _ else t) = t'
    have hctr : SameAlloc t t' := by
      rw [← ht]
      split_ifs
      · exact ⟨fun _ => rfl, rfl⟩
      · exact .refl t
    split_ifs
    all_goals
      try
        cases hs : t'.slots idx with
        | none => exact hctr
        | some s => exact hctr.trans (.setSlot hs rfl)
      try exact hctr

theorem deliver_sameAlloc (t : SocketTable) (port : ℕ) (d : Datagram) :
    SameAlloc t (t.deliver port d) := by
  unfold deliver
  split
  · exact .refl t
  · split
    · exact .refl t
    · rename_i hs
      split_ifs
      · exact .setSlot hs rfl
      · exact .refl t

theorem recv_sameAlloc (t : SocketTable) (idx : ℕ) : SameAlloc t (t.recv idx).2 := by
  unfold recv
  split_ifs
  · split
    · rename_i hs
      split
      · exact .refl t
      · exact .setSlot hs rfl
    · exact .refl t
  · exact .refl t

end SocketTable

end LightOS
