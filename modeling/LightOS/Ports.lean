import LightOS.Socket
import LightOS.Lib.Runs

/-!
# Ports and the datagrams that reach them

Runs of the socket table under any sequence of its operations. A port is held by
one socket at most, and the search for an ephemeral port never comes back empty:
the candidates cycle through 16383 ports and at most 32 of them are taken. A
datagram goes to the socket that a bind has given its port, except that a socket
without a port looks like the owner of port 0.
-/
namespace LightOS
open Lib

/-- The operations that other parts of the kernel call. -/
inductive SocketOp where
  | alloc
  | free (idx : ℕ)
  | bind (idx port : ℕ)
  | deliver (dstPort : ℕ) (d : Datagram)
  | recv (idx : ℕ)

namespace SocketTable

/-- The table after one operation. -/
def apply (t : SocketTable) : SocketOp → SocketTable
  | .alloc => (t.alloc.map (·.2)).getD t
  | .free idx => t.free idx
  | .bind idx port => (t.bind idx port).2
  | .deliver port d => t.deliver port d
  | .recv idx => (t.recv idx).2

/-- The table after a sequence of operations. -/
def run (ops : List SocketOp) : SocketTable := ops.foldl apply empty

end SocketTable

/-! ### What one operation does -/

/-- The changes to a table, one slot at a time. -/
inductive SocketChange (t : SocketTable) : SocketTable → Prop
  | none : SocketChange t t
  | alloc {idx : ℕ} (hlt : idx < maxSockets) (hfree : t.slots idx = .none) :
      SocketChange t { t.setSlot idx (some ⟨0, [], t.nextSerial⟩) with nextSerial := t.nextSerial + 1 }
  | free {idx : ℕ} : SocketChange t (t.setSlot idx .none)
  /-- The ephemeral counter moves. -/
  | skip {next : ℕ} (hlow : ephemeralBase ≤ next) (hhigh : next < u16Max) :
      SocketChange t { t with nextEphemeral := next }
  | bind {idx port next : ℕ} {s : UdpSocket} (hlt : idx < maxSockets) (hs : t.slots idx = some s)
      (hunused : t.portInUse port = false) (hport : port ≠ 0)
      (hnext : next = t.nextEphemeral ∨ ephemeralBase ≤ next ∧ next < u16Max) :
      SocketChange t ({ t with nextEphemeral := next }.setSlot idx (some { s with localPort := port }))
  | queue {idx : ℕ} {s : UdpSocket} {rx : List Datagram} (hs : t.slots idx = some s) :
      SocketChange t (t.setSlot idx (some { s with rx := rx }))

/-- Ports are unique and the ephemeral counter stays in its range. -/
structure Ports (t : SocketTable) : Prop where
  bound : ∀ i s, t.slots i = some s → i < maxSockets
  distinct : ∀ i j s s', t.slots i = some s → t.slots j = some s' → s.localPort = s'.localPort →
    s.localPort ≠ 0 → i = j
  low : ephemeralBase ≤ t.nextEphemeral
  high : t.nextEphemeral < u16Max

section Search

variable {t : SocketTable}

theorem portInUse_eq_false (h : Ports t) (port : ℕ) :
    t.portInUse port = false ↔ ∀ i s, t.slots i = some s → s.localPort ≠ port := by
  unfold SocketTable.portInUse
  rw [List.any_eq_false]
  constructor
  · intro hall i s hs he
    refine hall i (List.mem_range.mpr (h.bound i s hs)) ?_
    simp [hs, he]
  · intro hall i _ hany
    cases hs : t.slots i with
    | none => simp [hs] at hany
    | some s => exact hall i s hs (by simpa [hs] using hany)

theorem nextPort_range {p : ℕ} (hlow : ephemeralBase ≤ p) :
    ephemeralBase ≤ SocketTable.nextPort p ∧ SocketTable.nextPort p < u16Max := by
  unfold SocketTable.nextPort
  simp only [u16Max, ephemeralBase] at *
  split_ifs <;> omega

/-- The candidate after `k` rounds. -/
def candidate (p k : ℕ) : ℕ := ephemeralBase + (p - ephemeralBase + k) % (u16Max - ephemeralBase)

theorem candidate_next {p : ℕ} (hlow : ephemeralBase ≤ p) (hhigh : p < u16Max) (k : ℕ) :
    candidate (SocketTable.nextPort p) k = candidate p (k + 1) := by
  unfold candidate SocketTable.nextPort
  simp only [u16Max, ephemeralBase] at *
  split_ifs <;> omega

theorem candidate_inj {p i j : ℕ} (hi : i < 33) (hj : j < 33) (h : candidate p i = candidate p j) :
    i = j := by
  unfold candidate at h
  simp only [u16Max, ephemeralBase] at *
  omega

/-- The search stops at a free port if it meets one. -/
theorem searchPort_spec (n : ℕ) : ∀ p, ephemeralBase ≤ p → p < u16Max →
    ephemeralBase ≤ t.searchPort n p ∧ t.searchPort n p < u16Max ∧
      ((∃ k < n, t.portInUse (candidate p k) = false) → t.portInUse (t.searchPort n p) = false) := by
  induction n with
  | zero =>
      intro p h1 h2
      refine ⟨h1, h2, ?_⟩
      rintro ⟨k, hk, -⟩
      omega
  | succ n ih =>
      intro p h1 h2
      rw [SocketTable.searchPort]
      by_cases hu : t.portInUse p = true
      · rw [if_pos hu]
        obtain ⟨h3, h4⟩ := nextPort_range h1
        obtain ⟨h5, h6, h7⟩ := ih _ h3 h4
        refine ⟨h5, h6, ?_⟩
        rintro ⟨k, hk, hfree⟩
        cases k with
        | zero =>
          have h0 : candidate p 0 = p := by
            unfold candidate
            simp only [u16Max, ephemeralBase] at *
            omega
          rw [h0, hu] at hfree
          exact absurd hfree (by simp)
        | succ k =>
          refine h7 ⟨k, by omega, ?_⟩
          rw [candidate_next h1 h2]
          exact hfree
      · rw [if_neg hu]
        exact ⟨h1, h2, fun _ => by simpa using hu⟩

/-- Of 33 candidates the sockets can hold at most 32. -/
theorem exists_free_candidate (p : ℕ) :
    ∃ k < 33, t.portInUse (candidate p k) = false := by
  by_contra hall
  push Not at hall
  have hheld : ∀ k : Fin 33, ∃ i : Fin maxSockets,
      (t.slots i).any (·.localPort = candidate p k) = true := by
    intro k
    have hu : t.portInUse (candidate p k) = true := by simpa using hall k k.2
    obtain ⟨i, hi, hany⟩ := List.any_eq_true.mp hu
    exact ⟨⟨i, List.mem_range.mp hi⟩, hany⟩
  choose f hf using hheld
  obtain ⟨a, b, hne, he⟩ := Fintype.exists_ne_map_eq_of_card_lt f (by simp)
  have ha := hf a
  have hb := hf b
  rw [he] at ha
  cases hs : t.slots (f b) with
  | none => simp [hs] at ha
  | some s =>
    rw [hs, Option.any_some, decide_eq_true_eq] at ha hb
    exact hne (Fin.ext (candidate_inj a.2 b.2 (ha.symm.trans hb)))

/-- The ephemeral search finds a port that no socket holds. -/
theorem search_free (h : Ports t) :
    ephemeralBase ≤ t.searchPort (u16Max - ephemeralBase) t.nextEphemeral ∧
      t.searchPort (u16Max - ephemeralBase) t.nextEphemeral < u16Max ∧
      t.portInUse (t.searchPort (u16Max - ephemeralBase) t.nextEphemeral) = false := by
  obtain ⟨h1, h2, h3⟩ := searchPort_spec (t := t) (u16Max - ephemeralBase) t.nextEphemeral h.low h.high
  obtain ⟨k, hk, hfree⟩ := exists_free_candidate (t := t) t.nextEphemeral
  refine ⟨h1, h2, h3 ⟨k, ?_, hfree⟩⟩
  simp only [u16Max, ephemeralBase]
  omega

end Search

/-! ### Uniqueness of ports -/

section Changes

variable {t t' : SocketTable}

/-- Binding a free port, or not binding at all. -/
theorem bind_cases (h : Ports t) (idx port : ℕ) :
    (t.bind idx port).1 = none ∧ SocketChange t (t.bind idx port).2 ∨
      ∃ s p next, t.slots idx = some s ∧ idx < maxSockets ∧ t.portInUse p = false ∧ p ≠ 0 ∧
        (port ≠ 0 → p = port) ∧ (port = 0 → ephemeralBase ≤ p ∧ p < u16Max) ∧
        (next = t.nextEphemeral ∨ ephemeralBase ≤ next ∧ next < u16Max) ∧
        t.bind idx port = (some p, { t with nextEphemeral := next }.setSlot idx
          (some { s with localPort := p })) := by
  obtain ⟨hlow, hhigh, hfree⟩ := search_free h
  obtain ⟨hlow', hhigh'⟩ := nextPort_range hlow
  unfold SocketTable.bind
  by_cases hused : port ≠ 0 ∧ t.portInUse port = true
  · rw [if_pos hused]
    exact .inl ⟨rfl, .none⟩
  rw [if_neg hused]
  dsimp only
  by_cases h0 : port = 0
  · rw [if_pos h0, if_pos h0]
    by_cases hlt : idx < maxSockets
    · rw [if_pos hlt]
      dsimp only
      cases hs : t.slots idx with
      | none => exact .inl ⟨rfl, .skip hlow' hhigh'⟩
      | some s =>
        refine .inr ⟨s, _, _, rfl, hlt, hfree, ?_, fun hne => absurd h0 hne, fun _ => ⟨hlow, hhigh⟩,
          .inr ⟨hlow', hhigh'⟩, rfl⟩
        exact Nat.ne_of_gt (lt_of_lt_of_le (by decide) hlow)
    · rw [if_neg hlt]
      exact .inl ⟨rfl, .skip hlow' hhigh'⟩
  · rw [if_neg h0, if_neg h0]
    have hun : t.portInUse port = false := by
      by_contra hne
      exact hused ⟨h0, by simpa using hne⟩
    by_cases hlt : idx < maxSockets
    · rw [if_pos hlt]
      cases hs : t.slots idx with
      | none => exact .inl ⟨rfl, .none⟩
      | some s =>
        exact .inr ⟨s, port, t.nextEphemeral, rfl, hlt, hun, h0, fun _ => rfl, fun he => absurd he h0,
          .inl rfl, rfl⟩
    · rw [if_neg hlt]
      exact .inl ⟨rfl, .none⟩

theorem alloc_change (t : SocketTable) : SocketChange t (t.apply .alloc) := by
  change SocketChange t ((t.alloc.map (·.2)).getD t)
  unfold SocketTable.alloc
  cases hf : (List.range maxSockets).find? fun i => (t.slots i).isNone with
  | none => exact .none
  | some idx =>
    have hnone := List.find?_some hf
    have hmem := List.mem_of_find?_eq_some hf
    exact .alloc (List.mem_range.mp hmem) (by simpa using hnone)

theorem deliver_change (t : SocketTable) (port : ℕ) (d : Datagram) :
    SocketChange t (t.deliver port d) := by
  unfold SocketTable.deliver
  cases hf : (List.range maxSockets).find? fun i => (t.slots i).any (·.localPort = port) with
  | none => exact .none
  | some idx =>
    dsimp only
    cases hs : t.slots idx with
    | none => exact .none
    | some s =>
      dsimp only
      split_ifs
      · exact .queue hs
      · exact .none

theorem recv_change (t : SocketTable) (idx : ℕ) : SocketChange t (t.recv idx).2 := by
  unfold SocketTable.recv
  split_ifs
  · cases hs : t.slots idx with
    | none => exact .none
    | some s =>
      dsimp only
      cases hrx : s.rx with
      | nil => exact .none
      | cons d rest => exact .queue hs
  · exact .none

/-- Every operation is one of the changes. -/
theorem apply_change (h : Ports t) (op : SocketOp) : SocketChange t (t.apply op) := by
  cases op with
  | alloc => exact alloc_change t
  | free idx =>
    change SocketChange t (t.free idx)
    unfold SocketTable.free
    split_ifs
    · exact .free
    · exact .none
  | bind idx port =>
    change SocketChange t (t.bind idx port).2
    rcases bind_cases h idx port with ⟨-, hc⟩ | ⟨s, p, next, hs, hlt, hun, hp, -, -, hnext, he⟩
    · exact hc
    · rw [he]
      exact .bind hlt hs hun hp hnext
  | deliver port d => exact deliver_change t port d
  | recv idx => exact recv_change t idx

/-- One slot gets a socket whose port is free, unbound or the old one. -/
theorem Ports.setSlot (h : Ports t) {idx : ℕ} {s : UdpSocket} (hlt : idx < maxSockets)
    (hport : s.localPort = 0 ∨ t.portInUse s.localPort = false ∨
      ∃ s0, t.slots idx = some s0 ∧ s0.localPort = s.localPort)
    (hslots : ∀ i, t'.slots i = if i = idx then some s else t.slots i)
    (hlow : ephemeralBase ≤ t'.nextEphemeral) (hhigh : t'.nextEphemeral < u16Max) : Ports t' := by
  -- another socket does not hold the port of the new one
  have hother : ∀ j s', j ≠ idx → t.slots j = some s' → s'.localPort = s.localPort →
      s.localPort ≠ 0 → False := by
    intro j s' hj hs' he hne
    rcases hport with h0 | hun | ⟨s0, hs0, he0⟩
    · exact hne h0
    · exact (portInUse_eq_false h _).mp hun j s' hs' he
    · exact hj (h.distinct j idx s' s0 hs' hs0 (he.trans he0.symm) (by rw [he]; exact hne))
  refine ⟨fun i s' hs' => ?_, fun i j a b ha hb he hne => ?_, hlow, hhigh⟩
  · rw [hslots] at hs'
    split_ifs at hs' with hi
    · rw [hi]
      exact hlt
    · exact h.bound i s' hs'
  · rw [hslots] at ha hb
    split_ifs at ha hb with hi hj hj
    · rw [hi, hj]
    · obtain rfl := Option.some.inj ha
      exact (hother j b hj hb he.symm hne).elim
    · obtain rfl := Option.some.inj hb
      exact (hother i a hi ha he (by rw [← he]; exact hne)).elim
    · exact h.distinct i j a b ha hb he hne

theorem Ports.change (h : Ports t) (hc : SocketChange t t') : Ports t' := by
  cases hc with
  | none => exact h
  | alloc hlt _ => exact h.setSlot hlt (.inl rfl) (fun i => rfl) h.low h.high
  | @free idx =>
    have hsub : ∀ i s, (t.setSlot idx none).slots i = some s → t.slots i = some s := by
      intro i s hs
      change (if i = idx then none else t.slots i) = some s at hs
      split_ifs at hs
      exact hs
    exact ⟨fun i s hs => h.bound i s (hsub i s hs),
      fun i j a b ha hb => h.distinct i j a b (hsub i a ha) (hsub j b hb), h.low, h.high⟩
  | skip hlow hhigh => exact ⟨h.bound, h.distinct, hlow, hhigh⟩
  | bind hlt hs hun _ hnext =>
    refine h.setSlot hlt (.inr (.inl hun)) (fun i => rfl) ?_ ?_
    · rcases hnext with rfl | ⟨h1, -⟩
      · exact h.low
      · exact h1
    · rcases hnext with rfl | ⟨-, h2⟩
      · exact h.high
      · exact h2
  | @queue idx s rx hs =>
    exact h.setSlot (s := { s with rx := rx }) (h.bound _ _ hs) (.inr (.inr ⟨s, hs, rfl⟩))
      (fun i => rfl) h.low h.high

end Changes

theorem ports_empty : Ports SocketTable.empty :=
  ⟨fun _ _ h => by simp [SocketTable.empty] at h, fun _ _ _ _ h => by simp [SocketTable.empty] at h,
    le_rfl, by decide⟩

theorem ports_run (ops : List SocketOp) : Ports (SocketTable.run ops) := by
  unfold SocketTable.run
  induction ops using List.reverseRecOn with
  | nil => exact ports_empty
  | append_singleton ops op ih =>
      rw [List.foldl_append]
      exact ih.change (apply_change ih op)

/-- In every reachable table ports are unique, the ephemeral counter is in its
range, and an ephemeral bind gives any allocated socket a port of the range that
nobody held. -/
theorem ports_reachable (ops : List SocketOp) :
    (∀ i j s s', (SocketTable.run ops).slots i = some s → (SocketTable.run ops).slots j = some s' →
      s.localPort = s'.localPort → s.localPort ≠ 0 → i = j) ∧
    49152 ≤ (SocketTable.run ops).nextEphemeral ∧ (SocketTable.run ops).nextEphemeral ≤ 65534 ∧
    ∀ idx s, (SocketTable.run ops).slots idx = some s →
      ∃ p, ((SocketTable.run ops).bind idx 0).1 = some p ∧ 49152 ≤ p ∧ p ≤ 65534 ∧
        (∀ i s', (SocketTable.run ops).slots i = some s' → s'.localPort ≠ p) ∧
        ((SocketTable.run ops).bind idx 0).2.localPort idx = p := by
  have h := ports_run ops
  have hlow := h.low
  have hhigh := h.high
  refine ⟨h.distinct, hlow, by simp only [u16Max] at hhigh; omega, fun idx s hs => ?_⟩
  rcases bind_cases h idx 0 with ⟨hnone, -⟩ | ⟨s', p, next, hs', hlt, hun, hp, -, hrange, -, he⟩
  · obtain ⟨hlow', hhigh', -⟩ := search_free h
    unfold SocketTable.bind at hnone
    rw [if_neg (by simp)] at hnone
    dsimp only at hnone
    rw [if_pos (h.bound idx s hs)] at hnone
    simp [hs] at hnone
  · obtain ⟨h1, h2⟩ := hrange rfl
    rw [he]
    refine ⟨p, rfl, h1, by simp only [u16Max] at h2; omega, (portInUse_eq_false h p).mp hun, ?_⟩
    simp [SocketTable.localPort, SocketTable.setSlot, hlt]

/-! ### Who gets a datagram -/

/-- A table with the port that the last successful bind gave to each socket. The
sockets are named by their serials; this is history only. -/
structure Bindings where
  table : SocketTable
  ports : ℕ → Option ℕ

namespace Bindings

def start : Bindings := ⟨SocketTable.empty, fun _ => none⟩

/-- One operation, with its effect on the history. -/
def apply (b : Bindings) (op : SocketOp) : Bindings where
  table := b.table.apply op
  ports :=
    match op with
    | .bind idx port =>
      match (b.table.bind idx port).1, b.table.slots idx with
      | some p, some s => Function.update b.ports s.serial (some p)
      | _, _ => b.ports
    | _ => b.ports

end Bindings

/-- The socket table of a machine takes a step. -/
def BindingStep (op : SocketOp) (b b' : Bindings) : Prop := b' = b.apply op

/-- A datagram for port 0 comes only while every socket has a port. -/
def Addressed (op : SocketOp) (b : Bindings) : Prop :=
  ∀ port d, op = .deliver port d → port = 0 → ∀ i s, b.table.slots i = some s → s.localPort ≠ 0

/-- What is queued came to a port of the socket's own. -/
def QueuesOwned (b : Bindings) : Prop :=
  ∀ i s, b.table.slots i = some s → b.ports s.serial = none → s.rx = []

/-- A datagram changes the queue of no socket but the one bound to its port. -/
def DeliversToOwner (b : Bindings) (port : ℕ) (d : Datagram) : Prop :=
  ∀ i s s', b.table.slots i = some s → (b.table.deliver port d).slots i = some s' → s'.rx ≠ s.rx →
    b.ports s.serial = some port ∧ s.localPort = port

/-- The history and the table agree. -/
structure Bound (b : Bindings) : Prop where
  ports : Ports b.table
  serial_lt : ∀ i s, b.table.slots i = some s → s.serial < b.table.nextSerial
  serial_inj : ∀ i j s s', b.table.slots i = some s → b.table.slots j = some s' →
    s.serial = s'.serial → i = j
  future : ∀ n, b.table.nextSerial ≤ n → b.ports n = none
  unbound : ∀ i s, b.table.slots i = some s → b.ports s.serial = none → s.localPort = 0 ∧ s.rx = []
  owner : ∀ i s p, b.table.slots i = some s → b.ports s.serial = some p → s.localPort = p ∧ p ≠ 0

section Delivery

variable {b : Bindings}

/-- The one slot that a delivery changes. -/
theorem deliver_slot {t : SocketTable} {port : ℕ} {d : Datagram} {i : ℕ} {s s' : UdpSocket}
    (hs : t.slots i = some s) (hs' : (t.deliver port d).slots i = some s') :
    s' = s ∨ s.localPort = port ∧ s' = { s with rx := s.rx ++ [d] } := by
  unfold SocketTable.deliver at hs'
  cases hf : (List.range maxSockets).find? fun i => (t.slots i).any (·.localPort = port) with
  | none =>
    rw [hf] at hs'
    exact .inl (Option.some.inj (hs'.symm.trans hs))
  | some idx =>
    rw [hf] at hs'
    dsimp only at hs'
    have hany := List.find?_some hf
    cases hq : t.slots idx with
    | none => simp [hq] at hany
    | some q =>
      rw [hq] at hs' hany
      have hport : q.localPort = port := by simpa using hany
      dsimp only at hs'
      split_ifs at hs'
      · change (if i = idx then _ else t.slots i) = some s' at hs'
        split_ifs at hs' with hi
        · rw [hi, hq] at hs
          obtain rfl := Option.some.inj hs
          exact .inr ⟨hport, (Option.some.inj hs').symm⟩
        · exact .inl (Option.some.inj (hs'.symm.trans hs))
      · exact .inl (Option.some.inj (hs'.symm.trans hs))

/-- A delivery to an addressed port meets only the owner. -/
theorem Bound.delivers (h : Bound b) {port : ℕ} {d : Datagram}
    (ha : Addressed (.deliver port d) b) : DeliversToOwner b port d := by
  intro i s s' hs hs' hne
  rcases deliver_slot hs hs' with rfl | ⟨hport, -⟩
  · exact absurd rfl hne
  · cases hp : b.ports s.serial with
    | none =>
      obtain ⟨h0, -⟩ := h.unbound i s hs hp
      exact absurd h0 (ha port d rfl (hport.symm.trans h0) i s hs)
    | some p =>
      obtain ⟨rfl, -⟩ := h.owner i s p hs hp
      exact ⟨by rw [hport], hport⟩

/-- Slots that keep serial, port and queue keep what the history says of them. -/
theorem Bound.frame (h : Bound b) {t' : SocketTable} (hp : Ports t')
    (hn : t'.nextSerial = b.table.nextSerial)
    (hslots : ∀ i s', t'.slots i = some s' → ∃ s, b.table.slots i = some s ∧ s'.serial = s.serial ∧
      s'.localPort = s.localPort ∧ (b.ports s.serial = none → s'.rx = s.rx ∨ s'.rx = [])) :
    Bound ⟨t', b.ports⟩ := by
  refine ⟨hp, fun i s' hs' => ?_, fun i j s' r' hs' hr' he => ?_, fun n hle => h.future n (hn ▸ hle),
    fun i s' hs' hnone => ?_, fun i s' p hs' hsome => ?_⟩
  · obtain ⟨s, hs, he, -⟩ := hslots i s' hs'
    change s'.serial < t'.nextSerial
    rw [he, hn]
    exact h.serial_lt i s hs
  · obtain ⟨s, hs, hes, -⟩ := hslots i s' hs'
    obtain ⟨r, hr, her, -⟩ := hslots j r' hr'
    exact h.serial_inj i j s r hs hr (by rw [← hes, ← her, he])
  · obtain ⟨s, hs, he, hport, hrx⟩ := hslots i s' hs'
    change b.ports s'.serial = none at hnone
    rw [he] at hnone
    obtain ⟨h1, h2⟩ := h.unbound i s hs hnone
    rw [hport, h1]
    rcases hrx hnone with h3 | h3
    · exact ⟨rfl, by rw [h3, h2]⟩
    · exact ⟨rfl, h3⟩
  · obtain ⟨s, hs, he, hport, -⟩ := hslots i s' hs'
    change b.ports s'.serial = some p at hsome
    rw [he] at hsome
    rw [hport]
    exact h.owner i s p hs hsome

theorem Bound.alloc (h : Bound b) : Bound (b.apply .alloc) := by
  have hp : Ports (b.table.apply .alloc) := h.ports.change (apply_change h.ports _)
  unfold Bindings.apply SocketTable.apply SocketTable.alloc at *
  dsimp only at *
  cases hf : (List.range maxSockets).find? fun i => (b.table.slots i).isNone with
  | none => exact h
  | some idx =>
    rw [hf] at hp
    have hfree : b.table.slots idx = none := by simpa using List.find?_some hf
    have hslots : ∀ i s, (b.table.setSlot idx (some ⟨0, [], b.table.nextSerial⟩)).slots i = some s →
        s = ⟨0, [], b.table.nextSerial⟩ ∧ i = idx ∨ b.table.slots i = some s ∧ i ≠ idx := by
      intro i s hs
      change (if i = idx then _ else b.table.slots i) = some s at hs
      split_ifs at hs with hi
      · exact .inl ⟨(Option.some.inj hs).symm, hi⟩
      · exact .inr ⟨hs, hi⟩
    refine ⟨hp, fun i s hs => ?_, fun i j s r hs hr he => ?_, fun n hn => ?_, fun i s hs hnone => ?_,
      fun i s p hs hsome => ?_⟩
    · change s.serial < b.table.nextSerial + 1
      rcases hslots i s hs with ⟨rfl, -⟩ | ⟨hs, -⟩
      · exact Nat.lt_succ_self _
      · have := h.serial_lt i s hs
        omega
    · rcases hslots i s hs with ⟨rfl, hi⟩ | ⟨hs1, -⟩ <;> rcases hslots j r hr with ⟨rfl, hj⟩ | ⟨hr1, -⟩
      · rw [hi, hj]
      · have hlt := h.serial_lt j r hr1
        rw [← he] at hlt
        exact absurd hlt (lt_irrefl _)
      · have hlt := h.serial_lt i s hs1
        rw [he] at hlt
        exact absurd hlt (lt_irrefl _)
      · exact h.serial_inj i j s r hs1 hr1 he
    · change b.table.nextSerial + 1 ≤ n at hn
      exact h.future n (by omega)
    · rcases hslots i s hs with ⟨rfl, -⟩ | ⟨hs, -⟩
      · exact ⟨rfl, rfl⟩
      · exact h.unbound i s hs hnone
    · rcases hslots i s hs with ⟨rfl, -⟩ | ⟨hs, -⟩
      · change b.ports b.table.nextSerial = some p at hsome
        rw [h.future _ le_rfl] at hsome
        exact absurd hsome (by simp)
      · exact h.owner i s p hs hsome

theorem Bound.bind (h : Bound b) (idx port : ℕ) : Bound (b.apply (.bind idx port)) := by
  have hp : Ports (b.table.bind idx port).2 :=
    h.ports.change (apply_change h.ports (.bind idx port))
  rcases bind_cases h.ports idx port with ⟨hnone, -⟩ |
    ⟨s, p, next, hs, hlt, hun, hp0, -, -, -, he⟩
  · have hports : (b.apply (.bind idx port)).ports = b.ports := by
      simp only [Bindings.apply, hnone]
    have hsame : ∀ i, (b.table.bind idx port).2.slots i = b.table.slots i := by
      intro i
      unfold SocketTable.bind at hnone ⊢
      by_cases hu : port ≠ 0 ∧ b.table.portInUse port = true
      · rw [if_pos hu]
      rw [if_neg hu] at hnone ⊢
      dsimp only at hnone ⊢
      generalize ht : (if port = 0 then _ else b.table) = t' at hnone ⊢
      have hslots : t'.slots = b.table.slots := by
        rw [← ht]
        split_ifs <;> rfl
      by_cases hlt : idx < maxSockets
      · rw [if_pos hlt] at hnone ⊢
        cases hs : t'.slots idx with
        | none => rw [hslots]
        | some s => simp [hs] at hnone
      · rw [if_neg hlt, hslots]
    have hser : (b.table.bind idx port).2.nextSerial = b.table.nextSerial :=
      (SocketTable.bind_sameAlloc b.table idx port).2
    have hb := h.frame hp hser fun i s' hs' => ⟨s', by rw [← hsame]; exact hs', rfl, rfl, fun _ => .inl rfl⟩
    rw [← hports] at hb
    exact hb
  · have hports : (b.apply (.bind idx port)).ports = Function.update b.ports s.serial (some p) := by
      simp only [Bindings.apply, he, hs]
    have htable : (b.apply (.bind idx port)).table =
        { b.table with nextEphemeral := next }.setSlot idx (some { s with localPort := p }) := by
      change (b.table.bind idx port).2 = _
      rw [he]
    have hslots : ∀ i r, (b.apply (.bind idx port)).table.slots i = some r →
        r = { s with localPort := p } ∧ i = idx ∨
          b.table.slots i = some r ∧ r.serial ≠ s.serial := by
      intro i r hr
      rw [htable] at hr
      change (if i = idx then _ else b.table.slots i) = some r at hr
      split_ifs at hr with hi
      · exact .inl ⟨(Option.some.inj hr).symm, hi⟩
      · exact .inr ⟨hr, fun hser => hi (h.serial_inj i idx r s hr hs hser)⟩
    refine ⟨hp, fun i r hr => ?_, fun i j r r' hr hr' hser => ?_, fun n hn => ?_,
      fun i r hr hnone => ?_, fun i r q hr hsome => ?_⟩
    · have hn : (b.apply (.bind idx port)).table.nextSerial = b.table.nextSerial := by
        rw [htable]
        rfl
      rw [hn]
      rcases hslots i r hr with ⟨rfl, -⟩ | ⟨hr, -⟩
      · exact h.serial_lt idx s hs
      · exact h.serial_lt i r hr
    · rcases hslots i r hr with ⟨rfl, rfl⟩ | ⟨hr, hne⟩ <;>
        rcases hslots j r' hr' with ⟨rfl, rfl⟩ | ⟨hr', hne'⟩
      · rfl
      · exact absurd hser.symm hne'
      · exact absurd hser hne
      · exact h.serial_inj i j r r' hr hr' hser
    · rw [htable] at hn
      change b.table.nextSerial ≤ n at hn
      have hlt := h.serial_lt idx s hs
      rw [hports, Function.update_of_ne (by omega)]
      exact h.future n hn
    · rw [hports] at hnone
      rcases hslots i r hr with ⟨rfl, -⟩ | ⟨hr, hne⟩
      · simp at hnone
      · rw [Function.update_of_ne hne] at hnone
        exact h.unbound i r hr hnone
    · rw [hports] at hsome
      rcases hslots i r hr with ⟨rfl, -⟩ | ⟨hr, hne⟩
      · simp only [Function.update_self, Option.some.injEq] at hsome
        exact ⟨hsome, hsome ▸ hp0⟩
      · rw [Function.update_of_ne hne] at hsome
        exact h.owner i r q hr hsome

theorem Bound.step (h : Bound b) (op : SocketOp) (ha : Addressed op b) : Bound (b.apply op) := by
  have hp : Ports (b.table.apply op) := h.ports.change (apply_change h.ports op)
  cases op with
  | alloc => exact h.alloc
  | bind idx port => exact h.bind idx port
  | free idx =>
    refine h.frame hp ?_ fun i s' hs' => ⟨s', ?_, rfl, rfl, fun _ => .inl rfl⟩
    · change (b.table.free idx).nextSerial = _
      unfold SocketTable.free
      split_ifs <;> rfl
    · change (b.table.free idx).slots i = some s' at hs'
      unfold SocketTable.free at hs'
      split_ifs at hs'
      · change (if i = idx then none else b.table.slots i) = some s' at hs'
        split_ifs at hs'
        exact hs'
      · exact hs'
  | deliver port d =>
    have hsame := SocketTable.deliver_sameAlloc b.table port d
    refine h.frame hp hsame.2 fun i s' hs' => ?_
    change (b.table.deliver port d).slots i = some s' at hs'
    have hser := hsame.1 i
    rw [hs'] at hser
    cases hs : b.table.slots i with
    | none => simp [hs] at hser
    | some s =>
      rcases deliver_slot hs hs' with rfl | ⟨-, rfl⟩
      · exact ⟨_, rfl, rfl, rfl, fun _ => .inl rfl⟩
      · refine ⟨s, rfl, rfl, rfl, fun hnone => ?_⟩
        have hown := (h.delivers ha i s _ hs hs' (by simp)).1
        exact absurd (hown.symm.trans hnone) (by simp)
  | recv idx =>
    have hsame := SocketTable.recv_sameAlloc b.table idx
    refine h.frame hp hsame.2 fun i s' hs' => ?_
    change (b.table.recv idx).2.slots i = some s' at hs'
    unfold SocketTable.recv at hs'
    split_ifs at hs'
    · cases hs : b.table.slots idx with
      | none =>
        rw [hs] at hs'
        exact ⟨s', hs', rfl, rfl, fun _ => .inl rfl⟩
      | some s =>
        rw [hs] at hs'
        dsimp only at hs'
        cases hrx : s.rx with
        | nil =>
          rw [hrx] at hs'
          exact ⟨s', hs', rfl, rfl, fun _ => .inl rfl⟩
        | cons d rest =>
          rw [hrx] at hs'
          change (if i = idx then _ else b.table.slots i) = some s' at hs'
          split_ifs at hs' with hi
          · obtain rfl := Option.some.inj hs'
            refine ⟨s, hi ▸ hs, rfl, rfl, fun hnone => ?_⟩
            have := (h.unbound idx s hs hnone).2
            simp [hrx] at this
          · exact ⟨s', hs', rfl, rfl, fun _ => .inl rfl⟩
    · exact ⟨s', hs', rfl, rfl, fun _ => .inl rfl⟩

theorem bound_start : Bound Bindings.start :=
  ⟨ports_empty, fun _ _ h => by simp [Bindings.start, SocketTable.empty] at h,
    fun _ _ _ _ h => by simp [Bindings.start, SocketTable.empty] at h, fun _ _ => rfl,
    fun _ _ h => by simp [Bindings.start, SocketTable.empty] at h,
    fun _ _ _ h => by simp [Bindings.start, SocketTable.empty] at h⟩

end Delivery

/-- In a run without a datagram for port 0 that meets an unbound socket, every
datagram goes to the socket bound to its port and unbound sockets stay empty. -/
theorem delivery_reachable {b : Bindings} (hr : Runs BindingStep Addressed Bindings.start b) :
    QueuesOwned b ∧ ∀ port d, Addressed (.deliver port d) b → DeliversToOwner b port d := by
  have h : Bound b := by
    refine hr.invariant bound_start fun op s t ha hn hb => ?_
    rw [hn]
    exact hb.step op ha
  exact ⟨fun i s hs hnone => (h.unbound i s hs hnone).2, fun port d ha => h.delivers ha⟩

/-- A socket is made, bound to port 5000 and sent a datagram. -/
theorem delivery_reachable_bound : ∃ b, Runs BindingStep Addressed Bindings.start b ∧
    ((b.table.slots 0).map (·.rx.length)) = some 1 ∧ QueuesOwned b := by
  have h1 : Runs BindingStep Addressed Bindings.start (Bindings.start.apply .alloc) :=
    (Runs.refl _).snoc (e := .alloc) nofun rfl
  have h2 := h1.snoc (e := .bind 0 5000) nofun rfl
  have h3 := h2.snoc (e := .deliver 5000 ⟨[10, 0, 2, 2], 53, []⟩) (by
    intro port d he h0
    cases he
    exact absurd h0 (by decide)) rfl
  exact ⟨_, h3, rfl, (delivery_reachable h3).1⟩

/-- A datagram for port 0 is queued on a socket that was never bound. -/
theorem delivery_port_zero : ∃ b, Runs BindingStep (fun _ _ => True) Bindings.start b ∧
    ¬ DeliversToOwner b 0 ⟨[10, 0, 2, 2], 53, []⟩ ∧
    ¬ QueuesOwned (b.apply (.deliver 0 ⟨[10, 0, 2, 2], 53, []⟩)) := by
  refine ⟨Bindings.start.apply .alloc, (Runs.refl _).snoc (e := .alloc) trivial rfl, ?_, ?_⟩
  · intro h
    have := (h 0 ⟨0, [], 0⟩ ⟨0, [⟨[10, 0, 2, 2], 53, []⟩], 0⟩ rfl rfl (by simp)).1
    simp [Bindings.apply, Bindings.start] at this
  · intro h
    have := h 0 ⟨0, [⟨[10, 0, 2, 2], 53, []⟩], 0⟩ rfl rfl
    simp at this

end LightOS
