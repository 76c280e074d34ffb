import LightOS.Ports
import LightOS.Lib.Fifo

/-!
# The queues of the sockets

Each allocated socket is a first-in first-out queue of at most 16 datagrams. Whatever
happens to the other slots and ports in between, what is read from a socket during its
life is what was delivered to it while there was room, and a slot starts its next life
empty.
-/
namespace LightOS
open Lib

namespace SocketTable

/-- The slot that `deliver` stops at: the first one with the port. -/
def owner (t : SocketTable) (port : ℕ) : Option ℕ :=
  (List.range maxSockets).find? fun i => (t.slots i).any (·.localPort = port)

/-- The queue of the socket in a slot. -/
def queueOf (i : ℕ) (t : SocketTable) : Option (List Datagram) := (t.slots i).map (·.rx)

/-- What an operation delivers to a slot that has room for it. -/
def accepted (i : ℕ) (t : SocketTable) : SocketOp → List Datagram
  | .deliver port d =>
    if t.owner port = some i ∧ ((t.queueOf i).getD []).length < maxBacklog then [d] else []
  | _ => []

/-- What an operation reads from a slot. -/
def returned (i : ℕ) (t : SocketTable) : SocketOp → List Datagram
  | .recv j => if j = i then (t.recv j).1.toList else []
  | _ => []

end SocketTable

section Steps

open SocketTable

variable {t t' : SocketTable} {i j port : ℕ} {s : UdpSocket} {d : Datagram}

theorem setSlot_same (t : SocketTable) (i : ℕ) (s : Option UdpSocket) :
    (t.setSlot i s).slots i = s := if_pos rfl

theorem setSlot_other (t : SocketTable) (s : Option UdpSocket) (h : i ≠ j) :
    (t.setSlot j s).slots i = t.slots i := if_neg h

/-- The slot that a port leads to holds a socket with that port. -/
theorem owner_socket (h : t.owner port = some i) :
    i < maxSockets ∧ ∃ s, t.slots i = some s ∧ s.localPort = port := by
  have hany := List.find?_some h
  have hmem := List.mem_of_find?_eq_some h
  refine ⟨List.mem_range.mp hmem, ?_⟩
  cases hs : t.slots i with
  | none => simp [hs] at hany
  | some s => exact ⟨s, rfl, by simpa [hs] using hany⟩

/-- A port other than 0 leads to the one socket that is bound to it. -/
theorem Ports.owner_eq (h : Ports t) (hs : t.slots i = some s) (hne : s.localPort ≠ 0) :
    t.owner s.localPort = some i := by
  cases ho : t.owner s.localPort with
  | none =>
    have hnot := List.find?_eq_none.mp ho i (List.mem_range.mpr (h.bound i s hs))
    simp [hs] at hnot
  | some j =>
    obtain ⟨-, s', hs', hport⟩ := owner_socket ho
    rw [h.distinct i j s s' hs hs' hport.symm hne]

theorem queueOf_setSlot_same (t : SocketTable) (i : ℕ) (s : Option UdpSocket) :
    (t.setSlot i s).queueOf i = s.map (·.rx) := by
  rw [queueOf, setSlot_same]

theorem queueOf_setSlot_other (t : SocketTable) (s : Option UdpSocket) (h : i ≠ j) :
    (t.setSlot j s).queueOf i = t.queueOf i := by
  rw [queueOf, queueOf, setSlot_other t s h]

/-- A delivery is queued behind what its owner holds, unless that is 16 datagrams. -/
theorem deliver_owner (h : t.owner port = some i) (hs : t.slots i = some s) (d : Datagram) :
    t.deliver port d = if s.rx.length < maxBacklog
      then t.setSlot i (some { s with rx := s.rx ++ [d] }) else t := by
  rw [SocketTable.owner] at h
  unfold SocketTable.deliver
  rw [h]
  dsimp only
  rw [hs]

theorem deliver_nobody (h : t.owner port = none) (d : Datagram) : t.deliver port d = t := by
  rw [SocketTable.owner] at h
  unfold SocketTable.deliver
  rw [h]

theorem deliver_queue (t : SocketTable) (port : ℕ) (d : Datagram) (i : ℕ) :
    (t.deliver port d).queueOf i = (t.queueOf i).map (· ++ t.accepted i (.deliver port d)) := by
  cases ho : t.owner port with
  | none => simp [deliver_nobody ho, accepted, ho]
  | some j =>
    obtain ⟨-, s, hs, -⟩ := owner_socket ho
    rw [deliver_owner ho hs]
    by_cases hi : i = j
    · subst hi
      have hq : t.queueOf i = some s.rx := by rw [queueOf, hs, Option.map_some]
      by_cases hroom : s.rx.length < maxBacklog
      · rw [if_pos hroom, queueOf_setSlot_same, hq, accepted,
          if_pos ⟨ho, by rw [hq]; exact hroom⟩]
        rfl
      · rw [if_neg hroom, hq, accepted, if_neg (fun h => hroom (by rw [hq] at h; exact h.2))]
        simp
    · have hnot : t.accepted i (.deliver port d) = [] := by
        rw [accepted, ho]
        exact if_neg fun h => hi (Option.some.inj h.1).symm
      rw [hnot]
      split_ifs
      · rw [queueOf_setSlot_other _ _ hi]
        simp
      · simp

theorem recv_cases (t : SocketTable) (j : ℕ) :
    t.recv j = (none, t) ∨ ∃ s d rest, t.slots j = some s ∧ s.rx = d :: rest ∧
      t.recv j = (some d, t.setSlot j (some { s with rx := rest })) := by
  unfold SocketTable.recv
  by_cases hj : j < maxSockets
  · rw [if_pos hj]
    cases hs : t.slots j with
    | none => exact .inl rfl
    | some s =>
      dsimp only
      cases hrx : s.rx with
      | nil => exact .inl rfl
      | cons d rest => exact .inr ⟨s, d, rest, rfl, hrx, rfl⟩
  · exact .inl (if_neg hj)

/-- A read takes the head of one queue. -/
theorem recv_conserves (t : SocketTable) (j : ℕ) {q : List Datagram} (hq : t.queueOf i = some q) :
    ∃ q', (t.recv j).2.queueOf i = some q' ∧ q = t.returned i (.recv j) ++ q' := by
  unfold SocketTable.returned
  obtain h | ⟨s, d, rest, hs, hrx, h⟩ := recv_cases t j
  · refine ⟨q, by rw [h]; exact hq, ?_⟩
    dsimp only
    rw [h]
    split_ifs <;> rfl
  · dsimp only
    rw [h]
    by_cases hi : j = i
    · subst hi
      rw [queueOf, hs, Option.map_some, hrx] at hq
      rw [if_pos rfl]
      exact ⟨rest, queueOf_setSlot_same t j _, (Option.some.inj hq).symm⟩
    · rw [if_neg hi]
      refine ⟨q, ?_, rfl⟩
      rw [queueOf_setSlot_other _ _ (Ne.symm hi), hq]

/-- Binding changes no queue. -/
theorem bind_queue (t : SocketTable) (idx port : ℕ) (i : ℕ) :
    (t.bind idx port).2.queueOf i = t.queueOf i := by
  unfold SocketTable.bind
  by_cases hused : port ≠ 0 ∧ t.portInUse port = true
  · rw [if_pos hused]
  rw [if_neg hused]
  dsimp only
  generalize ht : (if port = 0 then _ else t) = t'
  have hslots : t'.slots = t.slots := by
    rw [← ht]
    split_ifs <;> rfl
  by_cases hlt : idx < maxSockets
  · rw [if_pos hlt]
    cases hs : t'.slots idx with
    | none => rw [queueOf, hslots, queueOf]
    | some s =>
      dsimp only
      by_cases hi : i = idx
      · subst hi
        rw [queueOf_setSlot_same, queueOf, ← hslots, hs]
        rfl
      · rw [queueOf_setSlot_other _ _ hi, queueOf, hslots, queueOf]
  · rw [if_neg hlt, queueOf, hslots, queueOf]

/-- A new socket has a slot of its own and an empty queue. -/
theorem alloc_queue (h : t.alloc = some (j, t')) :
    t.slots j = none ∧ t'.queueOf j = some [] ∧ ∀ i ≠ j, t'.queueOf i = t.queueOf i := by
  unfold SocketTable.alloc at h
  obtain ⟨idx, hfind, he⟩ := Option.map_eq_some_iff.mp h
  obtain ⟨rfl, rfl⟩ := Prod.mk.inj he
  have hnone := List.find?_some hfind
  refine ⟨by simpa using hnone, ?_, fun i hi => ?_⟩
  · exact queueOf_setSlot_same t idx _
  · exact queueOf_setSlot_other t _ hi

theorem free_queue (t : SocketTable) (hi : i ≠ j) : (t.free j).queueOf i = t.queueOf i := by
  unfold SocketTable.free
  split_ifs
  · exact queueOf_setSlot_other t none hi
  · rfl

/-- Until its socket is freed, an operation conserves what is in a queue. -/
theorem apply_queue (t : SocketTable) {op : SocketOp} (hop : op ≠ .free i) {q : List Datagram}
    (hq : t.queueOf i = some q) : ∃ q', (t.apply op).queueOf i = some q' ∧
      q ++ t.accepted i op = t.returned i op ++ q' := by
  cases op with
  | alloc =>
    change ∃ q', ((t.alloc.map (·.2)).getD t).queueOf i = some q' ∧ q ++ [] = [] ++ q'
    refine ⟨q, ?_, List.append_nil q⟩
    cases ha : t.alloc with
    | none => exact hq
    | some r =>
      obtain ⟨j, t'⟩ := r
      obtain ⟨hnone, -, hother⟩ := alloc_queue ha
      have hi : i ≠ j := by
        rintro rfl
        simp [queueOf, hnone] at hq
      exact (hother i hi).trans hq
  | free j =>
    have hi : i ≠ j := fun h => hop (by rw [h])
    exact ⟨q, (free_queue t hi).trans hq, List.append_nil q⟩
  | bind idx port => exact ⟨q, (bind_queue t idx port i).trans hq, List.append_nil q⟩
  | deliver port d =>
    refine ⟨q ++ t.accepted i (.deliver port d), ?_, rfl⟩
    exact (deliver_queue t port d i).trans (by rw [hq, Option.map_some])
  | recv j =>
    obtain ⟨q', hq', he⟩ := recv_conserves t j hq
    exact ⟨q', hq', (List.append_nil q).trans he⟩

/-- No queue is longer than the backlog. -/
def Bounded (t : SocketTable) : Prop := ∀ i q, t.queueOf i = some q → q.length ≤ maxBacklog

theorem accepted_fits (hb : Bounded t) (op : SocketOp) {q : List Datagram}
    (hq : t.queueOf i = some q) : (q ++ t.accepted i op).length ≤ maxBacklog := by
  have hle := hb i q hq
  unfold SocketTable.accepted
  split
  · split_ifs with hroom
    · rw [hq] at hroom
      have hlt : q.length < maxBacklog := hroom.2
      rw [List.length_append, List.length_singleton]
      omega
    · rw [List.append_nil]
      exact hle
  · rw [List.append_nil]
    exact hle

/-- A slot without a socket is left so, or gets an empty queue. -/
theorem apply_vacant (t : SocketTable) (op : SocketOp) (hq : t.queueOf i = none) :
    (t.apply op).queueOf i = none ∨ (t.apply op).queueOf i = some [] := by
  cases op with
  | alloc =>
    change ((t.alloc.map (·.2)).getD t).queueOf i = none ∨
      ((t.alloc.map (·.2)).getD t).queueOf i = some []
    cases ha : t.alloc with
    | none => exact .inl hq
    | some r =>
      obtain ⟨j, t'⟩ := r
      obtain ⟨-, hnew, hother⟩ := alloc_queue ha
      by_cases hi : i = j
      · exact .inr (hi ▸ hnew)
      · exact .inl ((hother i hi).trans hq)
  | free j =>
    by_cases hi : i = j
    · subst hi
      change (t.free i).queueOf i = none ∨ _
      unfold SocketTable.free
      split_ifs
      · exact .inl (queueOf_setSlot_same t i none)
      · exact .inl hq
    · exact .inl ((free_queue t hi).trans hq)
  | bind idx port => exact .inl ((bind_queue t idx port i).trans hq)
  | deliver port d => exact .inl ((deliver_queue t port d i).trans (by rw [hq, Option.map_none]))
  | recv j =>
    refine .inl ?_
    change (t.recv j).2.queueOf i = none
    have hsome := recv_sameAlloc t j
    have hser := hsome.1 i
    rw [queueOf, Option.map_eq_none_iff] at hq ⊢
    rw [hq] at hser
    simpa using hser

theorem Bounded.apply (hb : Bounded t) (op : SocketOp) : Bounded (t.apply op) := by
  intro i q' hq'
  cases hq : t.queueOf i with
  | none =>
    rcases apply_vacant t op hq with h | h
    · rw [h] at hq'
      cases hq'
    · rw [h] at hq'
      obtain rfl := Option.some.inj hq'
      exact Nat.zero_le _
  | some q =>
    by_cases hop : op = .free i
    · subst hop
      change (t.free i).queueOf i = some q' at hq'
      unfold SocketTable.free at hq'
      split_ifs at hq'
      · rw [queueOf_setSlot_same] at hq'
        cases hq'
      · exact hb i q' hq'
    · obtain ⟨q'', hq'', he⟩ := apply_queue t hop hq
      obtain rfl := Option.some.inj (hq'.symm.trans hq'')
      have hfits := accepted_fits hb op hq
      rw [he, List.length_append] at hfits
      omega

theorem bounded_run (ops : List SocketOp) : Bounded (run ops) := by
  unfold SocketTable.run
  induction ops using List.reverseRecOn with
  | nil =>
      intro i q hq
      simp [queueOf, SocketTable.empty] at hq
  | append_singleton ops op ih =>
      rw [List.foldl_append]
      exact ih.apply op

/-- The life of a socket, up to the operation that frees it. -/
theorem socket_life (h : t.alloc = some (i, t')) {ops : List SocketOp} (hops : .free i ∉ ops) :
    ∃ s, (ops.foldl SocketTable.apply t').slots i = some s ∧
      gathered SocketTable.apply (fun t => t.accepted i) t' ops =
        gathered SocketTable.apply (fun t => t.returned i) t' ops ++ s.rx := by
  obtain ⟨-, hnew, -⟩ := alloc_queue h
  have hstep : ∀ t : SocketTable, (t.queueOf i).isSome → ∀ op ∈ ops,
      ((t.apply op).queueOf i).isSome ∧ (t.queueOf i).getD [] ++ t.accepted i op =
        t.returned i op ++ ((t.apply op).queueOf i).getD [] := by
    intro t ht op hop
    obtain ⟨q, hq⟩ := Option.isSome_iff_exists.mp ht
    obtain ⟨q', hq', he⟩ := apply_queue t (fun h => hops (h ▸ hop)) hq
    rw [hq, hq']
    exact ⟨rfl, he⟩
  obtain ⟨hlast, hbalance⟩ := conserved_run ops hstep t' (by rw [hnew]; rfl)
  obtain ⟨q, hq⟩ := Option.isSome_iff_exists.mp hlast
  obtain ⟨s, hs, rfl⟩ := Option.map_eq_some_iff.mp hq
  refine ⟨s, hs, ?_⟩
  rw [hnew, hq] at hbalance
  exact hbalance

/-- A read of a socket returns the first datagram of its queue, if there is one. -/
theorem recv_head (h : Ports t) (hs : t.slots i = some s) :
    (s.rx = [] → t.recv i = (none, t)) ∧ ∀ d rest, s.rx = d :: rest →
      t.recv i = (some d, t.setSlot i (some { s with rx := rest })) := by
  unfold SocketTable.recv
  rw [if_pos (h.bound i s hs), hs]
  dsimp only
  constructor
  · intro hnil
    rw [hnil]
  · intro d rest hcons
    rw [hcons]

end Steps

/-- The queues in every reachable table: none is longer than 16, a datagram is dropped only
if nobody has its port or the owner holds 16, a port in use leads to its one socket, a read
returns the first datagram of a queue that has one, and until a new socket is freed, what is
read from it is in its order what was delivered to it while it had room, but for the part it
still holds. -/
theorem queue_discipline (ops : List SocketOp) :
    (∀ i s, (SocketTable.run ops).slots i = some s → s.rx.length ≤ 16) ∧
    (∀ i s, (SocketTable.run ops).slots i = some s → s.localPort ≠ 0 →
      (SocketTable.run ops).owner s.localPort = some i) ∧
    (∀ port i d, (SocketTable.run ops).owner port = some i →
      ∃ s, (SocketTable.run ops).slots i = some s ∧ s.localPort = port ∧
        (s.rx.length = 16 ∧ (SocketTable.run ops).deliver port d = SocketTable.run ops ∨
          (SocketTable.run ops).deliver port d =
            (SocketTable.run ops).setSlot i (some { s with rx := s.rx ++ [d] }))) ∧
    (∀ i s, (SocketTable.run ops).slots i = some s →
      (s.rx = [] → (SocketTable.run ops).recv i = (none, SocketTable.run ops)) ∧
      ∀ d rest, s.rx = d :: rest → (SocketTable.run ops).recv i =
        (some d, (SocketTable.run ops).setSlot i (some { s with rx := rest }))) ∧
    ∀ i t', (SocketTable.run ops).alloc = some (i, t') →
      (∃ s, t'.slots i = some s ∧ s.rx = []) ∧
      ∀ ops', .free i ∉ ops' → ∃ s, (ops'.foldl SocketTable.apply t').slots i = some s ∧
        gathered SocketTable.apply (fun t => t.accepted i) t' ops' =
          gathered SocketTable.apply (fun t => t.returned i) t' ops' ++ s.rx := by
  have hle : ∀ i s, (SocketTable.run ops).slots i = some s → s.rx.length ≤ 16 := by
    intro i s hs
    exact bounded_run ops i s.rx (by rw [SocketTable.queueOf, hs, Option.map_some])
  refine ⟨hle, fun i s hs hne => (ports_run ops).owner_eq hs hne, ?_,
    fun i s hs => recv_head (ports_run ops) hs, ?_⟩
  · intro port i d ho
    obtain ⟨-, s, hs, hport⟩ := owner_socket ho
    refine ⟨s, hs, hport, ?_⟩
    have hmax := hle i s hs
    rw [deliver_owner ho hs]
    by_cases hroom : s.rx.length < maxBacklog
    · exact .inr (if_pos hroom)
    · exact .inl ⟨by simp only [maxBacklog] at hroom; omega, if_neg hroom⟩
  · intro i t' ha
    refine ⟨?_, fun ops' hops => socket_life ha hops⟩
    obtain ⟨-, hnew, -⟩ := alloc_queue ha
    obtain ⟨s, hs, he⟩ := Option.map_eq_some_iff.mp hnew
    exact ⟨s, hs, he⟩

/-- Two datagrams for a bound socket come out in the order in which they came in. -/
theorem queue_discipline_two : ∃ t t' : SocketTable,
    SocketTable.run [.alloc, .bind 0 7, .deliver 7 ⟨[10, 0, 2, 2], 9, [1]⟩,
      .deliver 7 ⟨[10, 0, 2, 2], 9, [2]⟩] = t ∧
    t.recv 0 = (some ⟨[10, 0, 2, 2], 9, [1]⟩, t') ∧
    (t'.recv 0).1 = some ⟨[10, 0, 2, 2], 9, [2]⟩ := by
  obtain ⟨-, -, -, hfirst, -⟩ := queue_discipline [.alloc, .bind 0 7,
    .deliver 7 ⟨[10, 0, 2, 2], 9, [1]⟩, .deliver 7 ⟨[10, 0, 2, 2], 9, [2]⟩]
  obtain ⟨-, -, -, hsecond, -⟩ := queue_discipline [.alloc, .bind 0 7,
    .deliver 7 ⟨[10, 0, 2, 2], 9, [1]⟩, .deliver 7 ⟨[10, 0, 2, 2], 9, [2]⟩, .recv 0]
  refine ⟨_, _, rfl, (hfirst 0 _ rfl).2 _ _ rfl, ?_⟩
  exact congrArg Prod.fst ((hsecond 0 _ rfl).2 _ _ rfl)

end LightOS
