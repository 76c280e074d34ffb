import LightOS.Waiting

/-!
# Socket descriptors and the socket table

Descriptors are copied at fork, but the socket table counts no references: the
first close of a copy frees the socket, and a process that ends frees none. This
module says which closes and exits keep descriptors and sockets in step.
-/
namespace LightOS
open Lib

/-- Descriptor `j` of the live process in slot `i` names socket `idx`, made by the
`serial`-th allocation. -/
def NamedBy (k : Kernel) (i j idx serial : ℕ) : Prop :=
  ∃ p, k.procs.slots i = some p ∧ p.state ≠ .zombie ∧ p.sock j = some (idx, serial)

/-- Some descriptor of a live process names the socket. -/
def Named (k : Kernel) (idx serial : ℕ) : Prop := ∃ i j, NamedBy k i j idx serial

/-- Every descriptor of a live process names the socket it was made for, and a
serial is used once. -/
structure NoDangling (k : Kernel) : Prop where
  live : ∀ idx serial, Named k idx serial →
    ∃ s, k.net.sockets.slots idx = some s ∧ s.serial = serial
  once : ∀ idx s, k.net.sockets.slots idx = some s → s.serial < k.net.sockets.nextSerial

/-- Every allocated socket is named by a descriptor of a live process. -/
def NoLeak (k : Kernel) : Prop :=
  ∀ idx, (k.net.sockets.slots idx).isSome → ∃ serial, Named k idx serial

/-- A socket is closed only through its last descriptor. -/
def ClosesLast (e : Event) (k : Kernel) : Prop :=
  ∀ t io (fd : ℕ) p idx serial, Call e t io .close → toIsize (t.arg 10) = fd → 3 ≤ fd →
    k.procs.slots k.current = some p → p.sock (fd - 3) = some (idx, serial) →
    ∀ i j serial', NamedBy k i j idx serial' → i = k.current ∧ j = fd - 3

/-- A process that ends names no socket that nobody else names. -/
def LeavesNoSocket (e : Event) (k : Kernel) : Prop :=
  Exits e → ∀ j idx serial, NamedBy k k.current j idx serial →
    (k.net.sockets.slots idx).isSome → ∃ i j' serial', i ≠ k.current ∧ NamedBy k i j' idx serial'

section Names

variable {e : Event} {k0 k k' : Kernel} {i : ℕ} {p p' : Process}

/-- The same descriptors name the same sockets. -/
def SameNames (k k' : Kernel) : Prop := ∀ idx serial, Named k' idx serial ↔ Named k idx serial

theorem SameNames.of_slots (h : k'.procs.slots = k.procs.slots) : SameNames k k' := by
  intro idx serial
  simp only [Named, NamedBy, h]

theorem SameNames.trans {k'' : Kernel} (h : SameNames k k') (h' : SameNames k' k'') :
    SameNames k k'' := fun idx serial => (h' idx serial).trans (h idx serial)

/-- A process changes without opening or closing a socket, living or dying. -/
theorem SameNames.update (hp : k.procs.slots i = some p)
    (hslots : k'.procs.slots = (k.setSlot i (some p')).procs.slots)
    (hsock : ∀ j, p'.sock j = p.sock j) (hz : p'.state = .zombie ↔ p.state = .zombie) :
    SameNames k k' := by
  intro idx serial
  constructor
  · rintro ⟨a, j, q, hq, hqz, hqs⟩
    rw [hslots, Kernel.setSlot_slots] at hq
    split_ifs at hq with ha
    · obtain rfl := Option.some.inj hq
      exact ⟨i, j, p, hp, fun h => hqz (hz.mpr h), by rw [← hsock]; exact hqs⟩
    · exact ⟨a, j, q, hq, hqz, hqs⟩
  · rintro ⟨a, j, q, hq, hqz, hqs⟩
    by_cases ha : a = i
    · subst ha
      obtain rfl := Option.some.inj (hp.symm.trans hq)
      exact ⟨a, j, p', by rw [hslots, Kernel.setSlot_self], fun h => hqz (hz.mp h),
        by rw [hsock]; exact hqs⟩
    · exact ⟨a, j, q, by rw [hslots, Kernel.setSlot_slots, if_neg ha]; exact hq, hqz, hqs⟩

/-- A zombie is reaped. -/
theorem SameNames.reap {par child : ℕ} {c q : Process} {m1 m2 : Machine}
    (hr : Reap par child c q m1 m2 k k') (hz : c.state = .zombie) (hq : q.state ≠ .zombie) :
    SameNames k k' := by
  have h1 : SameNames k (k.setSlot par (some { q with state := .ready })) :=
    .update hr.par_slot rfl (fun _ => rfl) ⟨nofun, fun h => absurd h hq⟩
  refine h1.trans fun idx serial => ?_
  have hne : child ≠ par := by
    rintro rfl
    obtain rfl := Option.some.inj (hr.child_slot.symm.trans hr.par_slot)
    exact hq hz
  have hslots : ∀ j, k'.procs.slots j = if j = child then none else
      (k.setSlot par (some { q with state := .ready })).procs.slots j := by
    intro j
    rw [hr.state]
    rfl
  constructor
  · rintro ⟨a, j, r, hr', hrz, hrs⟩
    rw [hslots] at hr'
    split_ifs at hr' with ha
    exact ⟨a, j, r, hr', hrz, hrs⟩
  · rintro ⟨a, j, r, hr', hrz, hrs⟩
    have ha : a ≠ child := by
      rintro rfl
      rw [Kernel.setSlot_slots, if_neg hne] at hr'
      obtain rfl := Option.some.inj (hr.child_slot.symm.trans hr')
      exact hrz hz
    exact ⟨a, j, r, by rw [hslots, if_neg ha]; exact hr', hrz, hrs⟩

/-- A child inherits its parent's descriptors. -/
theorem SameNames.fork {slot r : ℕ} {m : Machine} (hslot : k.procs.position (·.isNone) = some slot)
    (hp : k.procs.slots k.current = some p) (hz : p.state ≠ .zombie) :
    SameNames k (forkState k p slot r m) := by
  obtain ⟨-, hfree⟩ := position_some hslot
  rw [Option.isNone_iff_eq_none] at hfree
  have hslots : (forkState k p slot r m).procs.slots =
      (k.setSlot slot (some (forkChild k p r))).procs.slots := rfl
  intro idx serial
  constructor
  · rintro ⟨a, j, q, hq, hqz, hqs⟩
    rw [hslots, Kernel.setSlot_slots] at hq
    split_ifs at hq with ha
    · obtain rfl := Option.some.inj hq
      exact ⟨k.current, j, p, hp, hz, hqs⟩
    · exact ⟨a, j, q, hq, hqz, hqs⟩
  · rintro ⟨a, j, q, hq, hqz, hqs⟩
    have ha : a ≠ slot := by
      rintro rfl
      simp [hfree] at hq
    exact ⟨a, j, q, by rw [hslots, Kernel.setSlot_slots, if_neg ha]; exact hq, hqz, hqs⟩

/-- The descriptors of a process that ends are gone, and no others. -/
theorem exit_namedBy (ht : Tree k) {code : ℤ} {m1 : Machine} (hx : Exit code p m1 k k')
    {a j idx serial : ℕ} : NamedBy k' a j idx serial ↔ a ≠ k.current ∧ NamedBy k a j idx serial := by
  obtain ⟨ii, -, hii, -⟩ := ht.initSlot_eq
  have hslots := Tree.exit_slots hx a
  rw [hii] at hslots
  have hadopt : ∀ q, (adopt k.current (some ii) q).state = q.state ∧
      (adopt k.current (some ii) q).files = q.files := by
    intro q
    unfold adopt
    split_ifs <;> exact ⟨rfl, rfl⟩
  constructor
  · rintro ⟨q, hq, hqz, hqs⟩
    rw [hslots] at hq
    split_ifs at hq with ha
    · obtain rfl := Option.some.inj hq
      simp at hqz
    · obtain ⟨q0, hq0, rfl⟩ := Option.map_eq_some_iff.mp hq
      obtain ⟨h1, h2⟩ := hadopt q0
      exact ⟨ha, q0, hq0, h1 ▸ hqz, by rw [Process.sock, ← h2]; exact hqs⟩
  · rintro ⟨ha, q, hq, hqz, hqs⟩
    obtain ⟨h1, h2⟩ := hadopt q
    refine ⟨adopt k.current (some ii) q, ?_, by rwa [h1], by rw [Process.sock, h2]; exact hqs⟩
    rw [hslots, if_neg ha, hq]
    rfl

/-- A socket that is opened takes the first empty slot of the table. -/
theorem alloc_spec {st st' : SocketTable} {idx : ℕ} (h : st.alloc = some (idx, st')) :
    idx < maxSockets ∧ st.slots idx = none ∧ st'.nextSerial = st.nextSerial + 1 ∧
      ∀ i, st'.slots i = if i = idx then some ⟨0, [], st.nextSerial⟩ else st.slots i := by
  unfold SocketTable.alloc at h
  obtain ⟨j, hj, he⟩ := Option.map_eq_some_iff.mp h
  obtain ⟨rfl, rfl⟩ := Prod.mk.inj he
  obtain ⟨hm, hn⟩ := find_slot hj
  exact ⟨List.mem_range.mp hm, Option.isNone_iff_eq_none.mp hn, rfl, fun _ => rfl⟩

theorem alloc_none {st : SocketTable} (h : st.alloc = none) {idx : ℕ} (hi : idx < maxSockets) :
    (st.slots idx).isSome := by
  unfold SocketTable.alloc at h
  have hnone := List.find?_eq_none.mp (Option.map_eq_none_iff.mp h) idx (List.mem_range.mpr hi)
  cases hs : st.slots idx with
  | none => simp [hs] at hnone
  | some s => rfl

theorem sock_append {f : OpenFile} (j : ℕ) : { p with files := p.files ++ [some f] }.sock j =
    if j = p.files.length then sockOf (some f) else p.sock j := by
  unfold Process.sock
  rw [List.getElem?_append]
  split_ifs with hl he he
  · omega
  · rfl
  · simp [he]
  · have hout : p.files[j]? = none := List.getElem?_eq_none (by omega)
    have hsing : [some f][j - p.files.length]? = none := List.getElem?_eq_none (by simp; omega)
    rw [hout, hsing]

/-- The new descriptor lands in one place where there was none, and names the new
socket. -/
theorem addFile_socket (p : Process) (idx serial : ℕ) : ∃ n, p.sock n = none ∧
    ∀ j, { p with files := (addFile p.files ⟨.socket idx serial, 0⟩).1 }.sock j =
      if j = n then some (idx, serial) else p.sock j := by
  unfold addFile
  cases hx : p.files.findIdx? (·.isNone) with
  | some n =>
    obtain ⟨hn, hnone, -⟩ := List.findIdx?_eq_some_iff_getElem.mp hx
    refine ⟨n, ?_, fun j => ?_⟩
    · have he : p.files[n]? = some none := by
        rw [List.getElem?_eq_getElem hn]
        simpa using hnone
      simp [Process.sock, he, sockOf]
    · dsimp only
      rw [sock_set]
      simp only [hn, and_true]
      rfl
  | none =>
    refine ⟨p.files.length, ?_, fun j => sock_append j⟩
    simp [Process.sock, sockOf]

/-- How a move changes names and sockets. -/
inductive NameMove (e : Event) (k0 k k' : Kernel) : Prop
  | same (hn : SameNames k k') (hs : k.net.sockets.SameAlloc k'.net.sockets)
  | socket {idx : ℕ} {st : SocketTable} (ha : k.net.sockets.alloc = some (idx, st))
      (hs : k'.net.sockets = st) (hnew : Named k' idx k.net.sockets.nextSerial)
      (hn : ∀ i s, Named k' i s ↔ Named k i s ∨ i = idx ∧ s = k.net.sockets.nextSerial)
  | close {t : UserTrap} {io : Io} {p : Process} {fd idx serial : ℕ} (hc : Call e t io .close)
      (hfd : toIsize (t.arg 10) = fd) (hge : 3 ≤ fd) (hslots : k.procs.slots = k0.procs.slots)
      (hcur : k.current = k0.current) (hp : k.procs.slots k.current = some p)
      (hsock : p.sock (fd - 3) = some (idx, serial))
      (hs : k'.net.sockets = k.net.sockets.free idx)
      (hn : ∀ i j a s, NamedBy k' i j a s ↔ NamedBy k i j a s ∧ ¬ (i = k.current ∧ j = fd - 3))
  | exit (hx : Exits e) (hslots : k.procs.slots = k0.procs.slots) (hcur : k.current = k0.current)
      (hsock : k.net.sockets = k0.net.sockets) (hs : k.net.sockets.SameAlloc k'.net.sockets)
      (hn : ∀ a s, Named k' a s ↔ ∃ i j, i ≠ k.current ∧ NamedBy k i j a s)

theorem SameNames.yield (h : Tree k) : SameNames k (k.setSlot k.current
    ((k.procs.slots k.current).map fun p =>
      if p.state = .running then { p with state := .ready } else p)).idle := by
  cases hp : k.procs.slots k.current with
  | none =>
    rw [Option.map_none, ← hp, Kernel.setSlot_same]
    exact .of_slots rfl
  | some p =>
    obtain ⟨p', hp', hrun⟩ := h.current (h.current_ne hp)
    obtain rfl := Option.some.inj (hp.symm.trans hp')
    rw [Option.map_some, if_pos hrun]
    exact .update hp rfl (fun _ => rfl) (by simp [hrun])

theorem exits_of_code {t : UserTrap} {code : ℤ} (he : e = .trap t)
    (hcode : (∃ io, Call e t io .exit ∧ code = toI32 (t.arg 10)) ∨
      ∃ sc, t.cause = .fault sc ∧ code = -1) : Exits e := by
  refine ⟨t, he, ?_⟩
  rcases hcode with ⟨io, hio, -⟩ | ⟨sc, hsc, -⟩
  · exact .inr ⟨io, hio⟩
  · exact .inl ⟨sc, hsc⟩

theorem Exit.sockets {code : ℤ} {m1 : Machine} (hx : Exit code p m1 k k') : k'.net = k.net := by
  rw [hx.state]
  rfl

theorem Reap.sockets {par child : ℕ} {c q : Process} {m1 m2 : Machine}
    (hr : Reap par child c q m1 m2 k k') : k'.net = k.net := by
  rw [hr.state]
  rfl

/-- The socket call of the current process. -/
theorem NameMove.opens (ht : Tree k) {idx : ℕ} {st : SocketTable}
    (hp : k.procs.slots k.current = some p) (ha : k.net.sockets.alloc = some (idx, st)) :
    NameMove e k0 k ({ k with net := { k.net with sockets := st } }.setSlot k.current
      (some { p with files := (addFile p.files ⟨.socket idx k.net.sockets.nextSerial, 0⟩).1 })) := by
  obtain ⟨p', hp', hrun⟩ := ht.current (ht.current_ne hp)
  obtain rfl := Option.some.inj (hp.symm.trans hp')
  obtain ⟨n, hfree, hsock⟩ := addFile_socket p idx k.net.sockets.nextSerial
  generalize hp2 : { p with files := (addFile p.files ⟨.socket idx _, 0⟩).1 } = p2 at *
  have hz2 : p2.state ≠ .zombie := by
    rw [← hp2]
    simp [hrun]
  have hnew : NamedBy ({ k with net := { k.net with sockets := st } }.setSlot k.current (some p2))
      k.current n idx k.net.sockets.nextSerial :=
    ⟨p2, Kernel.setSlot_self _ _, hz2, by rw [hsock, if_pos rfl]⟩
  refine .socket ha rfl ⟨_, _, hnew⟩ fun i s => ⟨?_, ?_⟩
  · rintro ⟨a, j, q, hq, hqz, hqs⟩
    rw [Kernel.setSlot_slots] at hq
    split_ifs at hq with hacur
    · obtain rfl := Option.some.inj hq
      rw [hsock] at hqs
      split_ifs at hqs with hj
      · obtain ⟨rfl, rfl⟩ := Prod.mk.inj (Option.some.inj hqs)
        exact .inr ⟨rfl, rfl⟩
      · exact .inl ⟨k.current, j, p, hp, by simp [hrun], hqs⟩
    · exact .inl ⟨a, j, q, hq, hqz, hqs⟩
  · rintro (⟨a, j, q, hq, hqz, hqs⟩ | ⟨rfl, rfl⟩)
    · by_cases hacur : a = k.current
      · subst hacur
        obtain rfl := Option.some.inj (hp.symm.trans hq)
        have hj : j ≠ n := by
          rintro rfl
          simp [hfree] at hqs
        exact ⟨k.current, j, p2, Kernel.setSlot_self _ _, hz2, by rw [hsock, if_neg hj]; exact hqs⟩
      · exact ⟨a, j, q, by rw [Kernel.setSlot_slots, if_neg hacur]; exact hq, hqz, hqs⟩
    · exact ⟨_, _, hnew⟩

/-- Closing a socket descriptor of the current process. -/
theorem NameMove.closes (ht : Tree k0) {t : UserTrap} {io : Io} {fd idx serial pos : ℕ}
    (hc : Call e t io .close) (hfd : toIsize (t.arg 10) = fd) (hge : 3 ≤ fd)
    (hp : k0.procs.slots k0.current = some p) (hf : p.file fd = some ⟨.socket idx serial, pos⟩) :
    NameMove e k0 (trapState t k0) ({ trapState t k0 with
      net := { k0.net with sockets := k0.net.sockets.free idx } }.setSlot k0.current
      (some { p with files := p.files.set (fd - 3) none })) := by
  obtain ⟨p', hp', hrun⟩ := ht.current (ht.current_ne hp)
  obtain rfl := Option.some.inj (hp.symm.trans hp')
  have hsock : p.sock (fd - 3) = some (idx, serial) := by
    have hjoin : (p.files[fd - 3]?).join = some ⟨.socket idx serial, pos⟩ := hf
    rw [Process.sock, hjoin]
    rfl
  have hlen : fd - 3 < p.files.length := by
    by_contra hlen
    have hnone : p.files[fd - 3]? = none := List.getElem?_eq_none (by omega)
    simp [Process.sock, hnone, sockOf] at hsock
  have hset : ∀ j, { p with files := p.files.set (fd - 3) none }.sock j =
      if j = fd - 3 then none else p.sock j := by
    intro j
    rw [sock_set]
    simp only [hlen, and_true]
    rfl
  refine .close hc hfd hge rfl rfl hp hsock rfl fun i j a s => ⟨?_, ?_⟩
  · rintro ⟨q, hq, hqz, hqs⟩
    rw [Kernel.setSlot_slots] at hq
    split_ifs at hq with hi
    · obtain rfl := Option.some.inj hq
      rw [hset] at hqs
      split_ifs at hqs with hj
      exact ⟨⟨p, hi ▸ hp, by simp [hrun], hqs⟩, fun h => hj h.2⟩
    · exact ⟨⟨q, hq, hqz, hqs⟩, fun h => hi h.1⟩
  · rintro ⟨⟨q, hq, hqz, hqs⟩, hne⟩
    by_cases hi : i = k0.current
    · subst hi
      obtain rfl := Option.some.inj (hp.symm.trans hq)
      have hj : j ≠ fd - 3 := fun h => hne ⟨rfl, h⟩
      exact ⟨_, Kernel.setSlot_self _ _, by simp [hrun], by rw [hset, if_neg hj]; exact hqs⟩
    · exact ⟨q, by rw [Kernel.setSlot_slots, if_neg hi]; exact hq, hqz, hqs⟩

/-- What each move does to names and sockets. -/
theorem Move.names (ht : Tree k) (he : e.ordinary) (hm : Move e k0 k k') : NameMove e k0 k k' := by
  have alive : ∀ {k : Kernel} {p : Process}, Tree k → k.procs.slots k.current = some p →
      p.state = .running := by
    intro k p ht hp
    obtain ⟨p', hp', hrun⟩ := ht.current (ht.current_ne hp)
    rwa [Option.some.inj (hp.symm.trans hp')]
  cases hm with
  | quiet hq => exact .same (.of_slots (by rw [hq.procs])) hq.sockets
  | own _ hp hown =>
    have hst := (Tree.own_eq hown).2.2
    exact .same (.update hp rfl hown.sock (by rw [hst])) (.refl _)
  | socket _ hp ha => exact .opens ht hp ha
  | close hc hfd hge hp hf =>
    have ht0 : Tree k0 := ht.congr rfl rfl rfl rfl
    exact .closes ht0 hc hfd hge hp hf
  | fork _ hslot hp _ _ _ => exact .same (.fork hslot hp (by simp [alive ht hp])) (.refl _)
  | exec _ hp _ _ _ _ _ => exact .same (.update hp rfl (fun _ => rfl) Iff.rfl) (.refl _)
  | exit he' hcode hx _ =>
    refine .exit (exits_of_code he' hcode) rfl rfl rfl ?_ fun a s => ?_
    · rw [Kernel.idle_net, hx.sockets]
      exact .refl _
    · exact exists_congr fun i => exists_congr fun j => exit_namedBy ht hx
  | exitReap he' hcode hx hw hr =>
    have hc := Tree.exit_slots hx k0.current
    rw [trapState_current, if_pos rfl] at hc
    have hz := Option.some.inj (hc.symm.trans hr.child_slot)
    obtain ⟨-, par, hpar, hsl⟩ := hw
    obtain rfl := Option.some.inj (hpar.symm.trans hr.par_slot)
    refine .exit (exits_of_code he' hcode) rfl rfl rfl ?_ fun a s => ?_
    · rw [Kernel.idle_net, hr.sockets, hx.sockets]
      exact .refl _
    · refine (SameNames.reap hr (by rw [← hz]) (by simp [hsl]) a s).trans ?_
      exact exists_congr fun i => exists_congr fun j => exit_namedBy ht hx
  | @waitReap t _ p c q child _ _ k1 _ hp hz hr =>
    obtain ⟨c0, hc0, -, hzom⟩ := waitScan_zombie hz
    have hne : child ≠ k0.current := by
      rintro rfl
      obtain rfl := Option.some.inj (hp.symm.trans hc0)
      have hrun := alive ht hp
      simp [hzom] at hrun
    have hc := hr.child_slot
    rw [Kernel.setSlot_slots, if_neg hne] at hc
    obtain rfl := Option.some.inj (hc0.symm.trans hc)
    have hq := hr.par_slot
    rw [Kernel.setSlot_self] at hq
    obtain rfl := Option.some.inj hq
    have h1 : SameNames (trapState t k0) ((trapState t k0).setSlot k0.current
        (some (asleep p (t.arg 11)))) :=
      .update hp rfl (fun _ => rfl) ⟨fun h => (by cases h), fun h => by simp [alive ht hp] at h⟩
    have h2 := SameNames.reap hr hzom (by simp [asleep])
    refine .same (h1.trans (h2.trans (.of_slots rfl))) ?_
    rw [Kernel.idle_net, hr.sockets]
    exact .refl _
  | waitBlock _ hp _ =>
    exact .same (.update hp rfl (fun _ => rfl) ⟨fun h => (by cases h), fun h => by simp [alive ht hp] at h⟩) (.refl _)
  | waitNone _ hp _ =>
    exact .same (.update hp rfl (fun _ => rfl) ⟨fun h => (by cases h), fun h => by simp [alive ht hp] at h⟩) (.refl _)
  | block _ _ hp =>
    exact .same (.update hp rfl (fun _ => rfl) ⟨fun h => (by cases h), fun h => by simp [alive ht hp] at h⟩) (.refl _)
  | yield _ _ _ => exact .same (.yield ht) (.refl _)
  | wake hs hp _ _ =>
    obtain ⟨p', hp', hsl⟩ := any_some (position_some hs).2
    obtain rfl := Option.some.inj (hp.symm.trans hp')
    exact .same (.update hp rfl (fun _ => rfl) ⟨fun h => (by cases h), fun h => by simp [h] at hsl⟩) (.refl _)
  | schedule _ hf hp =>
    obtain ⟨p', hp', hst⟩ := picked_some hf
    obtain rfl := Option.some.inj (hp.symm.trans hp')
    exact .same (.update hp rfl (fun _ => rfl) ⟨fun h => (by cases h), fun h => by simp [h] at hst⟩) (.refl _)
  | spawnFail he' _ _ _ => exact absurd he' he.ne_spawn
  | spawn he' _ _ _ _ _ => exact absurd he' he.ne_spawn
  | _ => exact .same (.of_slots rfl) (.refl _)

end Names

/-! ### Descriptors never dangle when only the last one is closed -/

theorem SocketTable.SameAlloc.some {t t' : SocketTable} (h : t.SameAlloc t') {i : ℕ} {s : UdpSocket}
    (hs : t.slots i = some s) : ∃ s', t'.slots i = some s' ∧ s'.serial = s.serial := by
  have h1 := h.1 i
  rw [hs, Option.map_some] at h1
  obtain ⟨s', hs', he⟩ := Option.map_eq_some_iff.mp h1
  exact ⟨s', hs', he⟩

theorem SocketTable.SameAlloc.symm {t t' : SocketTable} (h : t.SameAlloc t') : t'.SameAlloc t :=
  ⟨fun i => (h.1 i).symm, h.2.symm⟩

section Invariants

variable {e : Event} {k0 k k' : Kernel}

theorem NoDangling.move (h : NoDangling k) (hC : ClosesLast e k0) (hm : NameMove e k0 k k') :
    NoDangling k' := by
  obtain ⟨hlive, honce⟩ := h
  -- moves that free nothing and name nothing new
  have kept : (∀ a s, Named k' a s → Named k a s) →
      k.net.sockets.SameAlloc k'.net.sockets → NoDangling k' := by
    intro hn hs
    refine ⟨fun idx serial hnm => ?_, fun idx s hsl => ?_⟩
    · obtain ⟨s, hsl, hser⟩ := hlive idx serial (hn _ _ hnm)
      obtain ⟨s', hs', he⟩ := hs.some hsl
      exact ⟨s', hs', he.trans hser⟩
    · obtain ⟨s', hs', he⟩ := hs.symm.some hsl
      rw [← he, hs.2]
      exact honce idx s' hs'
  cases hm with
  | same hn hs => exact kept (fun a s h => (hn a s).mp h) hs
  | exit _ _ _ _ hs hn =>
    refine kept (fun a s h => ?_) hs
    obtain ⟨i, j, -, hij⟩ := (hn a s).mp h
    exact ⟨i, j, hij⟩
  | @socket idx st ha hs _ hn =>
    obtain ⟨-, hempty, hnext, hslots⟩ := alloc_spec ha
    refine ⟨fun a serial hnm => ?_, fun a s hsl => ?_⟩
    · rw [hs, hslots]
      rcases (hn a serial).mp hnm with hold | ⟨rfl, rfl⟩
      · obtain ⟨s, hsl, hser⟩ := hlive a serial hold
        have ha : a ≠ idx := by
          rintro rfl
          simp [hempty] at hsl
        rw [if_neg ha]
        exact ⟨s, hsl, hser⟩
      · rw [if_pos rfl]
        exact ⟨_, rfl, rfl⟩
    · rw [hs, hslots] at hsl
      rw [hs, hnext]
      split_ifs at hsl
      · rw [← Option.some.inj hsl]
        exact Nat.lt_succ_self _
      · have := honce a s hsl
        omega
  | @close t io p fd idx serial hc hfd hge hslots hcur hp hsock hs hn =>
    have hfree : ∀ a, k'.net.sockets.slots a = if a = idx ∧ idx < maxSockets then none
        else k.net.sockets.slots a := by
      intro a
      rw [hs]
      unfold SocketTable.free
      split_ifs with h1 h2 h2
      · rw [SocketTable.setSlot]
        simp [h2.1]
      · rw [SocketTable.setSlot]
        have : a ≠ idx := fun h => h2 ⟨h, h1⟩
        simp [this]
      · exact absurd h2.2 h1
      · rfl
    have hnext : k'.net.sockets.nextSerial = k.net.sockets.nextSerial := by
      rw [hs]
      unfold SocketTable.free
      split_ifs <;> rfl
    refine ⟨fun a s hnm => ?_, fun a s hsl => ?_⟩
    · obtain ⟨i, j, hij⟩ := hnm
      obtain ⟨hold, hne⟩ := (hn i j a s).mp hij
      -- the descriptor that stays names another socket
      have ha : a ≠ idx := by
        rintro rfl
        have hold' : NamedBy k0 i j a s := by
          unfold NamedBy
          rw [← hslots]
          exact hold
        have hlast := hC t io fd p a serial hc hfd hge (by rw [← hslots, ← hcur]; exact hp) hsock
          i j s hold'
        exact hne ⟨hlast.1.trans hcur.symm, hlast.2⟩
      rw [hfree, if_neg fun h => ha h.1]
      exact hlive a s ⟨i, j, hold⟩
    · rw [hnext]
      rw [hfree] at hsl
      split_ifs at hsl
      exact honce a s hsl

/-- The table has slots up to `maxSockets` only. -/
def SlotsBounded (k : Kernel) : Prop :=
  ∀ idx, (k.net.sockets.slots idx).isSome → idx < maxSockets

theorem SocketTable.SameAlloc.isSome {t t' : SocketTable} (h : t.SameAlloc t') (i : ℕ) :
    (t'.slots i).isSome = (t.slots i).isSome := by
  rw [← @Option.isSome_map _ _ _ (t.slots i), ← h.1 i, Option.isSome_map]

theorem SocketTable.free_isSome {t : SocketTable} {i idx : ℕ} (h : ((t.free i).slots idx).isSome) :
    (t.slots idx).isSome ∧ (idx = i → ¬ i < maxSockets) := by
  unfold SocketTable.free at h
  split_ifs at h with hlt
  · rw [SocketTable.setSlot] at h
    dsimp only at h
    split_ifs at h with he
    · simp at h
    · exact ⟨h, fun h => absurd h he⟩
  · exact ⟨h, fun _ => hlt⟩

theorem SlotsBounded.move (h : SlotsBounded k) (hm : NameMove e k0 k k') : SlotsBounded k' := by
  intro idx hidx
  cases hm with
  | same _ hs => exact h idx (hs.isSome idx ▸ hidx)
  | socket ha hs _ _ =>
    obtain ⟨hlt, -, -, hslots⟩ := alloc_spec ha
    rw [hs, hslots] at hidx
    split_ifs at hidx with hi
    · exact hi ▸ hlt
    · exact h idx hidx
  | close _ _ _ _ _ _ _ hs _ =>
    rw [hs] at hidx
    exact h idx (SocketTable.free_isSome hidx).1
  | exit _ _ _ _ hs _ => exact h idx (hs.isSome idx ▸ hidx)

theorem NoLeak.move (h : NoLeak k) (hb : SlotsBounded k) (hC : LeavesNoSocket e k0)
    (hm : NameMove e k0 k k') : NoLeak k' := by
  intro idx hidx
  cases hm with
  | same hn hs =>
    obtain ⟨serial, hser⟩ := h idx (hs.isSome idx ▸ hidx)
    exact ⟨serial, (hn idx serial).mpr hser⟩
  | @socket i st ha hs hnew hn =>
    obtain ⟨-, -, -, hslots⟩ := alloc_spec ha
    by_cases hi : idx = i
    · exact ⟨_, hi ▸ hnew⟩
    · rw [hs, hslots, if_neg hi] at hidx
      obtain ⟨serial, hser⟩ := h idx hidx
      exact ⟨serial, (hn idx serial).mpr (.inl hser)⟩
  | @close t io p fd i serial hc hfd hge hslots hcur hp hsock hs hn =>
    rw [hs] at hidx
    obtain ⟨hold, hne⟩ := SocketTable.free_isSome hidx
    have hi : idx ≠ i := fun he => hne he (he ▸ hb idx hold)
    obtain ⟨s, i', j', hnm⟩ := h idx hold
    refine ⟨s, i', j', (hn i' j' idx s).mpr ⟨hnm, ?_⟩⟩
    rintro ⟨rfl, rfl⟩
    obtain ⟨q, hq, -, hqs⟩ := hnm
    obtain rfl := Option.some.inj (hp.symm.trans hq)
    rw [hsock] at hqs
    exact hi (Prod.mk.inj (Option.some.inj hqs)).1.symm
  | exit hx hslots hcur hsock hs hn =>
    have hold : (k.net.sockets.slots idx).isSome := hs.isSome idx ▸ hidx
    obtain ⟨serial, i, j, hij⟩ := h idx hold
    have back : ∀ {i j s}, NamedBy k i j idx s ↔ NamedBy k0 i j idx s := by
      intro i j s
      unfold NamedBy
      rw [hslots]
    by_cases hi : i = k.current
    · -- the dying process names it, so somebody else does
      have hij0 : NamedBy k0 k0.current j idx serial := by
        rw [← hcur, ← hi]
        exact back.mp hij
      obtain ⟨i', j', s', hne, hnm⟩ := hC hx j idx serial hij0 (by rw [← hsock]; exact hold)
      exact ⟨s', (hn idx s').mpr ⟨i', j', hcur ▸ hne, back.mpr hnm⟩⟩
    · exact ⟨serial, (hn idx serial).mpr ⟨i, j, hi, hij⟩⟩

end Invariants

section Runs

variable {k0 k : Kernel}

theorem Started.unnamed (h : Started k0) (idx serial : ℕ) : ¬ Named k0 idx serial := by
  obtain ⟨p, -, -, -, hf, hslots⟩ := h.slots
  rintro ⟨i, j, q, hq, -, hs⟩
  rw [hslots] at hq
  split_ifs at hq
  obtain rfl := Option.some.inj hq
  simp [Process.sock, hf, sockOf] at hs

/-- No descriptor dangles in a run that closes sockets only through their last
descriptor. -/
theorem noDangling_reachable (hs : Started k0) (hr : ReachesIf ClosesLast k0 k) : NoDangling k := by
  have h0 : NoDangling k0 := by
    refine ⟨fun idx serial hn => absurd hn (hs.unnamed idx serial), fun idx s h => ?_⟩
    rw [hs.rest.2.2.1] at h
    simp [SocketTable.empty] at h
  refine (hr.invariant (I := fun k => Tree k ∧ NoDangling k) ⟨hs.tree, h0⟩
    fun e s t hc hn h => ?_).2
  exact hn.keeps (I := fun k => Tree k ∧ NoDangling k) h fun _ _ h hm =>
    ⟨h.1.move hc.1 hm, h.2.move hc.2 (hm.names h.1 hc.1)⟩

/-- The socket table after its first allocation. -/
def oneSocket : SocketTable :=
  { SocketTable.empty.setSlot 0 (some ⟨0, [], 0⟩) with nextSerial := 1 }

theorem alloc_empty : SocketTable.empty.alloc = some (0, oneSocket) := rfl

/-- The step meets both conditions on descriptors. -/
def KeepsSockets (e : Event) (k : Kernel) : Prop := ClosesLast e k ∧ LeavesNoSocket e k

theorem Calls.closesLast {t : UserTrap} {io : Io} {no : Sysno} (hc : Calls t io no)
    (hno : no ≠ .close) (k : Kernel) : ClosesLast (.trap t) k := by
  intro t' io' fd p idx serial hc'
  obtain rfl := Event.trap.inj hc'.event
  exact absurd (hc.number.symm.trans hc'.nr) hno

/-- Other calls than close and exit do. -/
theorem Calls.keepsSockets {t : UserTrap} {io : Io} {no : Sysno} (hc : Calls t io no)
    (h1 : no ≠ .close) (h2 : no ≠ .exit) (k : Kernel) : KeepsSockets (.trap t) k :=
  ⟨hc.closesLast h1 k, fun h => absurd h (hc.not_exits h2)⟩

theorem timerTrap_keepsSockets (k : Kernel) : KeepsSockets (.trap timerTrap) k := by
  refine ⟨fun t io fd p idx serial hc => ?_, fun h => absurd h timerTrap_not_exits⟩
  obtain rfl := Event.trap.inj hc.event
  exact absurd hc.cause (by simp [timerTrap])

/-- A descendant of `p` with a descriptor table of its own. -/
def holder (p : Process) (pid parent root : ℕ) (files : List (Option OpenFile)) (st : ProcState) :
    Process :=
  { kid p pid parent root st with files := files }

/-- A descriptor table with one socket, the one in slot 0. -/
def oneFile (serial : ℕ) : List (Option OpenFile) := [some ⟨.socket 0 serial, 0⟩]

section Holders

variable {p a b : Process} {ra rb serial : ℕ}

theorem holder_sock {pid parent root j : ℕ} {st : ProcState} {x : ℕ × ℕ} :
    (holder p pid parent root (oneFile serial) st).sock j = some x ↔ j = 0 ∧ x = (0, serial) := by
  rcases j with _ | j
  · refine ⟨fun h => ⟨rfl, (Option.some.inj h).symm⟩, ?_⟩
    rintro ⟨-, rfl⟩
    rfl
  · refine ⟨fun h => ?_, fun h => absurd h.1 (Nat.succ_ne_zero j)⟩
    cases h

/-- B ends while A has a descriptor of the same socket. -/
theorem Shows.exit_shared (h : Shows k ⟨2, 2, [a, holder p 2 0 ra (oneFile serial) .ready,
    holder p 3 1 rb (oneFile serial) .running]⟩) : KeepsSockets (.trap (callTrap 93 0 0 0)) k := by
  have hexit := callTrap_calls 93 0 0 0 rfl
  refine ⟨hexit.closesLast (by decide) k, fun _ j idx serial' hnm _ => ?_⟩
  obtain ⟨q, hq, -, hqs⟩ := hnm
  rw [h.current, h.slots] at hq
  obtain rfl := Option.some.inj hq
  obtain ⟨rfl, hx⟩ := holder_sock.mp hqs
  obtain ⟨rfl, rfl⟩ := Prod.mk.inj hx
  have hother : 1 ≠ k.current := by
    rw [h.current]
    exact (show 1 ≠ 2 by decide)
  refine ⟨1, 0, _, hother, _, h.slots 1, ?_, holder_sock.mpr ⟨rfl, rfl⟩⟩
  exact (show ProcState.ready ≠ .zombie by decide)

/-- A closes the socket, and the only other descriptor is that of a zombie. -/
theorem Shows.close_last (h : Shows k ⟨1, 1, [a, holder p 2 0 ra (oneFile serial) .running, b]⟩)
    (ha : a.files = []) (hb : b.state = .zombie) : KeepsSockets (.trap (callTrap 57 3 0 0)) k := by
  have hclose := callTrap_calls 57 3 0 0 rfl
  refine ⟨?_, fun h => absurd h (hclose.not_exits (by decide))⟩
  intro t io fd q idx serial' hc hfd _ hq hqs i j serial'' hnm
  obtain rfl := Event.trap.inj hc.event
  obtain rfl : 3 = fd := by
    have : ((3 : ℕ) : ℤ) = fd := hfd
    exact_mod_cast this
  rw [h.current, h.slots] at hq
  obtain rfl := Option.some.inj hq
  obtain ⟨-, hx⟩ := holder_sock.mp hqs
  obtain ⟨rfl, rfl⟩ := Prod.mk.inj hx
  obtain ⟨x, hx, hlive, hxs⟩ := hnm
  rw [h.current]
  rw [h.slots] at hx
  rcases i with _ | _ | _ | i
  · obtain rfl := Option.some.inj hx
    simp [Process.sock, ha, sockOf] at hxs
  · obtain rfl := Option.some.inj hx
    exact ⟨rfl, (holder_sock.mp hxs).1⟩
  · obtain rfl := Option.some.inj hx
    exact absurd hb hlive
  · cases hx

/-- A has no descriptor left when it ends. -/
theorem Shows.exit_closed (h : Shows k ⟨1, 1, [a, holder p 2 0 ra [none] .running, b]⟩) :
    KeepsSockets (.trap (callTrap 93 0 0 0)) k := by
  have hexit := callTrap_calls 93 0 0 0 rfl
  refine ⟨hexit.closesLast (by decide) k, fun _ j idx serial hnm _ => ?_⟩
  obtain ⟨q, hq, -, hqs⟩ := hnm
  rw [h.current, h.slots] at hq
  obtain rfl := Option.some.inj hq
  rcases j with _ | j
  · cases hqs
  · cases hqs

end Holders

/-- Child A of init opens a socket and forks B, and B exits with a copy of the descriptor while
A keeps its own. Then A closes the socket and exits. -/
theorem exists_socketRun : ∃ k0 k k' : Kernel, Started k0 ∧ ReachesIf KeepsSockets k0 k ∧
    (∃ serial, Named k 0 serial) ∧ (k.net.sockets.slots 0).isSome ∧
    (∃ b, k.procs.slots 2 = some b ∧ b.state = .zombie ∧ (b.sock 0).isSome) ∧
    ReachesIf KeepsSockets k k' ∧ k'.net.sockets.slots 0 = none ∧
    ∃ a, k'.procs.slots 1 = some a ∧ a.state = .zombie := by
  obtain ⟨k1, p, hf⟩ := exists_firstRun
  obtain ⟨k0, hs, n1⟩ := hf.start
  have hord (t : UserTrap) : (Event.trap t).ordinary := trivial
  have hidle : (Event.idle none).ordinary := trivial
  have hparent : p.parent ≠ 2 ∧ p.parent ≠ 1 := by
    rw [hf.parent]
    decide
  have hstart : KeepsSockets (.idle none) k0 := by
    refine ⟨fun t io fd q idx serial hc => ?_, ?_⟩
    · cases hc.event
    · rintro ⟨t, he, -⟩
      cases he
  have c1 : ReachesIf KeepsSockets k0 k1 := Runs.snoc (.refl k0) ⟨hidle, hstart⟩ n1
  -- init forks A and loses the hart to it
  have hfork := callTrap_calls 220 0 0 0 rfl
  obtain ⟨k2, ra, n2, r2, -, s2, room2, a2⟩ := hf.shows_.fork hf.reached hfork rfl
    (show 1 < 8 by decide) hf.room
  have c2 := c1.snoc ⟨hord _, hfork.keepsSockets (by decide) (by decide) k1⟩ n2
  have t2 : k2.ticks = 0 := by rw [a2.ticks, hf.ticks]
  obtain ⟨k3, n3, r3, s3, m3, -, e3, t3⟩ := s2.timer r2 (t := timerTrap) rfl rfl hf.state
    (by rw [t2]; decide)
  replace s3 : Shows k3 ⟨1, 1, [{ p with state := .ready }, kid p 2 0 ra .running]⟩ :=
    s3.enters 0 1 [.ready, .ready] rfl rfl (by decide)
  have c3 := c2.snoc ⟨hord _, timerTrap_keepsSockets k2⟩ n3
  -- A opens a socket and forks B
  have ha : k3.net.sockets.alloc = some (0, oneSocket) := by
    rw [e3, a2.sockets, hf.sockets, alloc_empty]
  have hsocket := callTrap_calls 198 2 2 0 rfl
  obtain ⟨k4, n4, r4, s4, m4, e4, t4⟩ := s3.socket r3 hsocket rfl hf.files rfl rfl ha
  obtain ⟨serial, hserial⟩ : ∃ serial, serial = k3.net.sockets.nextSerial := ⟨_, rfl⟩
  rw [← hserial] at s4
  replace s4 : Shows k4 ⟨1, 1, [{ p with state := .ready },
    holder p 2 0 ra (oneFile serial) .running]⟩ := s4
  have c4 := c3.snoc ⟨hord _, hsocket.keepsSockets (by decide) (by decide) k3⟩ n4
  obtain ⟨k5, rb, n5, r5, -, s5, -, a5⟩ := s4.fork r4 hfork rfl (show 2 < 8 by decide)
    ((room2.congr m3).congr m4)
  have c5 := c4.snoc ⟨hord _, hfork.keepsSockets (by decide) (by decide) k4⟩ n5
  -- B exits with its copy
  have t5 : k5.ticks = 1 := by rw [a5.ticks, t4, t3, t2]
  obtain ⟨k6, n6, r6, s6, -, -, e6, t6⟩ := s5.timer r5 (t := timerTrap) rfl rfl rfl
    (by rw [t5]; decide)
  replace s6 : Shows k6 ⟨2, 2, [{ p with state := .ready }, holder p 2 0 ra (oneFile serial) .ready,
    holder p 3 1 rb (oneFile serial) .running]⟩ :=
    s6.enters 1 2 [.ready, .ready, .ready] rfl rfl (by decide)
  have c6 := c5.snoc ⟨hord _, timerTrap_keepsSockets k5⟩ n6
  have hexit := callTrap_calls 93 0 0 0 rfl
  obtain ⟨k7, n7, r7, s7, a7⟩ := s6.exit r6 hexit rfl (show 3 ≠ 1 by decide) rfl hf.pid rfl
    (show ProcState.ready ≠ .sleepChild by decide) (show 1 ≠ 2 by decide)
  have x7 : Shape.exit ⟨2, 2, [{ p with state := .ready }, holder p 2 0 ra (oneFile serial) .ready,
      holder p 3 1 rb (oneFile serial) .running]⟩ (toI32 ((callTrap 93 0 0 0).arg 10)) =
      ⟨2, 2, [{ p with state := .ready }, holder p 2 0 ra (oneFile serial) .ready,
        holder p 3 1 rb (oneFile serial) .zombie]⟩ := by
    simp [Shape.exit, adopt, holder, kid, freshProcess, hparent.1, callTrap, UserTrap.arg, toI32]
  rw [x7] at s7
  replace s7 : Shows k7 ⟨0, 0, [{ p with state := .running }, holder p 2 0 ra (oneFile serial) .ready,
    holder p 3 1 rb (oneFile serial) .zombie]⟩ :=
    s7.enters 2 0 [.ready, .ready, .zombie] rfl rfl (by decide)
  have c7 := c6.snoc ⟨hord _, s6.exit_shared⟩ n7
  have e7 : k7.net.sockets = oneSocket := by rw [a7.sockets, e6, a5.sockets, e4]
  -- A gets the hart back and closes its descriptor
  have t7 : k7.ticks = 2 := by rw [a7.ticks, t6, t5]
  obtain ⟨k8, n8, r8, s8, -, -, e8, -⟩ := s7.timer r7 (t := timerTrap) rfl rfl rfl
    (by rw [t7]; decide)
  replace s8 : Shows k8 ⟨1, 1, [{ p with state := .ready }, holder p 2 0 ra (oneFile serial) .running,
    holder p 3 1 rb (oneFile serial) .zombie]⟩ :=
    s8.enters 0 1 [.ready, .ready, .zombie] rfl rfl (by decide)
  have hclose := callTrap_calls 57 3 0 0 rfl
  obtain ⟨k9, n9, r9, s9, e9⟩ := s8.close r8 hclose rfl rfl rfl
  replace s9 : Shows k9 ⟨1, 1, [{ p with state := .ready }, holder p 2 0 ra [none] .running,
    holder p 3 1 rb (oneFile serial) .zombie]⟩ := s9
  -- with no descriptor left, A exits
  obtain ⟨k10, n10, r10, s10, a10⟩ := s9.exit r9 hexit rfl (show 2 ≠ 1 by decide) rfl hf.pid rfl
    (show ProcState.ready ≠ .sleepChild by decide) (show 0 ≠ 1 by decide)
  have x10 : Shape.exit ⟨1, 1, [{ p with state := .ready }, holder p 2 0 ra [none] .running,
      holder p 3 1 rb (oneFile serial) .zombie]⟩ (toI32 ((callTrap 93 0 0 0).arg 10)) =
      ⟨1, 1, [{ p with state := .ready }, holder p 2 0 ra [none] .zombie,
        holder p 3 0 rb (oneFile serial) .zombie]⟩ := by
    simp [Shape.exit, adopt, holder, kid, freshProcess, hparent.2, callTrap, UserTrap.arg, toI32]
  rw [x10] at s10
  replace s10 := s10.enters 1 0 [.ready, .zombie, .zombie] rfl rfl (by decide)
  have d7 : ReachesIf KeepsSockets k7 k8 :=
    Runs.snoc (.refl k7) ⟨hord _, timerTrap_keepsSockets k7⟩ n8
  have d9 : ReachesIf KeepsSockets k7 k10 := (d7.snoc ⟨hord _, s8.close_last hf.files rfl⟩ n9).snoc
    ⟨hord _, s9.exit_closed⟩ n10
  refine ⟨k0, k7, k10, hs, c7, ⟨_, 1, 0, _, s7.slots 1, ?_, holder_sock.mpr ⟨rfl, rfl⟩⟩, ?_,
    ⟨_, s7.slots 2, rfl, rfl⟩, d9, ?_, _, s10.slots 1, rfl⟩
  · exact (show ProcState.ready ≠ .zombie by decide)
  · rw [e7]
    rfl
  · rw [a10.sockets, e9, e8, e7]
    rfl

/-- A socket with two descriptors, one of a zombie, is closed through the other. -/
theorem noDangling_reachable_close : ∃ k0 k k' : Kernel, Started k0 ∧ ReachesIf ClosesLast k0 k ∧
    (∃ serial, Named k 0 serial) ∧ NoDangling k ∧ ReachesIf ClosesLast k0 k' ∧
    (k.net.sockets.slots 0).isSome ∧ k'.net.sockets.slots 0 = none ∧ NoDangling k' := by
  obtain ⟨k0, k, k', hs, hr, hnamed, hopen, -, hr', hclosed, -⟩ := exists_socketRun
  have h : ReachesIf ClosesLast k0 k := Runs.mono (fun _ _ h => ⟨h.1, h.2.1⟩) hr
  have h' : ReachesIf ClosesLast k0 k' := Runs.mono (fun _ _ h => ⟨h.1, h.2.1⟩) (hr.trans hr')
  exact ⟨k0, k, k', hs, h, hnamed, noDangling_reachable hs h, h', hopen, hclosed,
    noDangling_reachable hs h'⟩

/-- The descriptor of a socket is copied by fork, and the parent closes its copy. -/
theorem noDangling_close_copy : ∃ k0 k, Started k0 ∧ Reaches k0 k ∧ ¬ NoDangling k := by
  obtain ⟨k1, p, hf⟩ := exists_firstRun
  have ha : k1.net.sockets.alloc = some (0, oneSocket) := by rw [hf.sockets, alloc_empty]
  obtain ⟨k2, -, r2, s2, m2, n2, -⟩ := hf.shows_.socket hf.reached (callTrap_calls 198 2 2 0 rfl) rfl
    hf.files rfl rfl ha
  obtain ⟨k3, rc, -, r3, -, s3, -, a3⟩ := s2.fork r2 (callTrap_calls 220 0 0 0 rfl) rfl
    (show 1 < 8 by decide) (hf.room.congr m2)
  obtain ⟨k4, -, r4, s4, n4⟩ := s3.close r3 (callTrap_calls 57 3 0 0 rfl) rfl rfl rfl
  obtain ⟨k0, hs, hr⟩ := r4
  refine ⟨k0, k4, hs, hr.mono fun _ _ h => h.1, fun hno => ?_⟩
  have hnamed : Named k4 0 k1.net.sockets.nextSerial :=
    ⟨1, 0, _, s4.slots 1, by simp [freshProcess], rfl⟩
  obtain ⟨st, hst, -⟩ := hno.live _ _ hnamed
  rw [n4, a3.sockets, n2] at hst
  cases hst

/-- No socket leaks in a run in which a process that ends leaves its sockets to
others, and then the table is full only when all its sockets are in use. -/
theorem noLeak_reachable (hs : Started k0) (hr : ReachesIf LeavesNoSocket k0 k) :
    NoLeak k ∧ (k.net.sockets.alloc = none → ∀ idx, idx < maxSockets →
      ∃ serial, Named k idx serial) := by
  have hempty : ∀ idx, ¬ (k0.net.sockets.slots idx).isSome := by
    intro idx
    rw [hs.rest.2.2.1]
    simp [SocketTable.empty]
  have hinv := hr.invariant (I := fun k => Tree k ∧ SlotsBounded k ∧ NoLeak k)
    ⟨hs.tree, fun idx h => absurd h (hempty idx), fun idx h => absurd h (hempty idx)⟩
    fun e s t hc hn h => hn.keeps (I := fun k => Tree k ∧ SlotsBounded k ∧ NoLeak k) h
      fun _ _ h hm => ⟨h.1.move hc.1 hm, h.2.1.move (hm.names h.1 hc.1),
        h.2.2.move h.2.1 hc.2 (hm.names h.1 hc.1)⟩
  exact ⟨hinv.2.2, fun hfull idx hi => hinv.2.2 idx (alloc_none hfull hi)⟩

/-- B has exited with a descriptor of a socket that A still holds; then A closes the socket and
exits. -/
theorem noLeak_reachable_close : ∃ k0 k k' : Kernel, Started k0 ∧ ReachesIf LeavesNoSocket k0 k ∧
    (k.net.sockets.slots 0).isSome ∧
    (∃ b, k.procs.slots 2 = some b ∧ b.state = .zombie ∧ (b.sock 0).isSome) ∧ NoLeak k ∧
    ReachesIf LeavesNoSocket k0 k' ∧ k'.net.sockets.slots 0 = none ∧
    (∃ a, k'.procs.slots 1 = some a ∧ a.state = .zombie) ∧ NoLeak k' := by
  obtain ⟨k0, k, k', hs, hr, -, hopen, hzombie, hr', hclosed, hgone⟩ := exists_socketRun
  have h : ReachesIf LeavesNoSocket k0 k := Runs.mono (fun _ _ h => ⟨h.1, h.2.2⟩) hr
  have h' : ReachesIf LeavesNoSocket k0 k' := Runs.mono (fun _ _ h => ⟨h.1, h.2.2⟩) (hr.trans hr')
  exact ⟨k0, k, k', hs, h, hopen, hzombie, (noLeak_reachable hs h).1, h', hclosed, hgone,
    (noLeak_reachable hs h').1⟩

/-- A child opens a socket and exits. -/
theorem noLeak_exit_open : ∃ k0 k, Started k0 ∧ Reaches k0 k ∧ ¬ NoLeak k := by
  obtain ⟨k1, p, hf⟩ := exists_firstRun
  obtain ⟨k2, rc, -, r2, -, s2, -, a2⟩ := hf.shows_.fork hf.reached (callTrap_calls 220 0 0 0 rfl) rfl
    (show 1 < 8 by decide) hf.room
  have hticks : k2.ticks + 1 < usizeBound := by
    rw [a2.ticks, hf.ticks]
    decide
  obtain ⟨k3, -, r3, s3, m3, -, n3, t3⟩ := s2.timer r2 (t := timerTrap) rfl rfl hf.state hticks
  replace s3 : Shows k3 ⟨1, 1, [{ p with state := .ready }, kid p 2 0 rc .running]⟩ :=
    s3.enters 0 1 [.ready, .ready] rfl rfl (by decide)
  have ha : k3.net.sockets.alloc = some (0, oneSocket) := by rw [n3, a2.sockets, hf.sockets, alloc_empty]
  obtain ⟨k4, -, r4, s4, m4, n4, -⟩ := s3.socket r3 (callTrap_calls 198 2 2 0 rfl) rfl hf.files rfl rfl ha
  obtain ⟨k5, -, r5, s5, a5⟩ := s4.exit r4 (callTrap_calls 93 0 0 0 rfl) rfl (show 2 ≠ 1 by decide) rfl
    hf.pid rfl (show ProcState.ready ≠ .sleepChild by decide) (show 0 ≠ 1 by decide)
  have hparent : p.parent ≠ 1 := by
    rw [hf.parent]
    decide
  have hexit : Shape.exit ⟨1, 1, [{ p with state := .ready }, { kid p 2 0 rc .running with
      files := [some ⟨.socket 0 k3.net.sockets.nextSerial, 0⟩] }]⟩
      (toI32 ((callTrap 93 0 0 0).arg 10)) =
      ⟨1, 1, [{ p with state := .ready }, { kid p 2 0 rc .zombie with
        files := [some ⟨.socket 0 k3.net.sockets.nextSerial, 0⟩] }]⟩ := by
    simp [Shape.exit, adopt, kid, freshProcess, hparent, callTrap, UserTrap.arg, toI32]
  replace s5 : Shows k5 (Shape.exit ⟨1, 1, [{ p with state := .ready }, { kid p 2 0 rc .running with
      files := [some ⟨.socket 0 k3.net.sockets.nextSerial, 0⟩] }]⟩
      (toI32 ((callTrap 93 0 0 0).arg 10))).park := s5
  rw [hexit] at s5
  replace s5 := s5.enters 1 0 [.ready, .zombie] rfl rfl (by decide)
  obtain ⟨k0, hs, hr⟩ := r5
  refine ⟨k0, k5, hs, hr.mono fun _ _ h => h.1, fun hno => ?_⟩
  obtain ⟨serial, i, j, q, hq, hlive, hsock⟩ := hno 0 (by rw [a5.sockets, n4]; rfl)
  rw [s5.slots] at hq
  -- init has no files, and the other process is a zombie
  rcases i with _ | _ | i
  · obtain rfl := Option.some.inj hq
    simp [Process.sock, hf.files, sockOf] at hsock
  · obtain rfl := Option.some.inj hq
    exact hlive rfl
  · cases hq

end Runs

end LightOS
