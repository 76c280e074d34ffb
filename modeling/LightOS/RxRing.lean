import LightOS.Virtio

/-!
# Exactly-once delivery on the receive ring

At any time the eight descriptor ids are spread over the avail ring, the device's hands,
the used ring and the driver's hand. The two rings hold their parts as windows, so the
wrapping counters tell the parts' lengths, and the frames waiting in the used ring are
those received and not yet handed over.
-/
namespace LightOS.Virtio
open Lib

/-- The id that the driver has consumed and not yet posted again. -/
def PollPc.inHand : PollPc → List ℕ
  | .repost _ id => [id]
  | .publish _ id => [id]
  | _ => []

/-- A used element and the frame it stands for. -/
structure Delivery where
  elem : UsedElem
  frame : List UInt8

/-- The element describes the frame, and the frame is in its buffer. -/
structure Delivery.Ok (rxMem : ℕ) (mem : Mem) (d : Delivery) : Prop where
  len : d.elem.len = netHdrLen + d.frame.length
  pos : 1 ≤ d.frame.length
  fits : netHdrLen + d.frame.length ≤ bufSize
  bytes : readBytes mem (rxMem + d.elem.id * bufSize + netHdrLen) d.frame.length = d.frame

/-- What the driver remembers between two steps of a call. -/
def PcOk (s : RxSystem) (U : List Delivery) : Prop :=
  match s.pc with
  | .load _ => U ≠ []
  | .deliver _ e => ∃ d rest, U = d :: rest ∧ d.elem = e
  | .publish _ id => s.rx.avail.ring (slot s.rx.avail.idx) = id
  | _ => True

/-- A call does not notice that more elements arrive. -/
theorem PcOk.put {s t : RxSystem} {U : List Delivery} (h : PcOk s U) (hpc : t.pc = s.pc)
    (havail : t.rx.avail = s.rx.avail) (d : Delivery) : PcOk t (U ++ [d]) := by
  rw [PcOk, hpc, havail]
  rw [PcOk] at h
  cases hs : s.pc <;> rw [hs] at h
  case load => simp
  case deliver =>
    obtain ⟨d', rest, rfl, he⟩ := h
    exact ⟨d', _, rfl, he⟩
  all_goals exact h

/-- `A` is what the avail ring offers and `U` what waits in the used ring. -/
structure RxInv (rxMem : ℕ) (s : RxSystem) (A : List ℕ) (U : List Delivery) : Prop where
  bufs : ∀ i : Fin queueSize, s.rxBufs i = rxMem + i * bufSize
  desc : ∀ i : Fin queueSize, s.rx.desc i = ⟨rxMem + i * bufSize, bufSize, descFWrite, 0⟩
  seenLt : s.seen < u16Bound
  lastLt : s.rx.lastUsed < u16Bound
  avail : Lib.Window s.rx.avail.ring s.seen A
  availIdx : s.rx.avail.idx = (s.seen + A.length) % u16Bound
  used : Lib.Window s.rx.used.ring s.rx.lastUsed (U.map Delivery.elem)
  usedIdx : s.rx.used.idx = (s.rx.lastUsed + U.length) % u16Bound
  seenIdx : s.seen = (s.rx.used.idx + s.held.length) % u16Bound
  ids : (A ++ s.held ++ U.map (·.elem.id) ++ s.pc.inHand).Perm (List.range queueSize)
  frames : ∀ d ∈ U, d.Ok rxMem s.mem
  history : s.received = s.handed ++ U.map Delivery.frame
  pc : PcOk s U

variable {rxMem : ℕ} {s : RxSystem} {A : List ℕ} {U : List Delivery}

/-- A buffer other than the one that is written keeps its frame. -/
theorem Delivery.Ok.write {mem : Mem} {d : Delivery} (h : d.Ok rxMem mem) {id off : ℕ}
    {bs : List UInt8} (hne : d.elem.id ≠ id) (hfit : off + bs.length ≤ bufSize) :
    d.Ok rxMem (writeBytes mem (rxMem + id * bufSize + off) bs) := by
  refine ⟨h.len, h.pos, h.fits, ?_⟩
  rw [readBytes_congr (writeBytes_agreeOn _ _ _ _ _ ?_), h.bytes]
  have hfits := h.fits
  simp only [bufSize, netHdrLen] at *
  omega

namespace RxInv

theorem nodup (h : RxInv rxMem s A U) :
    (A ++ s.held ++ U.map (·.elem.id) ++ s.pc.inHand).Nodup :=
  h.ids.nodup_iff.mpr List.nodup_range

theorem total (h : RxInv rxMem s A U) :
    A.length + s.held.length + U.length + s.pc.inHand.length = queueSize := by
  have := h.ids.length_eq
  simp only [List.length_append, List.length_map, List.length_range] at this
  exact this

theorem id_lt (h : RxInv rxMem s A U) {d : Delivery} (hd : d ∈ U) : d.elem.id < queueSize := by
  have : d.elem.id ∈ A ++ s.held ++ U.map (·.elem.id) ++ s.pc.inHand := by
    simp only [List.mem_append, List.mem_map]
    exact .inl (.inr ⟨d, hd, rfl⟩)
  exact List.mem_range.mp (h.ids.mem_iff.mp this)

/-- A descriptor in the device's hands does not wait in the used ring. -/
theorem held_ne (h : RxInv rxMem s A U) {id : ℕ} (hid : id ∈ s.held) {d : Delivery}
    (hd : d ∈ U) : d.elem.id ≠ id := by
  rintro rfl
  have hnd := h.nodup
  rw [List.append_assoc, List.append_assoc] at hnd
  have hpart := (List.nodup_append.mp (List.nodup_append.mp hnd).2.1).2.2
  exact hpart _ hid _ (List.mem_append_left _ (List.mem_map_of_mem hd)) rfl

/-- The counters are equal exactly if nothing waits. -/
theorem drained_iff (h : RxInv rxMem s A U) : s.rx.used.idx = s.rx.lastUsed ↔ U = [] := by
  have h1 := h.usedIdx
  have h2 := h.lastLt
  have h3 := h.total
  rw [← List.length_eq_zero_iff]
  simp only [u16Bound, queueSize] at *
  omega

theorem idle_step (h : RxInv rxMem s A U) {n : ℕ} (hpc : s.pc = .idle n) :
    RxInv rxMem s.driver A U := by
  have hs : s.driver = { s with pc := .check 0 } := by rw [RxSystem.driver, hpc]
  have hids := h.ids
  rw [hpc] at hids
  rw [hs]
  exact { h with ids := hids, pc := trivial }

/-- A comparison of counters starts or ends a round of the loop. -/
theorem check_step (h : RxInv rxMem s A U) {count : ℕ} (hpc : s.pc = .check count) :
    RxInv rxMem s.driver A U := by
  have hs : s.driver = { s with
      pc := if s.rx.used.idx = s.rx.lastUsed then .idle count else .load count } := by
    rw [RxSystem.driver, hpc]
  have hids := h.ids
  rw [hpc] at hids
  rw [hs]
  by_cases he : s.rx.used.idx = s.rx.lastUsed
  · rw [if_pos he]
    exact { h with ids := hids, pc := trivial }
  · rw [if_neg he]
    refine { h with ids := hids, pc := ?_ }
    exact fun hU => he (h.drained_iff.mpr hU)

theorem load_step (h : RxInv rxMem s A U) {count : ℕ} (hpc : s.pc = .load count) :
    RxInv rxMem s.driver A U := by
  have hs : s.driver = { s with
      pc := .deliver count (s.rx.used.ring (slot s.rx.lastUsed)) } := by
    rw [RxSystem.driver, hpc]
  have hids := h.ids
  have hne := h.pc
  rw [hpc] at hids
  rw [PcOk, hpc] at hne
  obtain ⟨d, rest, rfl⟩ := List.exists_cons_of_ne_nil hne
  rw [hs]
  exact { h with ids := hids, pc := ⟨d, rest, rfl, h.used.head.symm⟩ }

/-- The step that calls the callback hands over the first waiting frame. -/
theorem deliver_eq {d : Delivery} (h : RxInv rxMem s A (d :: U)) {count : ℕ}
    (hpc : s.pc = .deliver count d.elem) : s.driver =
      { s with handed := s.handed ++ [d.frame], rx := s.rx.bumpLast,
               pc := .repost (count + 1) d.elem.id } := by
  have hd := h.frames d (by simp)
  have hid := h.id_lt (d := d) (by simp)
  have hlen : d.elem.len > netHdrLen ∧ d.elem.id < queueSize := by
    have h1 := hd.len
    have h2 := hd.pos
    exact ⟨by omega, hid⟩
  have hframe : readBytes s.mem (s.rxBufs ⟨d.elem.id, hid⟩ + netHdrLen)
      (d.elem.len - netHdrLen) = d.frame := by
    rw [h.bufs, hd.len, Nat.add_sub_cancel_left]
    exact hd.bytes
  rw [RxSystem.driver, hpc]
  dsimp only
  rw [dif_pos hlen, hframe]

theorem deliver_step {d : Delivery} (h : RxInv rxMem s A (d :: U)) {count : ℕ}
    (hpc : s.pc = .deliver count d.elem) : RxInv rxMem s.driver A U := by
  have hids := h.ids
  rw [hpc] at hids
  have hidx := h.usedIdx
  rw [h.deliver_eq hpc]
  refine { h with lastLt := Nat.mod_lt _ (by decide), used := ?_, usedIdx := ?_, ids := ?_,
                  frames := fun e he => h.frames e (by simp [he]), history := ?_, pc := trivial }
  · refine h.used.tail.congr ?_
    simp only [VirtQueue.bumpLast, wrapSucc, u16Bound, queueSize]
    omega
  · simp only [VirtQueue.bumpLast, wrapSucc, u16Bound, List.length_cons] at *
    omega
  · refine List.Perm.trans ?_ hids
    simp only [PollPc.inHand, List.map_cons, List.append_nil]
    rw [List.append_assoc]
    exact List.Perm.append_left _ (List.perm_append_singleton _ _)
  · rw [h.history]
    simp

/-- A consumed descriptor leaves room in the avail ring for itself. -/
theorem avail_room (h : RxInv rxMem s A U) {id : ℕ} (hin : s.pc.inHand = [id]) :
    A.length < queueSize := by
  have := h.total
  rw [hin, List.length_singleton] at this
  omega

theorem avail_end (h : RxInv rxMem s A U) :
    slot s.rx.avail.idx = Fin.ofNat queueSize (s.seen + A.length) := by
  apply Fin.ext
  rw [slot, h.availIdx, Fin.val_ofNat, Fin.val_ofNat]
  simp only [u16Bound, queueSize]
  omega

theorem repost_step (h : RxInv rxMem s A U) {count id : ℕ} (hpc : s.pc = .repost count id) :
    RxInv rxMem s.driver A U := by
  have hs : s.driver = { s with rx := s.rx.putAvail id, pc := .publish count id } := by
    rw [RxSystem.driver, hpc]
  have hin : s.pc.inHand = [id] := by rw [hpc]; rfl
  have hids := h.ids
  rw [hpc] at hids
  have hid : id < queueSize :=
    List.mem_range.mp (hids.mem_iff.mp (by simp [PollPc.inHand]))
  rw [hs]
  refine { h with avail := ?_, ids := hids, pc := ?_ }
  · simp only [VirtQueue.putAvail]
    rw [h.avail_end]
    exact h.avail.update_end (h.avail_room hin)
  · simp only [PcOk, VirtQueue.putAvail, Function.update_self]
    exact Nat.mod_eq_of_lt (lt_of_lt_of_le hid (by decide))

theorem publish_step (h : RxInv rxMem s A U) {count id : ℕ} (hpc : s.pc = .publish count id) :
    RxInv rxMem s.driver (A ++ [id]) U := by
  have hs : s.driver = { s with rx := s.rx.bumpAvail, pc := .check count } := by
    rw [RxSystem.driver, hpc]
  have hcell := h.pc
  have hids := h.ids
  have hidx := h.availIdx
  rw [PcOk, hpc] at hcell
  rw [hpc] at hids
  rw [hs]
  refine { h with avail := ?_, availIdx := ?_, ids := ?_, pc := trivial }
  · refine h.avail.snoc ?_
    rw [← h.avail_end]
    exact hcell
  · simp only [VirtQueue.bumpAvail, wrapSucc, u16Bound, List.length_append,
      List.length_singleton] at *
    omega
  · refine List.Perm.trans ?_ hids
    rw [List.perm_iff_count]
    intro i
    simp only [PollPc.inHand, List.count_append, List.count_nil]
    omega

/-- The driver's part of the induction. -/
theorem driver_step (h : RxInv rxMem s A U) : ∃ A' U', RxInv rxMem s.driver A' U' := by
  cases hpc : s.pc with
  | idle n => exact ⟨A, U, h.idle_step hpc⟩
  | check count => exact ⟨A, U, h.check_step hpc⟩
  | load count => exact ⟨A, U, h.load_step hpc⟩
  | deliver count e =>
    have hfirst := h.pc
    rw [PcOk, hpc] at hfirst
    obtain ⟨d, rest, rfl, rfl⟩ := hfirst
    exact ⟨A, rest, h.deliver_step hpc⟩
  | repost count id => exact ⟨A, U, h.repost_step hpc⟩
  | publish count id => exact ⟨A ++ [id], U, h.publish_step hpc⟩

/-! The device's part. -/

theorem take_step (h : RxInv rxMem s A U) {t : RxSystem} (hstep : rxStep s .take = some t) :
    ∃ A', RxInv rxMem t A' U := by
  rw [rxStep] at hstep
  split at hstep
  · cases hstep
  rename_i hne
  cases hstep
  have hidx := h.availIdx
  have hseen := h.seenIdx
  have hlt := h.seenLt
  cases A with
  | nil =>
    refine absurd ?_ hne
    rw [hidx, List.length_nil, Nat.add_zero, Nat.mod_eq_of_lt hlt]
  | cons a A =>
    have ha : s.rx.avail.ring (slot s.seen) = a := h.avail.head
    refine ⟨A, { h with seenLt := Nat.mod_lt _ (by decide), avail := ?_, availIdx := ?_,
                        seenIdx := ?_, ids := ?_, pc := h.pc }⟩
    · refine h.avail.tail.congr ?_
      simp only [wrapSucc, u16Bound, queueSize]
      omega
    · simp only [wrapSucc, u16Bound, List.length_cons] at *
      omega
    · simp only [wrapSucc, u16Bound, List.length_append, List.length_singleton] at *
      omega
    · refine List.Perm.trans ?_ h.ids
      rw [ha, List.perm_iff_count]
      intro i
      simp only [List.count_append, List.count_cons, List.count_nil]
      omega

theorem scribble_step (h : RxInv rxMem s A U) {id : Fin queueSize} {off : ℕ} {bs : List UInt8}
    {t : RxSystem} (hstep : rxStep s (.scribble id off bs) = some t) : RxInv rxMem t A U := by
  rw [rxStep] at hstep
  split at hstep
  · rename_i hok
    cases hstep
    rw [h.desc] at hok ⊢
    refine { h with frames := fun d hd => ?_, pc := h.pc }
    exact (h.frames d hd).write (h.held_ne hok.1 hd) hok.2
  · cases hstep

theorem fill_step (h : RxInv rxMem s A U) {id : Fin queueSize} {hdr frame : List UInt8}
    {t : RxSystem} (hstep : rxStep s (.fill id hdr frame) = some t) :
    RxInv rxMem t A (U ++ [⟨⟨id, netHdrLen + frame.length⟩, frame⟩]) := by
  rw [rxStep] at hstep
  split at hstep
  · rename_i hok
    cases hstep
    rw [h.desc] at hok ⊢
    obtain ⟨hheld, hhdr, hpos, hfit⟩ := hok
    have hroom : (U.map Delivery.elem).length < queueSize := by
      have := h.total
      have := List.length_pos_of_mem hheld
      rw [List.length_map]
      omega
    have hend : slot s.rx.used.idx =
        Fin.ofNat queueSize (s.rx.lastUsed + (U.map Delivery.elem).length) := by
      apply Fin.ext
      rw [slot, h.usedIdx, Fin.val_ofNat, Fin.val_ofNat, List.length_map]
      simp only [u16Bound, queueSize]
      omega
    have hused := h.usedIdx
    have hseen := h.seenIdx
    have herase := List.length_erase_of_mem hheld
    have hlen := List.length_pos_of_mem hheld
    refine { h with used := ?_, usedIdx := ?_, seenIdx := ?_, ids := ?_, frames := ?_,
                    history := ?_, pc := ?_ }
    · simp only [VirtQueue.putUsed, List.map_append, List.map_cons, List.map_nil]
      rw [hend]
      exact h.used.push hroom
    · simp only [VirtQueue.putUsed, wrapSucc, u16Bound, List.length_append,
        List.length_singleton] at *
      omega
    · simp only [VirtQueue.putUsed, wrapSucc, u16Bound] at *
      rw [herase]
      omega
    · refine List.Perm.trans ?_ h.ids
      rw [List.perm_iff_count]
      intro i
      have hcount : 1 ≤ List.count id.val s.held := List.count_pos_iff.mpr hheld
      simp only [List.map_append, List.map_cons, List.map_nil, List.count_append,
        List.count_erase, List.count_cons, List.count_nil]
      by_cases hi : id.val = i
      · subst hi
        simp
        omega
      · simp [hi]
    · intro d hd
      obtain hd | hd := List.mem_append.mp hd
      · have hlen : 0 + (hdr ++ frame).length ≤ bufSize := by
          rw [List.length_append, hhdr, Nat.zero_add]
          exact hfit
        exact (h.frames d hd).write (h.held_ne hheld hd) hlen
      · obtain rfl := List.mem_singleton.mp hd
        refine ⟨rfl, hpos, hfit, ?_⟩
        have := readBytes_writeBytes_append s.mem (rxMem + id * bufSize) hdr frame
        rw [hhdr] at this
        exact this
    · rw [h.history]
      simp
    · exact h.pc.put rfl rfl _
  · cases hstep

theorem step (h : RxInv rxMem s A U) {e : RxEvent} {t : RxSystem} (hstep : rxStep s e = some t) :
    ∃ A' U', RxInv rxMem t A' U' := by
  cases e with
  | driver =>
    cases hstep
    exact h.driver_step
  | take =>
    obtain ⟨A', h'⟩ := h.take_step hstep
    exact ⟨A', U, h'⟩
  | scribble id off bs => exact ⟨A, U, h.scribble_step hstep⟩
  | fill id hdr frame => exact ⟨A, _, h.fill_step hstep⟩

/-- After `init` every descriptor is in the avail ring. -/
theorem init (rxMem : ℕ) (mem : Mem) :
    RxInv rxMem (rxInit rxMem mem) (List.range queueSize) [] where
  bufs _ := rfl
  desc i := by fin_cases i <;> rfl
  seenLt := Nat.zero_lt_succ _
  lastLt := Nat.zero_lt_succ _
  avail i hi := by
    have hi : i < 8 := by simpa using hi
    interval_cases i <;> rfl
  availIdx := rfl
  used := .nil _ _
  usedIdx := rfl
  seenIdx := rfl
  ids := List.Perm.refl _
  frames := nofun
  history := rfl
  pc := trivial

theorem available_eq (h : RxInv rxMem s A U) : s.available = A := by
  have h1 := h.availIdx
  have h2 := h.seenLt
  have h3 := h.total
  have hlen : (s.rx.avail.idx + u16Bound - s.seen) % u16Bound = A.length := by
    simp only [u16Bound, queueSize] at *
    omega
  rw [RxSystem.available, hlen]
  exact h.avail.read_eq

theorem waiting_eq (h : RxInv rxMem s A U) : s.waiting = U.map Delivery.elem := by
  have h1 := h.usedIdx
  have h2 := h.lastLt
  have h3 := h.total
  have hlen : (s.rx.used.idx + u16Bound - s.rx.lastUsed) % u16Bound
      = (U.map Delivery.elem).length := by
    simp only [u16Bound, queueSize, List.length_map] at *
    omega
  rw [RxSystem.waiting, hlen]
  exact h.used.read_eq

theorem frameOf_eq (h : RxInv rxMem s A U) {d : Delivery} (hd : d ∈ U) :
    s.frameOf d.elem = d.frame := by
  have hok := h.frames d hd
  have hid := h.id_lt hd
  have hslot : (slot d.elem.id).val = d.elem.id := Nat.mod_eq_of_lt hid
  rw [RxSystem.frameOf, h.bufs, hslot, hok.len, Nat.add_sub_cancel_left]
  exact hok.bytes

/-- The frames that wait are those received and not handed over. -/
theorem received_eq (h : RxInv rxMem s A U) :
    s.received = s.handed ++ s.waiting.map s.frameOf := by
  rw [h.history, h.waiting_eq, List.map_map]
  congr 1
  exact List.map_congr_left fun d hd => (h.frameOf_eq hd).symm

/-- Between two calls the avail index is a full ring ahead of `last_used`. -/
theorem ahead (h : RxInv rxMem s A U) (hin : s.pc.inHand = []) :
    (s.rx.avail.idx + u16Bound - s.rx.lastUsed) % u16Bound = queueSize := by
  have h1 := h.availIdx
  have h2 := h.usedIdx
  have h3 := h.seenIdx
  have h4 := h.total
  have h5 := h.lastLt
  rw [hin, List.length_nil] at h4
  simp only [u16Bound, queueSize] at *
  omega

/-- Left alone, a call works off what waits and returns. -/
theorem drain (h : RxInv rxMem s A U) {count : ℕ} (hpc : s.pc = .check count) :
    ∃ k, (RxSystem.driver^[k] s).pc = .idle (count + U.length) ∧
      (RxSystem.driver^[k] s).handed = s.received ∧
      (RxSystem.driver^[k] s).received = s.received := by
  induction U generalizing s A count with
  | nil =>
      refine ⟨1, ?_, ?_, ?_⟩
      all_goals
        rw [Function.iterate_one, RxSystem.driver, hpc]
      · exact if_pos (h.drained_iff.mpr rfl)
      · simp [h.history]
  | cons d U ih =>
      have hne : s.rx.used.idx ≠ s.rx.lastUsed := fun he => by
        simpa using h.drained_iff.mp he
      -- one round of the loop: compare, load, deliver, repost, publish
      obtain ⟨s₁, hs₁⟩ : ∃ t, t = s.driver := ⟨_, rfl⟩
      have h₁ : RxInv rxMem s₁ A (d :: U) := hs₁ ▸ h.check_step hpc
      have e₁ : s₁ = { s with pc := .load count } := by
        rw [hs₁, RxSystem.driver, hpc]
        simp only [if_neg hne]
      obtain ⟨s₂, hs₂⟩ : ∃ t, t = s₁.driver := ⟨_, rfl⟩
      have h₂ : RxInv rxMem s₂ A (d :: U) := hs₂ ▸ h₁.load_step (by rw [e₁])
      have e₂ : s₂ = { s with pc := .deliver count d.elem } := by
        rw [hs₂, RxSystem.driver, e₁]
        simp only [show s.rx.used.ring (slot s.rx.lastUsed) = d.elem from h.used.head]
      obtain ⟨s₃, hs₃⟩ : ∃ t, t = s₂.driver := ⟨_, rfl⟩
      have h₃ : RxInv rxMem s₃ A U := hs₃ ▸ h₂.deliver_step (by rw [e₂])
      have e₃ := h₂.deliver_eq (show s₂.pc = .deliver count d.elem by rw [e₂])
      rw [← hs₃, e₂] at e₃
      obtain ⟨s₄, hs₄⟩ : ∃ t, t = s₃.driver := ⟨_, rfl⟩
      have h₄ : RxInv rxMem s₄ A U := hs₄ ▸ h₃.repost_step (by rw [e₃])
      have e₄ : s₄ = { s₃ with rx := s₃.rx.putAvail d.elem.id,
                               pc := .publish (count + 1) d.elem.id } := by
        rw [hs₄, RxSystem.driver, e₃]
      obtain ⟨s₅, hs₅⟩ : ∃ t, t = s₄.driver := ⟨_, rfl⟩
      have h₅ : RxInv rxMem s₅ (A ++ [d.elem.id]) U := hs₅ ▸ h₄.publish_step (by rw [e₄])
      have e₅ : s₅ = { s₄ with rx := s₄.rx.bumpAvail, pc := .check (count + 1) } := by
        rw [hs₅, RxSystem.driver, e₄]
      obtain ⟨k, hk1, hk2, hk3⟩ := ih h₅ (show s₅.pc = .check (count + 1) by rw [e₅])
      have hrec : s₅.received = s.received := by rw [e₅, e₄, e₃]
      have hiter : RxSystem.driver^[k + 5] s = RxSystem.driver^[k] s₅ := by
        rw [Function.iterate_add_apply, hs₅, hs₄, hs₃, hs₂, hs₁]
        rfl
      refine ⟨k + 5, ?_, ?_, ?_⟩
      · rw [hiter, hk1, List.length_cons, show count + 1 + U.length = count + (U.length + 1) by omega]
      · rw [hiter, hk2, hrec]
      · rw [hiter, hk3, hrec]

end RxInv

theorem RxReaches.inv {mem : Mem} (h : RxReaches rxMem mem s) : ∃ A U, RxInv rxMem s A U := by
  refine Runs.invariant (I := fun s => ∃ A U, RxInv rxMem s A U) h ⟨_, _, .init rxMem mem⟩ ?_
  rintro e s t - hstep ⟨A, U, hi⟩
  exact hi.step hstep

/-- In every interleaving of `poll_rx` with a conforming device, the frames handed to the
callback are the first of the frames received, in used-ring order and as the device wrote
them, and the others wait in the used ring; a call returns only when nothing waits, and
returns if the device pauses. Between calls the avail index is eight ahead of `last_used`,
and every descriptor id is once with the device or once in the used ring. -/
theorem rxRing_exactly_once (rxMem : ℕ) (mem : Mem) (s : RxSystem) (h : RxReaches rxMem mem s) :
    s.received = s.handed ++ s.waiting.map s.frameOf ∧
    (∀ count, s.pc = .check count → s.driver.pc = .idle count → s.handed = s.received) ∧
    (∀ n, s.pc = .idle n →
      (s.rx.avail.idx + u16Bound - s.rx.lastUsed) % u16Bound = queueSize ∧
      (s.available ++ s.held ++ s.waiting.map UsedElem.id).Perm (List.range queueSize) ∧
      ∃ k, (RxSystem.driver^[k] s).pc = .idle s.waiting.length ∧
        (RxSystem.driver^[k] s).handed = s.received ∧
        (RxSystem.driver^[k] s).received = s.received) := by
  obtain ⟨A, U, hi⟩ := h.inv
  refine ⟨hi.received_eq, fun count hpc hidle => ?_, fun n hpc => ⟨?_, ?_, ?_⟩⟩
  · have hU : U = [] := by
      rw [← hi.drained_iff]
      by_contra hne
      rw [RxSystem.driver, hpc] at hidle
      simp [hne] at hidle
    rw [hi.history, hU]
    simp
  · exact hi.ahead (by rw [hpc]; rfl)
  · have hids := hi.ids
    rw [hpc] at hids
    rw [hi.available_eq, hi.waiting_eq, List.map_map]
    simpa [PollPc.inHand, Function.comp_def] using hids
  · have hs : s.driver = { s with pc := .check 0 } := by rw [RxSystem.driver, hpc]
    obtain ⟨k, hk1, hk2, hk3⟩ := (hi.idle_step hpc).drain (by rw [hs])
    have hrec : s.driver.received = s.received := by rw [hs]
    refine ⟨k + 1, ?_, ?_, ?_⟩
    all_goals rw [Function.iterate_succ_apply]
    · rw [hk1, hi.waiting_eq, List.length_map, Nat.zero_add]
    · rw [hk2, hrec]
    · rw [hk3, hrec]

/-- A list of events is a run. -/
theorem RxReaches.events {mem : Mem} (es : List RxEvent) : ∀ {s t : RxSystem},
    RxReaches rxMem mem s → es.foldlM rxStep s = some t → RxReaches rxMem mem t := by
  induction es with
  | nil =>
    intro s t h he
    obtain rfl := Option.some.inj he
    exact h
  | cons e es ih =>
    intro s t h he
    obtain ⟨u, hu, he⟩ := Option.bind_eq_some_iff.mp he
    exact ih (Runs.snoc h trivial hu) he

/-- The device takes two buffers and returns the second one first; a call has handed that
frame over and posted its buffer again when the other frame comes. -/
theorem rxRing_exactly_once_ping : ∃ s, RxReaches 0x87000000 (fun _ => 0) s ∧
    s.received = [[7, 7], [9]] ∧ s.handed = [[7, 7]] ∧ s.waiting.map s.frameOf = [[9]] := by
  obtain ⟨s, hs⟩ : ∃ s, List.foldlM rxStep (rxInit 0x87000000 fun _ => 0)
      [.take, .take, .fill 1 (List.replicate 10 0) [7, 7], .driver, .driver, .driver, .driver,
        .fill 0 (List.replicate 10 0) [9], .driver, .driver] = some s := ⟨_, rfl⟩
  have hhist : s.received = [[7, 7], [9]] ∧ s.handed.length = 1 := by
    cases hs
    exact ⟨rfl, rfl⟩
  have hr : RxReaches 0x87000000 (fun _ => 0) s := .events _ (Runs.refl _) hs
  obtain ⟨hrec, -, -⟩ := rxRing_exactly_once _ _ s hr
  rw [hhist.1] at hrec
  obtain ⟨hhanded, hwaiting⟩ :=
    List.append_inj (show [[7, 7]] ++ [[9]] = s.handed ++ _ from hrec) hhist.2.symm
  exact ⟨s, hr, hhist.1, hhanded.symm, hwaiting.symm⟩

end LightOS.Virtio
