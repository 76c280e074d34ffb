import LightOS.Virtio

/-!
# Used rings that no conforming device writes

`poll_rx` takes a descriptor id and a length from the used ring, where a device may write
any two 32-bit values. The id is compared with the queue size before a frame is handed
over, the length only with the length of a header, and the id is posted again either way.
-/
namespace LightOS.Virtio
open Lib

namespace RxSystem

variable {s : RxSystem}

/-- The descriptor, the address and the length of the slice that the next step hands to the
callback. -/
def handing (s : RxSystem) : Option (Fin queueSize × ℕ × ℕ) :=
  match s.pc with
  | .deliver _ e =>
    if hid : e.id < queueSize then
      if e.len > netHdrLen then
        some (⟨e.id, hid⟩, s.rxBufs ⟨e.id, hid⟩ + netHdrLen, e.len - netHdrLen)
      else none
    else none
  | _ => none

/-- The id that the next step writes to the avail ring. -/
def posting (s : RxSystem) : Option ℕ :=
  match s.pc with
  | .repost _ id => some (id % u16Bound)
  | _ => none

theorem handing_slice {count : ℕ} {e : UsedElem} (hpc : s.pc = .deliver count e)
    (hlen : e.len > netHdrLen) (hid : e.id < queueSize) :
    s.handing = some (⟨e.id, hid⟩, s.rxBufs ⟨e.id, hid⟩ + netHdrLen, e.len - netHdrLen) := by
  rw [handing, hpc]
  exact (dif_pos hid).trans (if_pos hlen)

theorem handing_none {count : ℕ} {e : UsedElem} (hpc : s.pc = .deliver count e)
    (h : ¬ (e.len > netHdrLen ∧ e.id < queueSize)) : s.handing = none := by
  rw [handing, hpc]
  by_cases hid : e.id < queueSize
  · exact (dif_pos hid).trans (if_neg fun hlen => h ⟨hlen, hid⟩)
  · exact dif_neg hid

/-- The driver hands over the bytes of that slice. -/
theorem driver_handed (s : RxSystem) : s.driver.handed =
    s.handed ++ s.handing.toList.map fun h => readBytes s.mem h.2.1 h.2.2 := by
  cases hpc : s.pc with
  | deliver count e =>
    by_cases h : e.len > netHdrLen ∧ e.id < queueSize
    · rw [handing_slice hpc h.1 h.2, driver, hpc]
      simp only [dif_pos h, Option.toList_some, List.map_singleton]
    · rw [handing_none hpc h, driver, hpc]
      simp only [dif_neg h, Option.toList_none, List.map_nil, List.append_nil]
  | _ => simp [driver, handing, hpc]

/-- The driver writes that id. -/
theorem driver_avail (s : RxSystem) : s.driver.rx.avail.ring =
    s.posting.elim s.rx.avail.ring (Function.update s.rx.avail.ring (slot s.rx.avail.idx)) := by
  unfold driver posting
  cases s.pc with
  | deliver count e =>
    by_cases h : e.len > netHdrLen ∧ e.id < queueSize
    · simp only [dif_pos h, Option.elim_none, VirtQueue.bumpLast]
    · simp only [dif_neg h, Option.elim_none, VirtQueue.bumpLast]
  | _ => rfl

/-- What the next step hands over lies in the buffer of a valid descriptor, and what it
posts is a valid descriptor. -/
structure Tolerant (s : RxSystem) : Prop where
  slice : ∀ i a n, s.handing = some (i, a, n) → s.rxBufs i ≤ a ∧ a + n ≤ s.rxBufs i + bufSize
  post : ∀ id, s.posting = some id → id < queueSize

end RxSystem

/-- The length fits in a buffer if the id is one of a buffer, and the low half of the id is
a descriptor. -/
def UsedElem.Harmless (e : UsedElem) : Prop :=
  (e.id < queueSize → e.len ≤ bufSize) ∧ e.id % u16Bound < queueSize

/-- A device that may do anything to the used ring and the buffers. -/
inductive HostileEvent where
  | driver
  | overwrite (used : UsedRing) (mem : Mem)

def hostileStep (s : RxSystem) : HostileEvent → RxSystem
  | .driver => s.driver
  | .overwrite used mem => { s with rx.used := used, mem }

/-- The ring holds words of its widths. -/
def UsedRing.Wide (r : UsedRing) : Prop :=
  r.idx < u16Bound ∧ ∀ i, (r.ring i).id < 2 ^ 32 ∧ (r.ring i).len < 2 ^ 32

def HostileEvent.Possible : HostileEvent → RxSystem → Prop
  | .driver, _ => True
  | .overwrite used _, _ => used.Wide

/-- The driver loads harmless elements only. -/
def HostileEvent.LoadsHarmless : HostileEvent → RxSystem → Prop
  | .driver, s => ∀ count, s.pc = .load count → (s.rx.used.ring (slot s.rx.lastUsed)).Harmless
  | .overwrite used _, _ => used.Wide

/-- Runs of `poll_rx` against such a device. -/
def HostileReaches (cond : HostileEvent → RxSystem → Prop) (rxMem : ℕ) (mem : Mem) :
    RxSystem → Prop :=
  Runs (fun e s t => hostileStep s e = t) cond (rxInit rxMem mem)

namespace RxSystem

variable {s : RxSystem}

theorem nothing_posted (h : s.posting = none) : ∀ id, s.posting = some id → id < queueSize := by
  intro id hid
  rw [h] at hid
  cases hid

theorem nothing_handed (h : s.handing = none) : ∀ i a n, s.handing = some (i, a, n) →
    s.rxBufs i ≤ a ∧ a + n ≤ s.rxBufs i + bufSize := by
  intro i a n hs
  rw [h] at hs
  cases hs

theorem tolerant_deliver {count : ℕ} {e : UsedElem} (hpc : s.pc = .deliver count e) :
    s.Tolerant ↔ (e.id < queueSize → e.len ≤ bufSize) := by
  have hpost : s.posting = none := by rw [posting, hpc]
  by_cases h : e.len > netHdrLen ∧ e.id < queueSize
  · have hhand := handing_slice hpc h.1 h.2
    constructor
    · intro ht _
      have := (ht.slice _ _ _ hhand).2
      omega
    · intro hfit
      have hlen := hfit h.2
      refine ⟨fun i a n hs => ?_, nothing_posted hpost⟩
      rw [hhand, Option.some.injEq, Prod.mk.injEq, Prod.mk.injEq] at hs
      obtain ⟨rfl, rfl, rfl⟩ := hs
      omega
  · have hhand := handing_none hpc h
    refine ⟨fun _ hid => ?_, fun _ => ⟨nothing_handed hhand, nothing_posted hpost⟩⟩
    simp only [netHdrLen, bufSize] at *
    omega

theorem tolerant_repost {count id : ℕ} (hpc : s.pc = .repost count id) :
    s.Tolerant ↔ id % u16Bound < queueSize := by
  have hhand : s.handing = none := by rw [handing, hpc]
  have hpost : s.posting = some (id % u16Bound) := by rw [posting, hpc]
  refine ⟨fun ht => ht.post _ hpost, fun h => ⟨nothing_handed hhand, fun j hj => ?_⟩⟩
  rw [hpost, Option.some.injEq] at hj
  exact hj ▸ h

/-- What a call does with the element that it loads. -/
theorem load_driver {count : ℕ} (hpc : s.pc = .load count) :
    s.driver.pc = .deliver count (s.rx.used.ring (slot s.rx.lastUsed)) ∧
    ∃ n, s.driver.driver.pc = .repost n (s.rx.used.ring (slot s.rx.lastUsed)).id := by
  have h1 : s.driver.pc = .deliver count (s.rx.used.ring (slot s.rx.lastUsed)) := by
    rw [driver, hpc]
  refine ⟨h1, ?_⟩
  rw [driver, h1]
  dsimp only
  split_ifs
  · exact ⟨count + 1, rfl⟩
  · exact ⟨count, rfl⟩

/-- What a call is about to do is harmless. -/
def PcHarmless (s : RxSystem) : Prop :=
  match s.pc with
  | .deliver _ e => e.Harmless
  | .repost _ id => id % u16Bound < queueSize
  | _ => True

theorem PcHarmless.tolerant (h : s.PcHarmless) : s.Tolerant := by
  unfold PcHarmless at h
  cases hpc : s.pc with
  | deliver count e =>
    rw [hpc] at h
    exact (tolerant_deliver hpc).mpr h.1
  | repost count id =>
    rw [hpc] at h
    exact (tolerant_repost hpc).mpr h
  | _ =>
    refine ⟨fun i a n hs => ?_, fun id hid => ?_⟩
    · rw [handing, hpc] at hs
      cases hs
    · rw [posting, hpc] at hid
      cases hid

/-- A step keeps that, if it does not load anything else. -/
theorem PcHarmless.step (h : s.PcHarmless) {e : HostileEvent} (he : e.LoadsHarmless s) :
    (hostileStep s e).PcHarmless := by
  cases e with
  | overwrite used mem => exact h
  | driver =>
    unfold PcHarmless at h
    unfold hostileStep PcHarmless driver
    cases hpc : s.pc with
    | check count =>
      dsimp only
      split_ifs <;> trivial
    | load count => exact he count hpc
    | deliver count e =>
      rw [hpc] at h
      dsimp only
      split_ifs <;> exact h.2
    | _ => trivial

end RxSystem

/-- In every run against such a device in which the driver loads harmless elements, it hands
over slices inside their buffers and posts valid ids. And whatever element a call loads, it
goes on so if and only if the element is harmless. -/
theorem pollRx_tolerant_iff (rxMem : ℕ) (mem : Mem) :
    (∀ s, HostileReaches HostileEvent.LoadsHarmless rxMem mem s → s.Tolerant) ∧
    ∀ (s : RxSystem) (count : ℕ), s.pc = .load count →
      ((s.driver.Tolerant ∧ s.driver.driver.Tolerant) ↔
        (s.rx.used.ring (slot s.rx.lastUsed)).Harmless) := by
  refine ⟨fun s hr => ?_, fun s count hpc => ?_⟩
  · have hinv : s.PcHarmless := by
      refine Runs.invariant (I := RxSystem.PcHarmless) hr trivial ?_
      rintro e s t he rfl hs
      exact hs.step he
    exact hinv.tolerant
  · obtain ⟨h1, n, h2⟩ := RxSystem.load_driver hpc
    rw [RxSystem.tolerant_deliver h1, RxSystem.tolerant_repost h2]
    rfl

/-- A run up to the delivery of the element `e`, with which the device fills the used ring. -/
theorem exists_delivering (C : HostileEvent → RxSystem → Prop) (rxMem : ℕ) (mem : Mem)
    (e : UsedElem) (hid : e.id < 2 ^ 32) (hlen : e.len < 2 ^ 32)
    (hdevice : ∀ used s, used.Wide → C (.overwrite used mem) s)
    (hdriver : ∀ s : RxSystem, (∀ i, s.rx.used.ring i = e) → C .driver s) :
    ∃ s, HostileReaches C rxMem mem s ∧ s.pc = .deliver 0 e ∧
      s.rxBufs = fun i : Fin queueSize => rxMem + i * bufSize := by
  obtain ⟨used, hused⟩ : ∃ used : UsedRing, used = ⟨1, fun _ => e⟩ := ⟨_, rfl⟩
  have hwide : used.Wide := by
    rw [hused]
    exact ⟨(show 1 < u16Bound by decide), fun _ => ⟨hid, hlen⟩⟩
  obtain ⟨s₀, hs₀⟩ : ∃ s₀, s₀ = hostileStep (rxInit rxMem mem) (.overwrite used mem) := ⟨_, rfl⟩
  have h0 : HostileReaches C rxMem mem s₀ :=
    Runs.snoc (.refl _) (hdevice used _ hwide) hs₀.symm
  have h1 : HostileReaches C rxMem mem s₀.driver :=
    h0.snoc (e := .driver) (hdriver _ fun _ => by subst hs₀ hused; rfl) rfl
  have h2 : HostileReaches C rxMem mem s₀.driver.driver :=
    h1.snoc (e := .driver) (hdriver _ fun _ => by subst hs₀ hused; rfl) rfl
  have h3 : HostileReaches C rxMem mem s₀.driver.driver.driver :=
    h2.snoc (e := .driver) (hdriver _ fun _ => by subst hs₀ hused; rfl) rfl
  refine ⟨_, h3, ?_, ?_⟩
  · subst hs₀ hused
    rfl
  · subst hs₀ hused
    rfl

/-- The device returns a descriptor that it was never given, with 60 bytes: the slice that the
callback gets lies in its buffer. -/
theorem pollRx_tolerant_iff_short : ∃ s,
    HostileReaches HostileEvent.LoadsHarmless 0x87000000 (fun _ => 0) s ∧
    s.handing = some (3, 0x87000000 + 3 * bufSize + 10, 50) ∧ s.Tolerant := by
  have hharmless : UsedElem.Harmless ⟨3, 60⟩ := ⟨fun _ => by decide, by decide⟩
  obtain ⟨s, hr, hpc, hbufs⟩ := exists_delivering HostileEvent.LoadsHarmless 0x87000000
    (fun _ => 0) ⟨3, 60⟩ (by decide) (by decide) (fun _ _ h => h)
    fun s h count _ => (h _).symm ▸ hharmless
  refine ⟨s, hr, ?_, (pollRx_tolerant_iff _ _).1 s hr⟩
  rw [RxSystem.handing_slice hpc (by decide) (by decide), hbufs]
  rfl

/-- The device claims to have written 4096 bytes to the first buffer. -/
theorem pollRx_overreads : ∃ s, HostileReaches HostileEvent.Possible 0x87000000 (fun _ => 0) s ∧
    s.handing = some (0, 0x87000000 + 10, 4086) ∧ ¬ s.Tolerant := by
  obtain ⟨s, hr, hpc, hbufs⟩ := exists_delivering HostileEvent.Possible 0x87000000 (fun _ => 0)
    ⟨0, 4096⟩ (by decide) (by decide) (fun _ _ h => h) fun _ _ => trivial
  refine ⟨s, hr, ?_, ?_⟩
  · rw [RxSystem.handing_slice hpc (by decide) (by decide), hbufs]
    rfl
  · rw [RxSystem.tolerant_deliver hpc]
    decide

end LightOS.Virtio
