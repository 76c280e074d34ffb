import LightOS.Virtio

/-!
# Which request a completion belongs to

The drivers detect completion by a change of the used index alone, and reuse one
descriptor chain for all requests. On a quiet queue that is enough: the only request the
device can complete during the call is the one just posted. A call that has timed out
leaves its request behind, and the next call takes the late completion for its own.
-/
namespace LightOS.Virtio
open Lib

theorem wrapSucc_ne (n : ℕ) : wrapSucc n ≠ n := by
  simp only [wrapSucc, u16Bound]
  omega

section Requester

variable {σ C R O : Type} {D : Requester σ C R O} {s t : ReqSystem σ C R O} {c : C}

namespace ReqSystem

/-- Everything that was posted is complete. -/
def Rest (s : ReqSystem σ C R O) : Prop :=
  s.seen = s.q.avail.idx ∧ s.inflight = [] ∧ s.completed.length = s.posted.length

/-- One request is open, in the avail ring or with the device. -/
def Open (s : ReqSystem σ C R O) : Prop :=
  s.posted.length = s.completed.length + 1 ∧
  (s.inflight = [] ∧ s.q.avail.idx = wrapSucc s.seen ∨
    (∃ r, s.inflight = [r]) ∧ s.seen = s.q.avail.idx)

/-- Buffers and descriptors are those of the call. -/
def Prepared (D : Requester σ C R O) (s : ReqSystem σ C R O) (c : C) : Prop :=
  ∃ st desc, D.prepare c st desc = (s.st, s.q.desc)

/-- The request of the call is the open one. -/
structure Waits (D : Requester σ C R O) (s : ReqSystem σ C R O) (c : C) : Prop where
  prepared : Prepared D s c
  last : s.posted.getLast? = some c
  count : s.posted.length = s.completed.length + 1
  where_ : s.inflight = [] ∧ s.q.avail.idx = wrapSucc s.seen ∧ s.q.avail.ring (slot s.seen) = 0 ∨
    s.inflight = [D.fetch s.st s.q.desc 0] ∧ s.seen = s.q.avail.idx

/-- The last request that the device completed is that of the call. -/
def Answered (D : Requester σ C R O) (s : ReqSystem σ C R O) (c : C) : Prop :=
  ∃ st desc o, s.st = D.perform (D.fetch (D.prepare c st desc).1 (D.prepare c st desc).2 0) o
      (D.prepare c st desc).1 ∧
    s.posted.getLast? = some c ∧
    s.completed.getLast? = some (D.fetch (D.prepare c st desc).1 (D.prepare c st desc).2 0, o)

/-- What holds at each point of a call. -/
def Inv (D : Requester σ C R O) (s : ReqSystem σ C R O) : Prop :=
  match s.pc with
  | .post c => s.Rest ∧ s.q.used.idx = s.q.lastUsed ∧ Prepared D s c
  | .publish c => s.Rest ∧ s.q.used.idx = s.q.lastUsed ∧ Prepared D s c ∧
      s.q.avail.ring (slot s.q.avail.idx) = 0
  | .poll c _ => (s.q.used.idx = s.q.lastUsed ∧ Waits D s c) ∨
      (s.q.used.idx = wrapSucc s.q.lastUsed ∧ s.Rest ∧ Answered D s c)
  | .finish c => s.Rest ∧ Answered D s c
  | .done c (.ok _) => s.Rest ∧ Answered D s c ∧ D.verdict s.st = .ok ()
  | _ => s.Rest ∨ s.Open

theorem Waits.isOpen (h : Waits D s c) : s.Open := by
  refine ⟨h.count, ?_⟩
  obtain ⟨h1, h2, -⟩ | ⟨h1, h2⟩ := h.where_
  · exact .inl ⟨h1, h2⟩
  · exact .inr ⟨⟨_, h1⟩, h2⟩

theorem Inv.loose (h : Inv D s) : s.Rest ∨ s.Open := by
  rw [Inv] at h
  split at h
  · exact .inl h.1
  · exact .inl h.1
  · obtain ⟨-, hw⟩ | ⟨-, hr, -⟩ := h
    · exact .inr hw.isOpen
    · exact .inl hr
  · exact .inl h.1
  · exact .inl h.1
  · exact h

/-- On a quiet queue nothing is open. -/
theorem Quiet.rest (hq : s.Quiet) (h : s.Rest ∨ s.Open) : s.Rest := by
  obtain ⟨-, hin, hseen⟩ := hq
  obtain h | ⟨-, ⟨-, havail⟩ | ⟨⟨r, hr⟩, -⟩⟩ := h
  · exact h
  · exact absurd (hseen.trans havail).symm (wrapSucc_ne _)
  · rw [hin] at hr
    cases hr

theorem Inv.call (h : Inv D s) (hq : s.Quiet) (hstep : D.step s (.call c) = some t) :
    Inv D t := by
  have hrest := hq.rest h.loose
  have ht : D.callStep s c = t := by
    simp only [Requester.step] at hstep
    split at hstep
    · exact Option.some.inj hstep
    · exact Option.some.inj hstep
    · cases hstep
  rw [← ht, Requester.callStep]
  split
  · exact ⟨hrest, hq.1, s.st, s.q.desc, rfl⟩
  · exact .inl hrest
  · exact .inl hrest

theorem Inv.driver (h : Inv D s) (hstep : D.step s .driver = some t) : Inv D t := by
  simp only [Requester.step, Requester.driverStep] at hstep
  rw [Inv] at h
  split at hstep
  · rename_i c hpc
    rw [hpc] at h
    cases hstep
    obtain ⟨hrest, hused, hprep⟩ := h
    exact ⟨hrest, hused, hprep, Function.update_self ..⟩
  · rename_i c hpc
    rw [hpc] at h
    cases hstep
    obtain ⟨⟨hseen, hin, hlen⟩, hused, hprep, hcell⟩ := h
    refine .inl ⟨hused, ⟨hprep, by simp, by simp [hlen], .inl ⟨hin, ?_, ?_⟩⟩⟩
    · simp only [VirtQueue.bumpAvail, hseen]
    · simp only [VirtQueue.bumpAvail, hseen]
      exact hcell
  · rename_i c spins hpc
    rw [hpc] at h
    split at hstep
    · rename_i hsame
      have hw : Waits D s c := by
        obtain ⟨-, hw⟩ | ⟨hne, -⟩ := h
        · exact hw
        · exact absurd (hne.symm.trans hsame) (wrapSucc_ne _)
      split at hstep
      · cases hstep
        exact .inr hw.isOpen
      · cases hstep
        exact .inl ⟨hsame, ⟨hw.prepared, hw.last, hw.count, hw.where_⟩⟩
    · rename_i hne
      cases hstep
      obtain ⟨hsame, -⟩ | ⟨-, hrest, hans⟩ := h
      · exact absurd hsame hne
      · exact ⟨hrest, hans⟩
  · rename_i c hpc
    rw [hpc] at h
    cases hstep
    obtain ⟨hrest, hans⟩ := h
    simp only [Inv]
    cases D.verdict s.st with
    | ok u => exact ⟨hrest, hans, rfl⟩
    | error e => exact .inl hrest
  · cases hstep

/-- The device reads the one open request. -/
theorem Inv.fetch (h : Inv D s) (hstep : D.step s .fetch = some t) : Inv D t := by
  simp only [Requester.step] at hstep
  split at hstep
  · cases hstep
  rename_i hne
  cases hstep
  rw [Inv] at h
  rw [Inv]
  dsimp only
  split at h
  · exact absurd h.1.1 hne
  · exact absurd h.1.1 hne
  · obtain ⟨hused, hw⟩ | ⟨-, hrest, -⟩ := h
    · refine .inl ⟨hused, ⟨hw.prepared, hw.last, hw.count, .inr ?_⟩⟩
      obtain ⟨hin, havail, hcell⟩ | ⟨-, hseen⟩ := hw.where_
      · exact ⟨by simp [hin, hcell], havail.symm⟩
      · exact absurd hseen hne
    · exact absurd hrest.1 hne
  · exact absurd h.1.1 hne
  · exact absurd h.1.1 hne
  · obtain hrest | ⟨hlen, ⟨hin, havail⟩ | ⟨-, hseen⟩⟩ := h
    · exact absurd hrest.1 hne
    · refine .inr ⟨hlen, .inr ⟨⟨D.fetch s.st s.q.desc (s.q.avail.ring (slot s.seen)), ?_⟩,
        havail.symm⟩⟩
      simp [hin]
    · exact absurd hseen hne

/-- The device completes the one open request. -/
theorem Inv.complete (h : Inv D s) {o : O} {elem : UsedElem}
    (hstep : D.step s (.complete o elem) = some t) : Inv D t := by
  simp only [Requester.step] at hstep
  split at hstep
  · cases hstep
  rename_i r rest hin
  cases hstep
  have hne : s.inflight ≠ [] := by simp [hin]
  rw [Inv] at h
  rw [Inv]
  dsimp only
  split at h
  · exact absurd h.1.2.1 hne
  · exact absurd h.1.2.1 hne
  · obtain ⟨hused, hw⟩ | ⟨-, hrest, -⟩ := h
    · obtain ⟨hin', -⟩ | ⟨hin', hseen⟩ := hw.where_
      · exact absurd hin' hne
      · rw [hin] at hin'
        obtain ⟨rfl, rfl⟩ := List.cons.inj hin'
        obtain ⟨st, desc, hprep⟩ := hw.prepared
        refine .inr ⟨by simp [VirtQueue.putUsed, hused], ⟨hseen, rfl, by simp [hw.count]⟩,
          st, desc, o, ?_, hw.last, ?_⟩
        · rw [hprep]
        · rw [hprep]
          simp
    · exact absurd hrest.2.1 hne
  · exact absurd h.1.2.1 hne
  · exact absurd h.1.2.1 hne
  · obtain hrest | ⟨hlen, ⟨hin', -⟩ | ⟨⟨r', hr'⟩, hseen⟩⟩ := h
    · exact absurd hrest.2.1 hne
    · exact absurd hin' hne
    · rw [hin] at hr'
      obtain ⟨-, rfl⟩ := List.cons.inj hr'
      exact .inl ⟨hseen, rfl, by simp [hlen]⟩

end ReqSystem

/-- If calls are made on a quiet queue only, a call that succeeds has been answered. -/
theorem Requester.Reaches.inv {st : σ} (h : D.Reaches QuietCalls st s) : s.Inv D := by
  refine Runs.invariant (I := fun s => s.Inv D) h (.inl ⟨rfl, rfl, rfl⟩) ?_
  rintro e s t hc hstep hi
  cases e with
  | call c => exact hi.call hc hstep
  | driver => exact hi.driver hstep
  | fetch => exact hi.fetch hstep
  | complete o elem => exact hi.complete hstep

/-- A call that nobody answers spins until it gives up. -/
theorem Requester.gives_up {cond : ReqEvent C O → ReqSystem σ C R O → Prop}
    (hcond : ∀ u, cond .driver u) {st : σ} {n : ℕ} (h : D.Reaches cond st s)
    (hpc : s.pc = .poll c n) (hused : s.q.used.idx = s.q.lastUsed) (hn : n ≤ D.spinLimit) :
    D.Reaches cond st { s with pc := .done c (.error D.timedOut) } := by
  obtain ⟨k, hk⟩ : ∃ k, D.spinLimit = n + k := ⟨D.spinLimit - n, by omega⟩
  induction k generalizing s n with
  | zero =>
      refine h.snoc (hcond s) ?_
      simp only [Requester.step, Requester.driverStep, hpc, if_pos hused]
      rw [if_pos (by omega)]
  | succ k ih =>
      have hnext : D.Reaches cond st { s with pc := .poll c (n + 1) } := by
        refine h.snoc (hcond s) ?_
        simp only [Requester.step, Requester.driverStep, hpc, if_pos hused]
        rw [if_neg (by omega)]
      have hdone := ih hnext rfl hused (by omega) (by omega)
      exact hdone

end Requester

/-! ## The block device -/

/-- The chain that `transfer` describes to the device. -/
def blkRequest (c : BlkCall) : BlkRequest :=
  ⟨⟨if c.write then reqTypeOut else reqTypeIn, 0, c.sector⟩, c.buf, c.len⟩

theorem Blk.fetch_prepare (c : BlkCall) (st : BlkSt) (desc : DescTable) :
    Blk.fetch (Blk.prepare c st desc).1 (Blk.prepare c st desc).2 0 = blkRequest c := rfl

theorem readBytes_writeBytes_readBytes (m d : Mem) (a b n : ℕ) :
    readBytes (writeBytes m a (readBytes d b n)) a n = readBytes d b n := by
  have h := readBytes_writeBytes_append m a [] (readBytes d b n)
  have hlen : (readBytes d b n).length = n := by simp [readBytes]
  rw [hlen] at h
  exact h

/-- A request carried out with status 0 leaves the same bytes in buffer and sectors. -/
theorem Blk.perform_ok (c : BlkCall) (o : BlkOutcome) (st : BlkSt)
    (h : Blk.verdict (Blk.perform (blkRequest c) o st) = .ok ()) :
    o.status = 0 ∧
    readBytes (Blk.perform (blkRequest c) o st).mem c.buf c.len =
      readBytes (Blk.perform (blkRequest c) o st).disk (c.sector * sectorSize) c.len := by
  have hst : o.status = 0 := by
    by_contra hne
    simp only [Blk.verdict, Blk.perform] at h
    rw [if_neg hne] at h
    cases h
  refine ⟨hst, ?_⟩
  obtain ⟨sector, buf, len, write⟩ := c
  obtain ⟨status, junk⟩ := o
  obtain rfl : status = 0 := hst
  cases write with
  | false => exact readBytes_writeBytes_readBytes st.mem st.disk buf (sector * sectorSize) len
  | true =>
    exact (readBytes_writeBytes_readBytes st.disk st.mem (sector * sectorSize) buf len).symm

/-- A transfer that has returned Ok was completed by the device with status 0, and its
buffer holds what the sectors hold. -/
def BlkAttributed (s : ReqSystem BlkSt BlkCall BlkRequest BlkOutcome) : Prop :=
  ∀ c, s.pc = .done c (.ok ()) → s.posted.getLast? = some c ∧
    s.completed.length = s.posted.length ∧
    (∃ o, s.completed.getLast? = some (blkRequest c, o) ∧ o.status = 0) ∧
    readBytes s.st.mem c.buf c.len = readBytes s.st.disk (c.sector * sectorSize) c.len

theorem blk_attributed {s : ReqSystem BlkSt BlkCall BlkRequest BlkOutcome}
    (h : s.Inv Blk.transfer) : BlkAttributed s := by
  intro c hpc
  rw [ReqSystem.Inv, hpc] at h
  obtain ⟨⟨-, -, hlen⟩, ⟨st, desc, o, hst, hlast, hdone⟩, hv⟩ := h
  have hreq : Blk.transfer.fetch (Blk.transfer.prepare c st desc).1
      (Blk.transfer.prepare c st desc).2 0 = blkRequest c := Blk.fetch_prepare c st desc
  rw [hreq] at hst hdone
  rw [hst] at hv ⊢
  obtain ⟨hzero, hbytes⟩ := Blk.perform_ok c o _ hv
  exact ⟨hlast, hlen, ⟨o, hdone, hzero⟩, hbytes⟩

/-! ## Frames -/

/-- The transmit buffer of a frame: an empty header and the frame. -/
theorem Tx.readBytes_prepare (frame : List UInt8) (st : TxSt) (desc : DescTable) :
    readBytes (Tx.prepare frame st desc).1.mem st.txBuf (netHdrLen + frame.length) =
      List.replicate netHdrLen 0 ++ frame := by
  refine List.ext_getElem (by simp [readBytes]) fun i h1 h2 => ?_
  simp only [readBytes, Tx.prepare, List.getElem_map, List.getElem_range, writeBytes, fillZero]
  have hi : i < netHdrLen + frame.length := by simpa [readBytes] using h1
  by_cases hlt : i < netHdrLen
  · rw [if_neg (by omega), if_pos (by omega), List.getElem_append_left (by simpa using hlt),
      List.getElem_replicate]
  · rw [if_pos (by omega), List.getElem_append_right (by simpa using hlt),
      show st.txBuf + i - (st.txBuf + netHdrLen) = i - netHdrLen by omega]
    simp [List.getD_eq_getElem?_getD, show i - netHdrLen < frame.length by omega]

/-- A frame whose `send` has returned Ok is the last one that the device consumed. -/
def TxAttributed (s : ReqSystem TxSt (List UInt8) TxRequest Unit) : Prop :=
  ∀ frame, s.pc = .done frame (.ok ()) → s.posted.getLast? = some frame ∧
    s.completed.length = s.posted.length ∧
    s.st.sent.getLast? = some (List.replicate netHdrLen 0 ++ frame)

theorem tx_attributed {s : ReqSystem TxSt (List UInt8) TxRequest Unit}
    (h : s.Inv Tx.send) : TxAttributed s := by
  intro frame hpc
  rw [ReqSystem.Inv, hpc] at h
  obtain ⟨⟨-, -, hlen⟩, ⟨st, desc, o, hst, hlast, -⟩, -⟩ := h
  refine ⟨hlast, hlen, ?_⟩
  have hsent : s.st.sent = st.sent ++ [readBytes (Tx.prepare frame st desc).1.mem st.txBuf
      (netHdrLen + frame.length)] := by
    rw [hst]
    rfl
  rw [hsent, Tx.readBytes_prepare, List.getLast?_concat]

/-- Whatever the device's timing, as long as each call finds the queue quiet, a transfer
returns Ok only if the device has completed that transfer, and a send only if the device
has consumed that frame. -/
theorem completion_attributed (blk : BlkSt) (tx : TxSt) :
    (∀ s, Blk.transfer.Reaches QuietCalls blk s → BlkAttributed s) ∧
    (∀ s, Tx.send.Reaches QuietCalls tx s → TxAttributed s) :=
  ⟨fun _ h => blk_attributed h.inv, fun _ h => tx_attributed h.inv⟩

section Calls

/-- A disk whose second sector starts with a one. -/
def smallDisk : BlkSt :=
  ⟨⟨0, 0, 0⟩, 0xff, 64, 0x1000, 0x1010, fun _ => 0, fun b => if b = 512 then 1 else 0⟩

def firstRead : BlkCall := ⟨0, 0x2000, 512, false⟩
def secondRead : BlkCall := ⟨1, 0x3000, 512, false⟩

abbrev anyTime {σ C R O : Type} : ReqEvent C O → ReqSystem σ C R O → Prop := fun _ _ => True

/-- One call on a fresh queue, from the post to the result. -/
theorem Requester.first_call {σ C R O : Type} (D : Requester σ C R O) (st : σ) (c : C) (o : O)
    (hgo : D.accept st c = .go) : ∃ s, D.Reaches QuietCalls st s ∧ ∃ st' desc,
      D.prepare c st (VirtQueue.new).desc = (st', desc) ∧
      s.pc = .done c (D.verdict (D.perform (D.fetch st' desc 0) o st')) := by
  obtain ⟨st', desc, hprep⟩ : ∃ st' desc, D.prepare c st (VirtQueue.new).desc = (st', desc) :=
    ⟨_, _, rfl⟩
  have hcall : D.step (start st) (.call c) =
      some { start st with st := st', q.desc := desc, pc := .post c } := by
    simp only [Requester.step, start, Requester.callStep, hgo, hprep]
  have h₁ : D.Reaches QuietCalls st _ := (Runs.refl _).snoc (e := .call c) ⟨rfl, rfl, rfl⟩ hcall
  have h₂ : D.Reaches QuietCalls st _ := h₁.snoc (e := .driver) trivial rfl
  have h₃ : D.Reaches QuietCalls st _ := h₂.snoc (e := .driver) trivial rfl
  have h₄ : D.Reaches QuietCalls st _ := h₃.snoc (e := .fetch) trivial rfl
  have h₅ : D.Reaches QuietCalls st _ := h₄.snoc (e := .complete o ⟨0, 0⟩) trivial rfl
  have h₆ : D.Reaches QuietCalls st _ := h₅.snoc (e := .driver) trivial rfl
  have h₇ : D.Reaches QuietCalls st _ := h₆.snoc (e := .driver) trivial rfl
  exact ⟨_, h₇, st', desc, hprep, rfl⟩

/-- A read and a frame that are answered in time. -/
theorem completion_attributed_first :
    (∃ s, Blk.transfer.Reaches QuietCalls smallDisk s ∧ s.pc = .done secondRead (.ok ()) ∧
      BlkAttributed s) ∧
    (∃ s, Tx.send.Reaches QuietCalls ⟨fun _ => 0, 0x1000, []⟩ s ∧ s.pc = .done [7] (.ok ()) ∧
      TxAttributed s) := by
  obtain ⟨hblk, htx⟩ := completion_attributed smallDisk ⟨fun _ => 0, 0x1000, []⟩
  refine ⟨?_, ?_⟩
  · obtain ⟨s, hs, st', desc, hprep, hpc⟩ :=
      Blk.transfer.first_call smallDisk secondRead ⟨0, []⟩ (by decide)
    cases hprep
    exact ⟨s, hs, hpc, hblk s hs⟩
  · obtain ⟨s, hs, st', desc, hprep, hpc⟩ :=
      Tx.send.first_call ⟨fun _ => 0, 0x1000, []⟩ [7] () (by decide)
    exact ⟨s, hs, hpc, htx s hs⟩

set_option maxRecDepth 4000 in
/-- The device reads the first request and completes it after the driver has given up and
posted the second: the second read returns Ok, and its buffer was never written. -/
theorem completion_late :
    ∃ s, Blk.transfer.Reaches anyTime smallDisk s ∧ s.pc = .done secondRead (.ok ()) ∧
      s.completed.length < s.posted.length ∧ s.st.mem 0x3000 ≠ s.st.disk 512 ∧
      ¬ BlkAttributed s := by
  have h₁ : Blk.transfer.Reaches anyTime smallDisk _ :=
    (Runs.refl _).snoc (e := .call firstRead) trivial rfl
  have h₂ : Blk.transfer.Reaches anyTime smallDisk _ := h₁.snoc (e := .driver) trivial rfl
  have h₃ : Blk.transfer.Reaches anyTime smallDisk _ := h₂.snoc (e := .driver) trivial rfl
  have h₄ : Blk.transfer.Reaches anyTime smallDisk _ := h₃.snoc (e := .fetch) trivial rfl
  have h₅ := Requester.gives_up (fun _ => trivial) h₄ rfl rfl (Nat.zero_le _)
  have h₆ : Blk.transfer.Reaches anyTime smallDisk _ :=
    h₅.snoc (e := .call secondRead) trivial rfl
  have h₇ : Blk.transfer.Reaches anyTime smallDisk _ := h₆.snoc (e := .driver) trivial rfl
  have h₈ : Blk.transfer.Reaches anyTime smallDisk _ := h₇.snoc (e := .driver) trivial rfl
  have h₉ : Blk.transfer.Reaches anyTime smallDisk _ :=
    h₈.snoc (e := .complete ⟨0, []⟩ ⟨0, 513⟩) trivial rfl
  have h₁₀ : Blk.transfer.Reaches anyTime smallDisk _ := h₉.snoc (e := .driver) trivial rfl
  have h₁₁ : Blk.transfer.Reaches anyTime smallDisk _ := h₁₀.snoc (e := .driver) trivial rfl
  obtain ⟨s, hs, hpc, hmem, hdisk, hdone, hposted⟩ : ∃ s, Blk.transfer.Reaches anyTime smallDisk s ∧
      s.pc = .done secondRead (.ok ()) ∧
      s.st.mem = writeBytes (fun _ => 0) 0x2000 (readBytes smallDisk.disk 0 512) ∧
      s.st.disk = smallDisk.disk ∧ s.completed.length = 1 ∧ s.posted.length = 2 :=
    ⟨_, h₁₁, rfl, rfl, rfl, rfl, rfl⟩
  refine ⟨s, hs, hpc, by omega, ?_, fun hatt => ?_⟩
  · -- only the first buffer was written
    have hzero : s.st.mem 0x3000 = 0 := by
      rw [hmem, writeBytes, if_neg]
      simp [readBytes]
    rw [hzero, hdisk]
    decide
  · obtain ⟨-, hlen, -⟩ := hatt secondRead hpc
    omega

end Calls

end LightOS.Virtio
