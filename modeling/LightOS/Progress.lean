import LightOS.Asking
import LightOS.BootMemory

/-!
# Steps that succeed

A step of the machine fails only when something is missing: a frame, a slot in the
process table, a mapped page. Here are the other halves of the inversions: from a
memory in order and with enough free frames the calls that make, stop and wake
processes go through, and what they leave behind is known.
-/
namespace LightOS
open Lib PageAllocator

/-! ### The pages of a root -/

section Pages

variable {role role' : ℕ → Role} {m m' : Machine} {r : ℕ}

theorem userVa_inj {i1 i0 j1 j0 : ℕ} (hi1 : i1 < 512) (hi0 : i0 < 512) (hj1 : j1 < 512)
    (hj0 : j0 < 512) (h : SamePage (userVa j1 j0) (userVa i1 i0)) : j1 = i1 ∧ j0 = i0 := by
  obtain ⟨-, hi, hi'⟩ := vpn_userVa hi1 hi0
  obtain ⟨-, hj, hj'⟩ := vpn_userVa hj1 hj0
  exact ⟨hj.symm.trans (h.2.1.trans hi), hj'.symm.trans (h.2.2.trans hi')⟩

theorem leafVas_apart {l0 i1 : ℕ} (h1 : i1 < 512) {is : List ℕ} (hlt : ∀ i ∈ is, i < 512)
    (hn : is.Nodup) : (leafVas m l0 i1 is).Pairwise fun a b => ¬ SamePage b a := by
  rw [leafVas, List.pairwise_map]
  have hn' : (is.filter fun i => pteValid (m.pte l0 i)).Nodup := hn.filter _
  refine hn'.imp_of_mem fun {a b} ha hb hab hs => hab ?_
  have ha := hlt a (List.mem_of_mem_filter ha)
  have hb := hlt b (List.mem_of_mem_filter hb)
  exact (userVa_inj h1 ha h1 hb hs).2.symm

theorem mem_leafVas {l0 i1 va : ℕ} {is : List ℕ} (h : va ∈ leafVas m l0 i1 is) :
    ∃ i0 ∈ is, pteValid (m.pte l0 i0) = true ∧ va = userVa i1 i0 := by
  obtain ⟨i0, hi0, rfl⟩ := List.mem_map.mp h
  obtain ⟨h1, h2⟩ := List.mem_filter.mp hi0
  exact ⟨i0, h1, h2, rfl⟩

theorem mem_tableVas {l1 va : ℕ} {is : List ℕ} (h : va ∈ tableVas m l1 is) :
    ∃ i1 ∈ is, pteValid (m.pte l1 i1) = true ∧ ∃ i0 < 512,
      pteValid (m.pte (pteAddr (m.pte l1 i1)) i0) = true ∧ va = userVa i1 i0 := by
  obtain ⟨i1, hi1, hva⟩ := List.mem_flatMap.mp h
  split_ifs at hva with hv
  · obtain ⟨i0, hi0, hv0, rfl⟩ := mem_leafVas hva
    exact ⟨i1, hi1, hv, i0, List.mem_range.mp hi0, hv0, rfl⟩
  · simp at hva

theorem userPages_apart (m : Machine) (r : ℕ) :
    (userPages m r).Pairwise fun a b => ¬ SamePage b a := by
  have hrange : ∀ i ∈ List.range 512, i < 512 := fun i hi => List.mem_range.mp hi
  unfold userPages
  split_ifs
  · refine List.pairwise_flatMap.mpr ⟨fun i1 hi1 => ?_, ?_⟩
    · split_ifs
      · exact leafVas_apart (hrange i1 hi1) hrange List.nodup_range
      · exact List.Pairwise.nil
    · refine (List.nodup_range (n := 512)).imp_of_mem fun {i j} hi hj hne a ha b hb hs => ?_
      split_ifs at ha hb
      · obtain ⟨i0, hi0, -, rfl⟩ := mem_leafVas ha
        obtain ⟨j0, hj0, -, rfl⟩ := mem_leafVas hb
        exact hne (userVa_inj (hrange i hi) (hrange i0 hi0) (hrange j hj) (hrange j0 hj0) hs).1.symm
      all_goals simp at ha hb
  · exact List.Pairwise.nil

/-- The tables behind the user slot of a process root. -/
theorem Tables.user_tables (ht : Tables role m) (hr : role r = .root)
    (hv : pteValid (m.pte r userRootSlot) = true) :
    role (pteAddr (m.pte r userRootSlot)) = .table 1 r userRootSlot ∧ ∀ i1, i1 < 512 →
      pteValid (m.pte (pteAddr (m.pte r userRootSlot)) i1) = true →
      role (pteAddr (m.pte (pteAddr (m.pte r userRootSlot)) i1)) =
        .table 0 (pteAddr (m.pte r userRootSlot)) i1 := by
  have hns : ¬ Shared role m r userRootSlot := fun hs => hs.2.1 rfl
  have h1 : role (pteAddr (m.pte r userRootSlot)) = .table 1 r userRootSlot :=
    ((ht.down r 2 userRootSlot (by simp [hr, Role.level]) (by decide) hv hns).1 (by omega)).2
  refine ⟨h1, fun i1 hi1 hv1 => ?_⟩
  have hns' : ¬ Shared role m (pteAddr (m.pte r userRootSlot)) i1 := by
    intro hs
    have := hs.1.symm.trans h1
    simp at this
  exact ((ht.down _ 1 i1 (by simp [h1, Role.level]) hi1 hv1 hns').1 (by omega)).2

/-- The pages that the copy visits are pages of the root. -/
theorem userPages_hasPage (ht : Tables role m) (hr : role r = .root) {va : ℕ}
    (h : va ∈ userPages m r) : HasPage role m r va := by
  unfold userPages at h
  split_ifs at h with hv
  · obtain ⟨i1, hi1, hv1, i0, hi0, hv0, rfl⟩ := mem_tableVas h
    have hi1 := List.mem_range.mp hi1
    obtain ⟨h1, hl0⟩ := ht.user_tables hr hv
    have h0 := hl0 i1 hi1 hv1
    obtain ⟨e2, e1, e0⟩ := vpn_userVa hi1 hi0
    have hch : Chain role m r (userVa i1 i0)
        (pteAddr (m.pte (pteAddr (m.pte r userRootSlot)) i1)) :=
      ⟨_, by rw [e2, home_user]; exact h1, by rw [e1]; exact h0⟩
    exact ⟨_, hch, by rw [e0]; exact hv0⟩
  · simp at h

/-- And every page of the root in the window is visited. -/
theorem HasPage.mem_userPages (ht : Tables role m) {va : ℕ} (hva : vpn va 2 = userRootSlot)
    (h : HasPage role m r va) : userVa (vpn va 1) (vpn va 0) ∈ userPages m r := by
  obtain ⟨l0, ⟨l1, h1, h0⟩, hv⟩ := h
  rw [hva, home_user] at h1
  obtain ⟨-, -, hv2, ha2, -⟩ := ht.up l1 2 r _ h1
  obtain ⟨-, -, hv1, ha1, -⟩ := ht.up l0 1 l1 _ h0
  unfold userPages
  rw [if_pos hv2, ha2]
  refine List.mem_flatMap.mpr ⟨vpn va 1, List.mem_range.mpr (vpn_lt va 1), ?_⟩
  rw [if_pos hv1, ha1]
  refine List.mem_map.mpr ⟨vpn va 0, List.mem_filter.mpr ⟨List.mem_range.mpr (vpn_lt va 0), hv⟩, rfl⟩

/-- A list of distinct pages is no longer than a list that covers it. -/
theorem pages_length_le {vas vas' : List ℕ} (hp : vas.Pairwise fun a b => ¬ SamePage b a)
    (hc : ∀ a ∈ vas, ∃ b ∈ vas', SamePage a b) : vas.length ≤ vas'.length := by
  choose f hf using hc
  have hinj : (vas.attach.map fun a => f a.1 a.2).Nodup := by
    rw [List.Nodup, List.pairwise_map]
    have hp' : vas.attach.Pairwise fun a b => ¬ SamePage b.1 a.1 := by
      rw [← List.pairwise_map (f := Subtype.val) (R := fun a b => ¬ SamePage b a),
        List.attach_map_subtype_val]
      exact hp
    refine hp'.imp fun {a b} hab he => hab ?_
    obtain ⟨-, a2, a1, a0⟩ := hf a.1 a.2
    obtain ⟨-, b2, b1, b0⟩ := hf b.1 b.2
    rw [he] at a2 a1 a0
    exact ⟨b2.trans a2.symm, b1.trans a1.symm, b0.trans a0.symm⟩
  have hsub : (vas.attach.map fun a => f a.1 a.2) ⊆ vas' := by
    intro x hx
    obtain ⟨a, -, rfl⟩ := List.mem_map.mp hx
    exact (hf a.1 a.2).1
  have hle := (List.subperm_of_subset hinj hsub).length_le
  simpa using hle

/-- A root whose tables are untouched keeps its pages. -/
theorem userPages_congr (ht : Tables role m) (hr : role r = .root)
    (h : ∀ t l i, (role t).level = some l → i < 512 → m'.pte t i = m.pte t i) :
    userPages m' r = userPages m r := by
  unfold userPages
  rw [h r 2 userRootSlot (by simp [hr, Role.level]) (by decide)]
  split_ifs with hv
  · obtain ⟨h1, hl0⟩ := ht.user_tables hr hv
    refine List.flatMap_congr fun i1 hi1 => ?_
    have hi1 := List.mem_range.mp hi1
    rw [h _ 1 i1 (by simp [h1, Role.level]) hi1]
    split_ifs with hv1
    · have h0 := hl0 i1 hi1 hv1
      exact leafVas_congr fun i hi => h _ 0 i (by simp [h0, Role.level]) (List.mem_range.mp hi)
    · rfl
  · rfl

/-- The pages of a new space. -/
theorem NewSpace.length_le {vas : List ℕ} {ok : Bool} (h : NewSpace r vas ok role m role' m') :
    (userPages m' r).length ≤ vas.length := by
  refine pages_length_le (userPages_apart m' r) fun a ha => ?_
  exact h.pages a (userPages_slot a ha) (userPages_hasPage h.adds.good.tables h.adds.root ha)

end Pages

/-! ### Scheduling -/

section Scheduling

variable {k : Kernel} {p : Process} {slot : ℕ}

theorem pickNext_picked (hs : slot < maxProcs) (hf : Picked k.procs slot)
    (hp : k.procs.slots slot = some p) :
    pickNext k = .ok (some slot, { (k.setSlot slot (some { p with state := .running })) with
      procs := { k.procs.setSlot slot (some { p with state := .running }) with lastRun := slot } }) := by
  unfold pickNext
  rw [Prog.get_bind_ok]
  unfold Picked at hf
  rw [hf]
  dsimp only
  rw [procAt_bind]
  refine ⟨p, hs, hp, ?_⟩
  rw [setProc_bind, Prog.modify_bind_ok, Prog.pure_ok]
  rfl

theorem schedule_picks (hs : slot < maxProcs) (hf : Picked k.procs slot)
    (hp : k.procs.slots slot = some p) : schedule k = .ok ((), entered slot p k) := by
  unfold schedule
  rw [Prog.bind_ok]
  refine ⟨_, _, pickNext_picked hs hf hp, ?_⟩
  dsimp only
  rw [Prog.modify_bind_ok]
  unfold enterUser
  rw [Prog.get_bind_ok]
  exact setFrame_ok.mpr rfl

theorem pickNext_none (h : ∀ slot, ¬ Picked k.procs slot) : pickNext k = .ok (none, k) := by
  have hf : ((pickOrder k.procs.lastRun).find? fun i =>
      (k.procs.slots i).any (·.state = .ready)) = none :=
    Option.eq_none_iff_forall_ne_some.mpr h
  unfold pickNext
  rw [Prog.get_bind_ok, hf]
  rfl

theorem schedule_none (h : ∀ slot, ¬ Picked k.procs slot) : schedule k = .ok ((), k) := by
  unfold schedule
  rw [Prog.bind_ok]
  exact ⟨none, k, pickNext_none h, rfl⟩

theorem schedule_stays (h : ∀ i < maxProcs, ∀ p, k.procs.slots i = some p → p.state ≠ .ready) :
    schedule k = .ok ((), k) := by
  refine schedule_none fun slot hf => ?_
  obtain ⟨p, hp, hready⟩ := picked_some hf
  obtain ⟨j, -, rfl⟩ := List.mem_map.mp (List.mem_of_find?_eq_some hf)
  exact h _ (Nat.mod_lt _ (by decide)) p hp hready

/-- The scheduler always finds an answer. -/
theorem schedule_returns (k : Kernel) : ∃ k', schedule k = .ok ((), k') := by
  by_cases h : ∃ slot, Picked k.procs slot
  · obtain ⟨slot, hf⟩ := h
    obtain ⟨p, hp, -⟩ := picked_some hf
    obtain ⟨j, -, rfl⟩ := List.mem_map.mp (List.mem_of_find?_eq_some hf)
    exact ⟨_, schedule_picks (Nat.mod_lt _ (by decide)) hf hp⟩
  · exact ⟨k, schedule_none (not_exists.mp h)⟩

theorem park_returns (k : Kernel) : ∃ k', park k = .ok ((), k') := by
  obtain ⟨k', h⟩ := schedule_returns k.idle
  exact ⟨k', by unfold park; exact Prog.modify_bind_ok.mpr h⟩

theorem park_picks (hs : slot < maxProcs) (hf : Picked k.procs slot)
    (hp : k.procs.slots slot = some p) : park k = .ok ((), entered slot p k.idle) := by
  unfold park
  rw [Prog.modify_bind_ok]
  exact schedule_picks hs hf hp

theorem park_stays (h : ∀ i < maxProcs, ∀ p, k.procs.slots i = some p → p.state ≠ .ready) :
    park k = .ok ((), k.idle) := by
  unfold park
  rw [Prog.modify_bind_ok]
  exact schedule_stays h

end Scheduling

/-! ### Traps -/

/-- The kernel after a call has returned `ret` to the current process. -/
def answered (ret : ℤ) (k : Kernel) : Kernel :=
  (k.withFrame k.current ((k.frames k.current).setA0 (ofIsize ret))).withFrame k.current
    { (k.frames k.current).setA0 (ofIsize ret) with sstatus := userSstatus k.sstatus }

/-- The trap is a system call that can be served. -/
structure Calls (t : UserTrap) (io : Io) (no : Sysno) : Prop where
  cause : t.cause = .ecall io
  number : Sysno.ofNr (t.arg 17) = no
  sepc : t.sepc.toNat + 4 < usizeBound

section Traps

variable {k k1 : Kernel} {p : Process} {t : UserTrap} {io : Io} {no : Sysno}

theorem ne_noProc {i : ℕ} (h : i < maxProcs) : i ≠ noProc := by
  simp only [noProc, usizeBound, maxProcs] at *
  omega

theorem Next.of_dispatch (hc : Calls t io no) (hcur : k.current ≠ noProc)
    (h : dispatch io (trapState t k) = .ok ((), k1)) : Next (.trap t) k k1 := by
  unfold Next step
  rw [Prog.get_bind_ok]
  dsimp only
  rw [if_neg hcur, Prog.bind_ok]
  refine ⟨(), ({ k with sstatus := t.sstatus } : Kernel).withFrame k.current
    (saveFrame (k.frames k.current) t), ?_, ?_⟩
  · unfold userVec
    rw [Prog.get_bind_ok, Prog.bind_ok]
    exact ⟨(), _, rfl, setFrame_ok.mpr rfl⟩
  · rw [hc.cause]
    unfold usertrap
    rw [Prog.get_bind_ok, Prog.bind_ok]
    refine ⟨t.sepc.toNat + 4, _, Prog.ofExcept_ok.mpr ⟨checkedAdd_ok.mpr ⟨?_, ?_⟩, rfl⟩, ?_⟩
    · simpa [Kernel.withFrame, saveFrame] using hc.sepc
    · simp [Kernel.withFrame, saveFrame]
    · rw [setFrame_bind]
      refine Eq.trans ?_ h
      congr 1
      unfold trapState trapFrame
      rw [hc.cause]
      exact Kernel.withFrame_twice
        (f := fun tf => { tf with sepc := UInt64.ofNat (t.sepc.toNat + 4) })

theorem trapState_number (hc : Calls t io no) :
    Sysno.ofNr ((trapState t k).frames (trapState t k).current).a7 = no := by
  have ha7 : ((trapState t k).frames (trapState t k).current).a7 = t.arg 17 :=
    trapState_frame.symm ▸ trapFrame_reg hc.cause _ (by decide)
  rw [ha7, hc.number]

/-- A call that parks its caller. -/
theorem Next.of_parked (hc : Calls t io no) (hcur : k.current ≠ noProc)
    (h : syscall io ((trapState t k).frames k.current) no (trapState t k) = .ok (none, k1)) :
    Next (.trap t) k k1 := by
  refine .of_dispatch hc hcur ?_
  unfold dispatch
  rw [Prog.get_bind_ok, trapState_number hc, Prog.bind_ok]
  exact ⟨none, k1, h, rfl⟩

/-- A call that returns. -/
theorem Next.of_answered {ret : ℤ} (hc : Calls t io no) (hcur : k.current < maxProcs)
    (h : syscall io ((trapState t k).frames k.current) no (trapState t k) = .ok (some ret, k1))
    (hcur1 : k1.current = k.current) (hp : k1.procs.slots k.current = some p) :
    Next (.trap t) k (answered ret k1) := by
  refine .of_dispatch hc (ne_noProc hcur) ?_
  unfold dispatch
  rw [Prog.get_bind_ok, trapState_number hc, Prog.bind_ok]
  refine ⟨some ret, k1, h, ?_⟩
  dsimp only
  rw [Prog.get_bind_ok, setFrame_bind]
  unfold resumeCurrent
  rw [Prog.get_bind_ok, procAt_bind]
  refine ⟨p, hcur1 ▸ hcur, hcur1 ▸ hp, ?_⟩
  unfold enterUser
  rw [Prog.get_bind_ok, trapState_current, ← hcur1]
  refine setFrame_ok.mpr ?_
  simp [answered, Kernel.withFrame]

end Traps

/-! ### Making processes -/

/-- What the steps below leave alone. -/
structure Aside (k k' : Kernel) : Prop where
  rx : k'.rx = k.rx
  sockets : k'.net.sockets = k.net.sockets
  ticks : k'.ticks = k.ticks

section Steps

variable {role : ℕ → Role} {k : Kernel} {p : Process} {t : UserTrap} {io : Io}

/-- An address space is copied when the frames for the copy are there. -/
theorem clone_succeeds (hm : Memory role k) {i : ℕ} (hp : k.procs.slots i = some p) (pid : ℕ)
    (hfree : 1 + 3 * (userPages k.machine p.rootPa).length ≤ k.machine.pages.freeFrames) :
    ∃ r m1 m2 role', newUserRoot { k.machine with account := pid } = .ok (some r, m1) ∧
      cloneUserSpace p.rootPa r m1 = .ok (.ok (), m2) ∧
      NewSpace r (userPages k.machine p.rootPa) true role { k.machine with account := pid }
        role' m2 := by
  have hg := hm.good.account pid
  have hroot := hm.root _ p hp
  obtain ⟨res, m1, h1, hfresh⟩ := (newUserRoot_spec hg).returns
  cases res with
  | none =>
    have hzero : k.machine.pages.freeFrames = 0 := hfresh.2
    omega
  | some r =>
    change FreshRoot role { k.machine with account := pid } r m1 at hfresh
    have hsame : userPages m1 p.rootPa = userPages k.machine p.rootPa :=
      userPages_congr hm.good.tables hroot fun t l i hl hi => hfresh.got.pte hg hl hi
    have hne := hm.root_ne hfresh.got.free hp
    have hroot1 : Function.update role r .root p.rootPa = .root := by
      rw [hfresh.keep hg (by simp [hroot])]
      exact hroot
    obtain ⟨res, m2, h2, -⟩ :=
      (cloneUserSpace_spec hfresh.good hroot1 (FreshRoot.role_self role r) hne
        (hfresh.sees hg)).returns
    obtain ⟨role', hn⟩ := hm.fork_effect hp h1 h2
    rw [hsame] at hn
    have hok := hn.fails userPages_slot (userPages_apart _ _) hfree
    obtain ⟨u, rfl⟩ : ∃ u, res = .ok u := by
      cases res with
      | ok u => exact ⟨u, rfl⟩
      | error e => simp [Except.isOk, Except.toBool] at hok
    exact ⟨r, m1, m2, role', h1, h2, hn⟩

/-- A copy of an address space hands out frames. -/
theorem clone_records (hm : Memory role k) {i pid r : ℕ} (hp : k.procs.slots i = some p)
    {m1 m2 : Machine} {res : Except String Unit}
    (h1 : newUserRoot { k.machine with account := pid } = .ok (some r, m1))
    (h2 : cloneUserSpace p.rootPa r m1 = .ok (res, m2)) :
    k.machine.asks.length < m2.asks.length := by
  have hg := hm.good.account pid
  have hroot := hm.root _ p hp
  have hfresh := (newUserRoot_spec hg).ok h1
  change FreshRoot role { k.machine with account := pid } r m1 at hfresh
  have hroot1 : Function.update role r .root p.rootPa = .root := by
    rw [hfresh.keep hg (by simp [hroot])]
    exact hroot
  obtain ⟨l, hl, -⟩ := cloneUserSpace_asks hfresh.good (.inl hroot1) hroot1
    (FreshRoot.role_self role r) (hm.root_ne hfresh.got.free hp) _ _ h2
  rw [hl, newUserRoot_records h1]
  simp only [List.length_append, List.length_singleton]
  omega

/-- A fork succeeds when a slot and the frames for the copy are there. -/
theorem fork_next (hm : Memory role k) (hc : Calls t io .clone) (hcur : k.current < maxProcs)
    (hp : k.procs.slots k.current = some p) {slot : ℕ}
    (hslot : k.procs.position (·.isNone) = some slot) (hpid : k.procs.nextPid + 1 < usizeBound)
    (hfree : 1 + 3 * (userPages k.machine p.rootPa).length ≤ k.machine.pages.freeFrames) :
    ∃ k' r, Next (.trap t) k k' ∧ k'.current = k.current ∧
      (∀ i, k'.procs.slots i = if i = slot then some (forkChild k p r) else k.procs.slots i) ∧
      k'.procs.nextPid = k.procs.nextPid + 1 ∧ k'.procs.lastRun = k.procs.lastRun ∧ Aside k k' ∧
      k.machine.pages.freeFrames ≤
        k'.machine.pages.freeFrames + (1 + 3 * (userPages k.machine p.rootPa).length) ∧
      (userPages k'.machine r).length ≤ (userPages k.machine p.rootPa).length ∧
      k.machine.asks.length < k'.machine.asks.length ∧
      k'.history = k.history ++ [.forked p.pid k.procs.nextPid] := by
  obtain ⟨r, m1, m2, role', h1, h2, hn⟩ := clone_succeeds hm hp k.procs.nextPid hfree
  have hcall : syscall io ((trapState t k).frames k.current) .clone (trapState t k) =
      .ok (some (k.procs.nextPid : ℤ), forkState (trapState t k) p slot r m2) := by
    refine Prog.map_ok.mpr ⟨_, _, ?_, rfl⟩
    unfold sysFork forkCurrent
    rw [Prog.get_bind_ok]
    dsimp only
    rw [show (trapState t k).procs.position (·.isNone) = some slot from hslot]
    dsimp only
    rw [procAt_bind]
    refine ⟨p, hcur, hp, ?_⟩
    rw [Prog.bind_ok]
    refine ⟨_, _, onMachineFor_ok.mpr ⟨m1, h1, rfl⟩, ?_⟩
    dsimp only
    rw [onMachine_bind]
    refine ⟨_, _, h2, ?_⟩
    dsimp only
    rw [Prog.bind_ok]
    refine ⟨_, _, Prog.ofExcept_ok.mpr ⟨checkedAdd_ok.mpr ⟨hpid, rfl⟩, rfl⟩, ?_⟩
    rw [Prog.modify_bind_ok, setFrame_bind, setProc_bind, record_bind]
    rfl
  have hself : k.current ≠ slot := by
    rintro rfl
    have hnone := List.find?_some hslot
    simp [hp] at hnone
  have hnext := Next.of_answered hc hcur hcall rfl (p := p) (by
    change (if k.current = slot then _ else k.procs.slots k.current) = some p
    rw [if_neg hself, hp])
  refine ⟨_, r, hnext, rfl, fun i => rfl, rfl, rfl, ⟨rfl, rfl, rfl⟩, ?_, ?_, ?_, rfl⟩
  · exact hn.cost
  · exact hn.length_le
  · exact clone_records hm hp h1 h2

/-- A wait4 with a living child and no zombie blocks. -/
theorem wait_next (hc : Calls t io .wait4) (hcur : k.current < maxProcs)
    (hp : k.procs.slots k.current = some p) (hz : waitScan k.procs k.current = (true, none))
    {k' : Kernel} (hpark : park ((trapState t k).setSlot k.current (some (asleep p (t.arg 11)))) =
      .ok ((), k')) : Next (.trap t) k k' := by
  have ha : ((trapState t k).frames k.current).a1 = t.arg 11 :=
    trapState_frame.symm ▸ trapFrame_reg hc.cause _ (by decide)
  refine .of_parked hc (ne_noProc hcur) (Prog.bind_ok.mpr ⟨(), k', ?_, rfl⟩)
  unfold waitCurrent
  rw [ha, Prog.get_bind_ok]
  dsimp only
  rw [show waitScan (trapState t k).procs (trapState t k).current = (true, none) from hz,
    procAt_bind]
  refine ⟨p, hcur, hp, ?_⟩
  dsimp only
  rw [if_pos rfl, setProc_bind]
  exact hpark

/-- The end of `exitCurrent`, from the look at the parent on. -/
def exitTail (parent cur : ℕ) : KernelM Unit := do
  if parent ≠ noProc then
    match ← slotAt parent with
    | some par => if par.state = .sleepChild then completeWait parent cur
    | none => pure ()
  park

/-- The end of an exit that nobody waits for. -/
theorem exit_parks {cur : ℕ} (hpar : p.parent < maxProcs) (hno : ¬ ParentWaits k p) {k' : Kernel}
    (hpark : park k = .ok ((), k')) : exitTail p.parent cur k = .ok ((), k') := by
  unfold exitTail
  rw [if_pos (ne_noProc hpar), slotAt_bind]
  refine ⟨hpar, ?_⟩
  cases hs : k.procs.slots p.parent with
  | none => exact hpark
  | some par =>
    dsimp only
    rw [if_neg fun hsl => hno ⟨ne_noProc hpar, par, hs, hsl⟩]
    exact hpark

/-- The end of an exit whose parent waits. -/
theorem exit_reaps {cur : ℕ} {par : Process} {k1 k' : Kernel} (hpar : p.parent < maxProcs)
    (hs : k.procs.slots p.parent = some par) (hsl : par.state = .sleepChild)
    (hreap : completeWait p.parent cur k = .ok ((), k1)) (hpark : park k1 = .ok ((), k')) :
    exitTail p.parent cur k = .ok ((), k') := by
  unfold exitTail
  rw [if_pos (ne_noProc hpar), slotAt_bind]
  refine ⟨hpar, ?_⟩
  rw [hs]
  dsimp only
  rw [if_pos hsl]
  exact Prog.bind_ok.mpr ⟨(), k1, hreap, hpark⟩

/-- A zombie is reaped, whether or not its parent asks for the status. -/
theorem completeWait_returns (hm : Memory role k) {par child : ℕ} {c : Process}
    (hpar : k.procs.slots par = some p) (hchild : k.procs.slots child = some c)
    (hpi : par < maxProcs) (hci : child < maxProcs) :
    ∃ k', completeWait par child k = .ok ((), k') := by
  obtain ⟨r, m1, hcopy, hdata⟩ := (copyOut_spec p.waitStatusUva (wstatusBytes c.exitCode) hm.good
    (hm.root _ p hpar)).returns
  -- the machine once the status is stored, if it is
  obtain ⟨m, hm1, hgood⟩ : ∃ m, (if p.waitStatusUva ≠ 0 then m = m1 else m = k.machine) ∧
      Good role m := by
    by_cases huva : p.waitStatusUva ≠ 0
    · exact ⟨m1, by rw [if_pos huva], hdata.good hm.good⟩
    · exact ⟨k.machine, by rw [if_neg huva], hm.good⟩
  obtain ⟨u, m2, hfree, -⟩ := (pageFree_root_spec hgood (hm.root _ c hchild)).returns
  refine ⟨(((({ k with machine := m2 }.setSlot par (some { p with state := .ready })).withFrame
    par ((k.frames par).setA0 c.pid))).setSlot child none).log (.reaped p.pid c.pid), ?_⟩
  unfold completeWait
  rw [procAt_bind]
  refine ⟨c, hci, hchild, ?_⟩
  rw [procAt_bind]
  refine ⟨p, hpi, hpar, ?_⟩
  rw [setProc_bind]
  dsimp only
  by_cases huva : p.waitStatusUva ≠ 0
  · rw [if_pos huva] at hm1 ⊢
    obtain rfl := hm1
    rw [onMachine_bind]
    refine ⟨r, m, hcopy, ?_⟩
    rw [Prog.get_bind_ok, setFrame_bind, onMachine_bind]
    refine ⟨u, m2, hfree, ?_⟩
    rw [setProc_bind]
    exact record_ok.mpr rfl
  · rw [if_neg huva] at hm1 ⊢
    obtain rfl := hm1
    rw [Prog.get_bind_ok, setFrame_bind, onMachine_bind]
    refine ⟨u, m2, hfree, ?_⟩
    rw [setProc_bind]
    exact record_ok.mpr rfl

/-- An exit ends where the look at the parent leads. -/
theorem exit_next (hm : Memory role k) (hc : Calls t io .exit) (hcur : k.current < maxProcs)
    (hp : k.procs.slots k.current = some p) (hpid : p.pid ≠ 1) :
    ∃ m1 k1, Exit (toI32 (t.arg 10)) p m1 (trapState t k) k1 ∧
      ∀ k', exitTail p.parent k.current k1 = .ok ((), k') → Next (.trap t) k k' := by
  have ha : ((trapState t k).frames k.current).a0 = t.arg 10 :=
    trapState_frame.symm ▸ trapFrame_reg hc.cause _ (by decide)
  obtain ⟨u, m1, hfree, -⟩ := (freeUserSpace_spec hm.good (hm.root _ p hp)).returns
  refine ⟨m1, _, ⟨hp, hpid, hfree, rfl⟩, fun k' htail => ?_⟩
  refine .of_parked hc (ne_noProc hcur) (Prog.bind_ok.mpr ⟨(), k', ?_, rfl⟩)
  unfold exitCurrent
  rw [ha, Prog.get_bind_ok]
  dsimp only
  rw [procAt_bind]
  refine ⟨p, hcur, hp, ?_⟩
  rw [if_neg hpid, onMachine_bind]
  refine ⟨u, m1, hfree, ?_⟩
  rw [Prog.get_bind_ok, Prog.modify_bind_ok, procAt_bind]
  refine ⟨adopt k.current (initSlot k.procs) p, hcur, ?_, ?_⟩
  · change (k.procs.slots k.current).map _ = some _
    rw [hp]
    rfl
  rw [setProc_bind, record_bind]
  exact htail

/-- A timer interrupt in user mode puts the process behind the others. -/
theorem timer_next (ht : t.cause = .interrupt .timer) (hcur : k.current < maxProcs)
    (hp : k.procs.slots k.current = some p) (hrun : p.state = .running)
    (hticks : k.ticks + 1 < usizeBound) {k' : Kernel}
    (hpark : park ({ trapState t k with ticks := k.ticks + 1 }.setSlot k.current
      (some { p with state := .ready })) = .ok ((), k')) : Next (.trap t) k k' := by
  have hs : trapState t k = ({ k with sstatus := t.sstatus } : Kernel).withFrame k.current
      (saveFrame (k.frames k.current) t) := by
    unfold trapState trapFrame
    rw [ht]
  unfold Next step
  rw [Prog.get_bind_ok]
  dsimp only
  rw [if_neg (ne_noProc hcur), Prog.bind_ok]
  refine ⟨(), trapState t k, ?_, ?_⟩
  · unfold userVec
    rw [Prog.get_bind_ok, Prog.bind_ok]
    exact ⟨(), _, rfl, setFrame_ok.mpr hs⟩
  rw [ht]
  unfold usertrap timerTick
  rw [Prog.bind_ok]
  refine ⟨(), { trapState t k with ticks := k.ticks + 1 }, ?_, ?_⟩
  · rw [Prog.get_bind_ok, Prog.bind_ok]
    exact ⟨_, _, Prog.ofExcept_ok.mpr ⟨checkedAdd_ok.mpr ⟨hticks, rfl⟩, rfl⟩, rfl⟩
  unfold yieldCurrent
  rw [Prog.get_bind_ok, slotAt_bind]
  refine ⟨hcur, ?_⟩
  rw [show ({ trapState t k with ticks := k.ticks + 1 } : Kernel).procs.slots
    ({ trapState t k with ticks := k.ticks + 1 } : Kernel).current = some p from hp]
  dsimp only
  rw [if_pos hrun, setProc_bind]
  exact hpark

/-- A read of an empty console blocks. -/
theorem read_next (hc : Calls t io .read) (hcur : k.current < maxProcs)
    (hp : k.procs.slots k.current = some p) (hfd : t.arg 10 = 0) (hlen : t.arg 12 ≠ 0)
    {rx : RxRing} (hb : k.rx.readBytes (min (t.arg 12) 128) = ([], rx)) {k' : Kernel}
    (hpark : park ({ trapState t k with rx := rx }.setSlot k.current (some { p with
      state := .sleepConsole, readBufUva := t.arg 11, readLen := t.arg 12 })) = .ok ((), k')) :
    Next (.trap t) k k' := by
  have harg : ∀ i : Fin 32, i ≠ 0 → ((trapState t k).frames k.current).reg i = t.arg i := by
    intro i hi
    rw [trapState_frame, trapFrame_reg hc.cause _ hi]
  have ha0 : ((trapState t k).frames k.current).a0 = t.arg 10 := harg 10 (by decide)
  have ha1 : ((trapState t k).frames k.current).a1 = t.arg 11 := harg 11 (by decide)
  have ha2 : ((trapState t k).frames k.current).a2 = t.arg 12 := harg 12 (by decide)
  refine .of_parked hc (ne_noProc hcur) ?_
  unfold syscall sysRead
  rw [ha0, ha1, ha2, hfd]
  dsimp only
  rw [if_neg (by decide), if_neg (by decide), if_neg hlen, Prog.get_bind_ok]
  rw [show (trapState t k).rx.readBytes (min (t.arg 12) 128) = ([], rx) from hb]
  dsimp only
  rw [Prog.modify_bind_ok, if_pos rfl, Prog.bind_ok]
  refine ⟨(), k', ?_, rfl⟩
  unfold blockOnConsole
  rw [Prog.get_bind_ok, procAt_bind]
  refine ⟨p, hcur, hp, ?_⟩
  rw [setProc_bind]
  exact hpark

/-- Input that arrives in the idle loop completes the read of the first sleeper. -/
theorem uart_next (hcur : k.current = noProc) {input bytes : List UInt8} {rx rx' : RxRing}
    (hrx : k.rx.receiveAll input = (rx, true)) {slot : ℕ}
    (hslot : k.procs.position (fun s => s.any (·.state = .sleepConsole)) = some slot)
    (hp : k.procs.slots slot = some p) (hlt : slot < maxProcs)
    (hb : rx.readBytes (min p.readLen 128) = (bytes, rx')) (hne : bytes ≠ [])
    {r : Except String Unit} {m : Machine}
    (hcopy : copyOut p.rootPa p.readBufUva bytes k.machine = .ok (r, m)) {k' : Kernel}
    (hsched : schedule (woken { k with rx := rx } slot p bytes rx' r m) = .ok ((), k')) :
    Next (.idle (some (.external irqUart0 input))) k k' := by
  unfold Next step
  rw [Prog.get_bind_ok]
  dsimp only
  rw [if_pos hcur, Prog.bind_ok]
  refine ⟨(), _, ?_, hsched⟩
  change handleInterrupt input k = _
  unfold handleInterrupt
  rw [Prog.get_bind_ok, hrx]
  dsimp only
  rw [Prog.bind_ok]
  refine ⟨(), { k with rx := rx }, rfl, ?_⟩
  rw [if_pos rfl]
  unfold wakeConsoleReader
  rw [Prog.get_bind_ok, hslot]
  dsimp only
  rw [procAt_bind]
  refine ⟨p, hlt, hp, ?_⟩
  rw [hb]
  dsimp only
  rw [Prog.modify_bind_ok, if_neg hne, onMachine_bind]
  refine ⟨r, m, hcopy, ?_⟩
  rw [Prog.get_bind_ok, setFrame_bind]
  refine setProc_ok.mpr ?_
  cases r <;> rfl

/-- A socket for a process with no open files. -/
theorem socket_next (hc : Calls t io .socket) (hcur : k.current < maxProcs)
    (hp : k.procs.slots k.current = some p) (hfiles : p.files = []) (ha0 : t.arg 10 = afInet)
    (ha1 : t.arg 11 = sockDgram) {idx : ℕ} {st : SocketTable}
    (ha : k.net.sockets.alloc = some (idx, st)) :
    ∃ k', Next (.trap t) k k' ∧ k'.current = k.current ∧ k'.net.sockets = st ∧
      (∀ i, k'.procs.slots i = if i = k.current then
        some { p with files := [some ⟨.socket idx k.net.sockets.nextSerial, 0⟩] }
        else k.procs.slots i) ∧ k'.procs.lastRun = k.procs.lastRun ∧
      k'.procs.nextPid = k.procs.nextPid ∧ k'.machine = k.machine ∧ k'.ticks = k.ticks := by
  have h0 : ((trapState t k).frames k.current).a0 = afInet := by
    rw [← ha0]
    exact trapState_frame.symm ▸ trapFrame_reg hc.cause _ (by decide)
  have h1 : ((trapState t k).frames k.current).a1 = sockDgram := by
    rw [← ha1]
    exact trapState_frame.symm ▸ trapFrame_reg hc.cause _ (by decide)
  have hcall : syscall io ((trapState t k).frames k.current) .socket (trapState t k) =
      .ok (some ((0 + 3 : ℕ) : ℤ), { trapState t k with net := { k.net with sockets := st } }.setSlot k.current
        (some { p with files := [some ⟨.socket idx k.net.sockets.nextSerial, 0⟩] })) := by
    refine Prog.map_ok.mpr ⟨_, _, ?_, rfl⟩
    unfold sysSocket
    rw [h0, h1, if_neg (by decide), Prog.get_bind_ok]
    rw [show (trapState t k).net.sockets.alloc = some (idx, st) from ha]
    dsimp only
    rw [Prog.modify_bind_ok]
    unfold installFd
    rw [Prog.get_bind_ok, slotAt_bind]
    refine ⟨hcur, ?_⟩
    rw [show ({ trapState t k with net := { k.net with sockets := st } } : Kernel).procs.slots
      ({ trapState t k with net := { k.net with sockets := st } } : Kernel).current = some p from hp]
    dsimp only
    rw [hfiles]
    rfl
  refine ⟨_, Next.of_answered hc hcur hcall rfl (if_pos rfl), rfl, rfl, fun i => rfl, rfl, rfl, rfl,
    rfl⟩

/-- Closing the only descriptor, a socket. -/
theorem close_next (hc : Calls t io .close) (hcur : k.current < maxProcs)
    (hp : k.procs.slots k.current = some p) {idx serial pos : ℕ}
    (hfiles : p.files = [some ⟨.socket idx serial, pos⟩]) (ha0 : t.arg 10 = 3) :
    ∃ k', Next (.trap t) k k' ∧ k'.current = k.current ∧
      k'.net.sockets = k.net.sockets.free idx ∧
      (∀ i, k'.procs.slots i = if i = k.current then some { p with files := [none] }
        else k.procs.slots i) ∧ k'.procs.lastRun = k.procs.lastRun ∧
      k'.procs.nextPid = k.procs.nextPid := by
  have h0 : ((trapState t k).frames k.current).a0 = 3 := by
    rw [← ha0]
    exact trapState_frame.symm ▸ trapFrame_reg hc.cause _ (by decide)
  have hcall : syscall io ((trapState t k).frames k.current) .close (trapState t k) =
      .ok (some 0, { trapState t k with net :=
        { k.net with sockets := k.net.sockets.free idx } }.setSlot k.current
        (some { p with files := [none] })) := by
    refine Prog.map_ok.mpr ⟨_, _, ?_, rfl⟩
    unfold sysClose
    rw [h0]
    dsimp only
    rw [if_neg (by decide), Prog.get_bind_ok, procAt_bind]
    refine ⟨p, hcur, hp, ?_⟩
    rw [Process.file, hfiles]
    rfl
  exact ⟨_, Next.of_answered hc hcur hcall rfl (if_pos rfl), rfl, rfl, fun i => rfl, rfl, rfl⟩

theorem idle_next (hcur : k.current = noProc) {k' : Kernel} (hsched : schedule k = .ok ((), k')) :
    Next (.idle none) k k' := by
  unfold Next step
  rw [Prog.get_bind_ok]
  dsimp only
  rw [if_pos hcur]
  exact hsched

end Steps

/-! ### The first process -/

/-- A program image with one segment of one page, which is no page of the stack. -/
structure OnePage (image : List UInt8) (entry va : ℕ) : Prop where
  load : ∃ phoff phentsize seg, Elf.readHeader image = .ok (.ok (entry, phoff, phentsize, 1)) ∧
    Elf.readSegment image phoff phentsize 0 = .ok (.ok (some seg)) ∧
    seg.endVa = .ok (va + pageSize) ∧ seg.pageVas (va + pageSize) = [va]
  aligned : va % pageSize = 0
  slot : vpn va 2 = userRootSlot
  off_stack : ∀ i < userStackPages, ¬ SamePage (stackVa i) va

section Start

variable {role : ℕ → Role} {m : Machine} {image : List UInt8} {entry va : ℕ}

/-- The pages of such a process. -/
def onePageVas (va : ℕ) : List ℕ := [va] ++ (List.range userStackPages).map stackVa

theorem OnePage.window (h : OnePage image entry va) :
    ∀ a ∈ onePageVas va, vpn a 2 = userRootSlot := by
  intro a ha
  rcases List.mem_append.mp ha with ha | ha
  · obtain rfl := List.mem_singleton.mp ha
    exact h.slot
  · obtain ⟨i, hi, rfl⟩ := List.mem_map.mp ha
    exact stackVa_slot (List.mem_range.mp hi)

theorem stackVa_apart {i j : ℕ} (hij : i < j) (hj : j < userStackPages) :
    ¬ SamePage (stackVa j) (stackVa i) := by
  intro hs
  have hlt : ∀ n < userStackPages, stackVa n < 2 ^ 39 := by
    intro n hn
    simp only [stackVa, userStackTop, userStackPages, pageSize] at *
    omega
  have := vpn_inj (hlt j hj) (hlt i (hij.trans hj)) hs.2.2 hs.2.1 hs.1
  simp only [stackVa, userStackTop, userStackPages, pageSize] at *
  omega

theorem OnePage.apart (h : OnePage image entry va) :
    (onePageVas va).Pairwise fun a b => ¬ SamePage b a := by
  refine List.pairwise_append.mpr ⟨List.pairwise_singleton _ _, ?_, ?_⟩
  · rw [List.pairwise_map]
    exact List.pairwise_lt_range.imp_of_mem fun _ hj hij => stackVa_apart hij (List.mem_range.mp hj)
  · intro a ha b hb
    obtain rfl := List.mem_singleton.mp ha
    obtain ⟨i, hi, rfl⟩ := List.mem_map.mp hb
    exact h.off_stack i (List.mem_range.mp hi)

theorem OnePage.build (h : OnePage image entry va) (hg : Good role m)
    (hfree : 52 ≤ m.pages.freeFrames) : Prog.Wp (buildAddressSpace image) m (fun res m' =>
      ∃ q role', res = .ok (q, entry, va + pageSize) ∧
        NewSpace q (onePageVas va) true role m role' m') Prog.Never := by
  obtain ⟨phoff, phentsize, seg, hheader, hseg, hend, hvas⟩ := h.load
  have hlen : 1 + 3 * (onePageVas va).length ≤ m.pages.freeFrames := by
    simpa [onePageVas, userStackPages] using hfree
  unfold buildAddressSpace
  refine (newUserRoot_spec hg).bind fun res m1 h1 => ?_
  cases res with
  | none =>
    have hzero : m.pages.freeFrames = 0 := h1.2
    omega
  | some q =>
    change FreshRoot role m q m1 at h1
    have hroot := FreshRoot.role_self role q
    -- the one segment, then the end of the loop
    have hload : Prog.Wp (Elf.load image q) m1 (fun res m2 => ∃ role2,
        NewPages q [va] res.isOk (Function.update role q .root) m1 role2 m2 ∧
        (res.isOk = true → res = .ok ⟨entry, va + pageSize⟩)) Prog.Never := by
      unfold Elf.load
      rw [Prog.wp_bind, Prog.wp_ofExcept, hheader]
      dsimp only
      rw [show List.range 1 = [0] from rfl, Elf.loadSegments, Prog.wp_bind, Prog.wp_bind,
        Prog.wp_ofExcept, hseg]
      dsimp only
      rw [Prog.wp_bind, Prog.wp_ofExcept, hend]
      dsimp only
      rw [hvas, Prog.tryEach]
      rw [Prog.wp_bind, Prog.wp_bind]
      refine (Elf.loadPage_spec image seg h1.good hroot h.aligned).mono ?_ fun _ h => h
      rintro res m2 ⟨role2, h2⟩
      have hone := NewPages.one h1.good h2.page
      cases res with
      | error e =>
        exact Prog.wp_pure.mpr (Prog.wp_pure.mpr (Prog.wp_pure.mpr ⟨role2, hone, by simp [isOk_error]⟩))
      | ok u =>
        have hbrk : max 0 (va + pageSize) ≠ 0 := by
          simp only [pageSize]
          omega
        refine Prog.wp_pure.mpr (Prog.wp_pure.mpr ?_)
        dsimp only
        rw [if_neg hbrk, Nat.zero_max]
        exact Prog.wp_pure.mpr ⟨role2, hone, fun _ => rfl⟩
    refine hload.bind ?_
    rintro res m2 ⟨role2, h2, hres⟩
    cases res with
    | error e =>
      have hspace := h1.newSpace hg (h2.stop ((List.range userStackPages).map stackVa))
      exact absurd (hspace.fails h.window h.apart hlen) (by simp)
    | ok loaded =>
      obtain rfl := Except.ok.inj (hres rfl)
      have hroot2 := (h2.grows.root_iff q).mpr hroot
      refine (mapStack_spec h2.grows.good hroot2 (h2.grows.good.sees (Or.inl hroot2))).bind ?_
      rintro res m3 ⟨role3, h3⟩
      have hspace := h1.newSpace hg (h2.trans h1.good h3.pages)
      have hok := hspace.fails h.window h.apart hlen
      cases res with
      | error e => simp [isOk_error] at hok
      | ok u => exact Prog.wp_pure.mpr ⟨q, role3, rfl, hspace⟩

/-- The spawn of a process from such an image. -/
theorem spawn_next {k : Kernel} {disk : Disk} {name : List UInt8} (h : OnePage image entry va)
    (hm : Memory role k) (hcur : k.current = noProc)
    (himage : k.fs.loadProgram disk name = .ok (some image)) {slot : ℕ}
    (hslot : k.procs.position (·.isNone) = some slot) (hpid : k.procs.nextPid + 1 < usizeBound)
    (hfree : 52 ≤ k.machine.pages.freeFrames) :
    ∃ q m, Next (.spawn disk name) k (spawnState k name slot q entry (va + pageSize) m) ∧
      k.machine.pages.freeFrames ≤ m.pages.freeFrames + 52 ∧ (userPages m q).length ≤ 17 ∧
      userVa (vpn va 1) (vpn va 0) ∈ userPages m q ∧
      ∀ a ∈ userPages m q, ∃ b ∈ onePageVas va, SamePage a b := by
  have hg := hm.good.account k.procs.nextPid
  obtain ⟨res, m, hb, q, role', rfl, hn⟩ := (h.build hg hfree).returns
  refine ⟨q, m, ?_, ?_, ?_, ?_, fun a ha => ?_⟩
  · unfold Next step
    rw [Prog.get_bind_ok]
    dsimp only
    rw [if_pos hcur, Prog.bind_ok]
    refine ⟨.ok k.procs.nextPid, _, ?_, rfl⟩
    unfold spawn
    rw [Prog.get_bind_ok, Prog.bind_ok]
    refine ⟨_, _, Prog.ofExcept_ok.mpr ⟨himage, rfl⟩, ?_⟩
    dsimp only
    rw [Prog.get_bind_ok, Prog.bind_ok]
    refine ⟨_, _, onMachineFor_ok.mpr ⟨m, hb, rfl⟩, ?_⟩
    dsimp only
    rw [Prog.get_bind_ok]
    dsimp only
    rw [hslot]
    dsimp only
    rw [Prog.bind_ok]
    refine ⟨_, _, Prog.ofExcept_ok.mpr ⟨checkedAdd_ok.mpr ⟨hpid, rfl⟩, rfl⟩, ?_⟩
    rw [Prog.modify_bind_ok, setFrame_bind, setProc_bind]
    rfl
  · have := hn.cost
    simpa [onePageVas, userStackPages] using this
  · have := hn.length_le
    simpa [onePageVas, userStackPages] using this
  · have hva : va ∈ onePageVas va := by simp [onePageVas]
    exact (hn.mapped rfl va hva).mem_userPages hn.adds.good.tables h.slot
  · exact hn.pages a (userPages_slot a ha) (userPages_hasPage hn.adds.good.tables hn.adds.root ha)

end Start

/-- An endless loop, linked at the start of the user window. -/
def tinyImage : List UInt8 :=
  [0x7f, 0x45, 0x4c, 0x46, 2, 1, 1, 0, 0, 0, 0, 0, 0, 0, 0, 0,
   2, 0, 0xf3, 0, 1, 0, 0, 0, 0, 0, 0, 0x40, 0, 0, 0, 0,
   64, 0, 0, 0, 0, 0, 0, 0, 0, 0, 0, 0, 0, 0, 0, 0,
   0, 0, 0, 0, 64, 0, 56, 0, 1, 0, 0, 0, 0, 0, 0, 0,
   1, 0, 0, 0, 5, 0, 0, 0, 120, 0, 0, 0, 0, 0, 0, 0,
   0, 0, 0, 0x40, 0, 0, 0, 0, 0, 0, 0, 0x40, 0, 0, 0, 0,
   4, 0, 0, 0, 0, 0, 0, 0, 4, 0, 0, 0, 0, 0, 0, 0,
   0, 16, 0, 0, 0, 0, 0, 0, 0x6f, 0, 0, 0]

set_option maxRecDepth 4000 in
theorem tinyImage_onePage : OnePage tinyImage 0x40000000 0x40000000 :=
  ⟨⟨64, 56, ⟨5, 120, 0x40000000, 4, 4⟩, by rfl, by rfl, by rfl, by rfl⟩, by decide, by decide,
    by decide⟩

/-- A machine with an empty kernel image and no disk, and with this program for init. -/
def tinyReset (image : List UInt8) : Reset where
  linker :=
    { textEnd := ramStart, rodataStart := ramStart, rodataEnd := ramStart, dataStart := ramStart
      heapStart := ramStart, text_start := le_rfl, text_le := le_rfl, rodata_aligned := by decide
      rodata_le := le_rfl, data_le := le_rfl, data_aligned := by decide, heap_le := le_rfl
      heap_aligned := by decide, ram_le := by decide }
  mem := fun _ => 0
  blkPages := 0
  netPages := 0
  iface := none
  ipIdent := 0
  rx := RxRing.empty
  nces := []
  fs := ⟨none, ⟨image, image⟩⟩
  ticks := 0
  sstatus := 0
  kernelStackTop := 0

theorem tinyReset_frames (image : List UInt8) : (tinyReset image).linker.frames = 32768 :=
  show (tinyReset []).linker.frames = 32768 by decide

/-- A started machine of which everything later steps depend on is known. The page of the
program is at `va`. -/
structure FirstState (va : ℕ) (k : Kernel) (p : Process) : Prop where
  started : Started k
  slots : ∀ i, k.procs.slots i = if i = 0 then some p else none
  pid : p.pid = 1
  state : p.state = .ready
  parent : p.parent = noProc
  files : p.files = []
  mmap : p.nextMmap = mmapBase
  nextPid : k.procs.nextPid = 2
  lastRun : k.procs.lastRun = 0
  current : k.current = noProc
  rx : k.rx = RxRing.empty
  sockets : k.net.sockets = SocketTable.empty
  ticks : k.ticks = 0
  free : 20000 ≤ k.machine.pages.freeFrames
  pages : (userPages k.machine p.rootPa).length ≤ 17
  own_page : userVa (vpn va 1) (vpn va 0) ∈ userPages k.machine p.rootPa
  pages_of : ∀ a ∈ userPages k.machine p.rootPa, ∃ b ∈ onePageVas va, SamePage a b

theorem boot_rest {r : Reset} {k : Kernel} (h : boot r = .ok k) :
    k.rx = r.rx ∧ k.fs = r.fs ∧ k.ticks = r.ticks := by
  unfold boot at h
  cases hb : bootMemory r r.machine with
  | error e =>
    rw [hb] at h
    cases h
  | ok a =>
    rw [hb] at h
    obtain rfl := Except.ok.inj h
    exact ⟨rfl, rfl, rfl⟩

/-- Without a disk the embedded image is used. -/
theorem loadProgram_embedded (image : List UInt8) :
    Fs.loadProgram ⟨none, ⟨image, image⟩⟩ (fun _ => .error "") (asciiBytes "init") =
      .ok (some image) := by
  have h : Ramfs.lookup ⟨image, image⟩ (asciiBytes "init") = some image := by simp [Ramfs.lookup]
  unfold Fs.loadProgram
  rw [h]
  rfl

theorem exists_first {image : List UInt8} {entry va : ℕ} (h : OnePage image entry va) :
    ∃ k p, FirstState va k p := by
  have hframes := tinyReset_frames image
  obtain ⟨kb, role, hb, hm, hfree⟩ := boot_succeeds (tinyReset image) (by omega)
  obtain ⟨hrx, hfs, hticks⟩ := boot_rest hb
  have hbooted : Booted kb := ⟨tinyReset image, kb, hb, .refl _⟩
  have hf := hbooted.fresh
  have himage : kb.fs.loadProgram (fun _ => .error "") (asciiBytes "init") =
      .ok (some image) := by
    rw [hfs]
    exact loadProgram_embedded image
  have hslot : kb.procs.position (·.isNone) = some 0 := by
    rw [hf.procs]
    rfl
  have hpid : kb.procs.nextPid = 1 := by rw [hf.procs]
  obtain ⟨q, m, hn, hcost, hpages, hown, hof⟩ := spawn_next h hm hf.current himage hslot
    (by rw [hpid]; decide) (by omega)
  obtain ⟨p, hp, hslots⟩ : ∃ p, p = freshProcess kb.procs.nextPid noProc q mmapBase
      (va + pageSize) (setName zeroName (asciiBytes "init")) [] ∧
      ∀ i, (spawnState kb (asciiBytes "init") 0 q entry (va + pageSize) m).procs.slots i =
        if i = 0 then some p else none := by
    refine ⟨_, rfl, fun i => ?_⟩
    change (if i = 0 then _ else kb.procs.slots i) = _
    rw [hf.procs]
  refine ⟨_, p, ⟨kb, _, hbooted, hn, ?_⟩, hslots, ?_, ?_, ?_, ?_, ?_, ?_, ?_, hf.current, hrx,
    hf.sockets, hticks, ?_, ?_, ?_, ?_⟩
  · rw [hslots, if_pos rfl]
    simp
  · rw [hp]
    exact hpid
  · rw [hp]
    rfl
  · rw [hp]
    rfl
  · rw [hp]
    rfl
  · rw [hp]
    rfl
  · change kb.procs.nextPid + 1 = 2
    omega
  · change kb.procs.lastRun = 0
    rw [hf.procs]
  · change 20000 ≤ m.pages.freeFrames
    omega
  · rw [hp]
    exact hpages
  · rw [hp]
    exact hown
  · rw [hp]
    exact hof

end LightOS
