import LightOS.Shapes

/-!
# Failed forks and failed execs

Both calls build a new address space before they commit to anything. A fork that fails
takes its space apart again, which returns every frame that found a place in it; a frame
that was allocated for a page but never mapped has no place. A failed exec does not
take anything apart. So what a failure leaves behind is decided by where the plan for
the new space ends.
-/
namespace LightOS
open Lib PageAllocator

variable {role role' : ℕ → Role} {m m' : Machine} {k k' : Kernel}

/-- The kernel is as before: the same frames are in use with the same contents, and
nothing but the allocator's history has changed. -/
structure Intact (k k' : Kernel) : Prop where
  rest : k' = { k with machine := k'.machine }
  held : ∀ q, k'.machine.Held q ↔ k.machine.Held q
  contents : ∀ q, k.machine.Held q → AgreeOn k.machine.mem k'.machine.mem q pageSize
  kernelRootPa : k'.machine.kernelRootPa = k.machine.kernelRootPa
  freeFrames : k'.machine.pages.freeFrames = k.machine.pages.freeFrames

/-- The counter of free frames is determined by the frames in use. -/
theorem freeFrames_eq (hc : m.pages.Consistent) (hc' : m'.pages.Consistent)
    (hf : m'.pages.firstFrame = m.pages.firstFrame) (h : ∀ q, m'.Held q ↔ m.Held q) :
    m'.pages.freeFrames = m.pages.freeFrames := by
  rw [hc'.count, hc.count, hf]
  congr 1
  refine Finset.filter_congr fun f hfr => ?_
  obtain ⟨h1, h2⟩ := Finset.mem_Ico.mp hfr
  have hframe : m.IsFrame (frameToAddr f) := by
    simp only [Machine.IsFrame, frameToAddr, pageSize, ramStart, ramEnd, ramSize, maxFrames] at *
    omega
  have hframe' : m'.IsFrame (frameToAddr f) := by
    simp only [Machine.IsFrame, hf] at hframe ⊢
    exact hframe
  have hbit := h (frameToAddr f)
  simp only [Machine.Held, hframe, hframe', true_and, frameOf_frameToAddr] at hbit
  cases hb : m.pages.bitmap f <;> cases hb' : m'.pages.bitmap f <;> simp_all

/-! ### Forks -/

/-- What stays in the forest when a window is torn down stays where it was. -/
theorem Shrinks.under {P : Places} {r i q : ℕ} (h : Shrinks P role m role' m')
    (hu : Under role r i q) (hq : role' q = role q) : Under role' r i q := by
  induction hu with
  | top hr => exact .top (hq.trans hr)
  | @step q l t j hr _ ih =>
    have hq' := hq.trans hr
    have hl := (h.good.tables.up q l t j hq').1
    exact .step hq' (ih (h.keep (Role.ne_other_of_level hl)))

section Undo

variable {m1 m2 m3 m4 : Machine} {b : Present} {role2 role3 : ℕ → Role} {r : ℕ} {vas : List ℕ}

/-- Everything that a frame in use belonged to before is left alone. -/
theorem FreshRoot.not_under {q : ℕ} (h : FreshRoot role m r m1) {P : Places}
    (hw : Grows P (Function.update role r .root) m1 role2 m2) (hq : m.Held q) :
    ¬ Under role2 r userRootSlot q := by
  intro hu
  have hq1 : m1.Held q := (h.got.held q).mpr (Or.inl hq)
  have hne : Function.update role r .root q ≠ .other := by
    intro ho
    exact (hw.fresh q ho hu.ne_other).1 hq1
  exact h.good.tables.empty_slot h.user (hu.reflect h.good.tables hw.keep hne)

/-- The undoing of a copy: what was in use before is in use again, and so is whatever the
copy left without a place. -/
theorem undo_held (h1 : FreshRoot role m r m1)
    (h2 : NewPages r vas false (Function.update role r .root) m1 role2 m2)
    (hvas : ∀ va ∈ vas, vpn va 2 = userRootSlot) (h3 : Shrinks (Window r) role2 m2 role3 m3)
    (hempty : pteValid (m3.pte r userRootSlot) = false) (h4 : Freed m3 r m4) (q : ℕ) :
    m4.Held q ↔ m.Held q ∨ ¬ m1.Held q ∧ m2.Held q ∧ role2 q = .other := by
  have hw := h2.window hvas
  have hr2 : role2 r = .root := (hw.root_iff r).mpr (FreshRoot.role_self role r)
  rw [h4.held, h3.held]
  constructor
  · rintro ⟨⟨hq2, hkeep⟩, hne⟩
    by_cases hq1 : m1.Held q
    · rcases (h1.got.held q).mp hq1 with hq | rfl
      · exact Or.inl hq
      · exact absurd rfl hne
    · refine Or.inr ⟨hq1, hq2, ?_⟩
      by_contra hrole
      have hold : Function.update role r .root q = .other := by
        by_contra hc
        exact hq1 (h1.good.tables.held q hc)
      obtain ⟨-, r', i, ⟨rfl, rfl⟩, hu⟩ := hw.fresh q hold hrole
      exact h3.good.tables.empty_slot hempty (h3.under hu hkeep)
  · rintro (hq | ⟨hq1, hq2, hother⟩)
    · have hq2 : m2.Held q := hw.held q ((h1.got.held q).mpr (Or.inl hq))
      have hne : q ≠ r := by
        rintro rfl
        exact h1.got.free hq
      refine ⟨⟨hq2, ?_⟩, hne⟩
      rcases h3.drop q with he | ⟨-, r', i, ⟨rfl, rfl⟩, hu⟩
      · exact he
      · exact absurd hu (h1.not_under hw hq)
    · have hne : q ≠ r := by
        rintro rfl
        rw [hr2] at hother
        simp at hother
      refine ⟨⟨hq2, ?_⟩, hne⟩
      rcases h3.drop q with he | ⟨-, r', i, -, hu⟩
      · exact he
      · exact absurd hother hu.ne_other

/-- Nothing in use before the copy has been written to. -/
theorem undo_contents (h1 : FreshRoot role m r m1)
    (h2 : Ran b r vas false (Function.update role r .root) m1 role2 m2)
    (hvas : ∀ va ∈ vas, vpn va 2 = userRootSlot)
    (h3 : ∀ p, p % pageSize = 0 → p ≠ r → AgreeOn m2.mem m3.mem p pageSize)
    (h4 : Freed m3 r m4) {q : ℕ} (hq : m.Held q) : AgreeOn m.mem m4.mem q pageSize := by
  have hne : q ≠ r := by
    rintro rfl
    exact h1.got.free hq
  have hq1 : m1.Held q := (h1.got.held q).mpr (Or.inl hq)
  have hslots : ∀ t i, SlotsOf r m1.kernelRootPa (slotsOf vas) t i → t = r ∧ i = userRootSlot := by
    rintro t i ⟨⟨va, hva, rfl⟩, ht | ⟨-, hu⟩⟩
    · exact ⟨ht, hvas va hva⟩
    · exact absurd (hvas va hva) hu
  have h12 : AgreeOn m1.mem m2.mem q pageSize := by
    refine h2.spares q hq1 (fun i hi => hne (hslots q i hi).1) ?_
    rintro ⟨t, i, hP, hu⟩
    obtain ⟨rfl, rfl⟩ := hslots t i hP
    exact h1.not_under (.refl (P := Window t) h1.good) hq hu
  intro a ha1 ha2
  rw [h4.mem, h3 q hq.aligned hne a ha1 ha2, h12 a ha1 ha2, h1.got.agree hq a ha1 ha2]

end Undo

/-- The addresses of the pages that a fork of `p` copies need so many frames. -/
def forkOutcome (k : Kernel) (p : Process) : Outcome :=
  k.machine.newView.plan (k.machine.pages.freeFrames - 1) (userPages k.machine p.rootPa)

/-- How a fork ends: it is refused at once, or the plan for the copy decides. -/
inductive ForkEnds (k : Kernel) (r : ℤ) (k' : Kernel) : Prop
  /-- No slot in the process table. -/
  | full (hslot : k.procs.position (·.isNone) = none) (hr : r < 0) (hk : Intact k k')
  /-- Not even a frame for the root. -/
  | empty {slot : ℕ} {p : Process} (hslot : k.procs.position (·.isNone) = some slot)
      (hp : k.procs.slots k.current = some p) (hfree : k.machine.pages.freeFrames = 0) (hr : r < 0)
      (hk : Intact k k')
  | copied {slot left : ℕ} {p : Process} (hslot : k.procs.position (·.isNone) = some slot)
      (hp : k.procs.slots k.current = some p) (hfree : 0 < k.machine.pages.freeFrames)
      (hplan : forkOutcome k p = .enough left) (hr : 0 ≤ r)
  | undone {slot : ℕ} {p : Process} (hslot : k.procs.position (·.isNone) = some slot)
      (hp : k.procs.slots k.current = some p) (hfree : 0 < k.machine.pages.freeFrames)
      (hplan : forkOutcome k p = .dry) (hr : r < 0) (hk : Intact k k')
  /-- The frame of the page that could not be mapped stays in use. -/
  | leaked {slot q : ℕ} {p : Process} (hslot : k.procs.position (·.isNone) = some slot)
      (hp : k.procs.slots k.current = some p) (hfree : 0 < k.machine.pages.freeFrames)
      (hplan : forkOutcome k p = .stuck) (hr : r < 0) (hq : ¬ k.machine.Held q)
      (hq' : k'.machine.Held q)

theorem forkCurrent_ends {tf : TrapFrame} {r : ℤ} (hm : Memory role k)
    (hrun : forkCurrent tf k = .ok (r, k')) : ForkEnds k r k' := by
  unfold forkCurrent at hrun
  rw [Prog.get_bind_ok] at hrun
  dsimp only at hrun
  have hsame : ∀ pid, Intact k { k with machine := { k.machine with account := pid } } := fun pid =>
    ⟨rfl, fun _ => Iff.rfl, fun _ _ _ _ _ => rfl, rfl, rfl⟩
  cases hslot : k.procs.position (·.isNone) with
  | none =>
    rw [hslot] at hrun
    obtain ⟨rfl, rfl⟩ := Prod.mk.inj (Prog.pure_ok.mp hrun)
    exact .full hslot (by decide) ⟨rfl, fun _ => Iff.rfl, fun _ _ _ _ _ => rfl, rfl, rfl⟩
  | some slot =>
    rw [hslot] at hrun
    obtain ⟨p, k1, hproc, hrun⟩ := Prog.bind_ok.mp hrun
    obtain ⟨-, hp, rfl⟩ := procAt_ok.mp hproc
    obtain ⟨o, k2, h1, hrun⟩ := Prog.bind_ok.mp hrun
    obtain ⟨m1, hroot, rfl⟩ := onMachineFor_ok.mp h1
    have hg := hm.good.account k1.procs.nextPid
    have hspec := (newUserRoot_spec hg).ok hroot
    cases o with
    | none =>
      obtain ⟨rfl, hzero⟩ := hspec
      obtain ⟨rfl, rfl⟩ := Prod.mk.inj (Prog.pure_ok.mp hrun)
      exact .empty hslot hp hzero (by decide) (hsame _)
    | some root =>
      change FreshRoot role { k1.machine with account := k1.procs.nextPid } root m1 at hspec
      have hcount : m1.pages.freeFrames + 1 = k1.machine.pages.freeFrames := hspec.got.freeFrames
      have hroot0 := hm.root _ p hp
      have hroot1 : Function.update role root .root p.rootPa = .root := by
        rw [hspec.keep hg (by simp [hroot0])]
        exact hroot0
      have hpages : userPages m1 p.rootPa = userPages k1.machine p.rootPa :=
        userPages_congr hm.good.tables hroot0 fun t l i hl hi => hspec.got.pte hg hl hi
      have hsees := hspec.sees hg
      change Sees k1.machine.newView root (Function.update role root .root) m1 at hsees
      obtain ⟨res, k2, h2, hrun⟩ := Prog.bind_ok.mp hrun
      obtain ⟨m2, hclone, rfl⟩ := onMachine_ok.mp h2
      obtain ⟨role2, hran⟩ := (cloneUserSpace_spec hspec.good hroot1 (FreshRoot.role_self role root)
        (hm.root_ne hspec.got.free hp) hsees).ok hclone
      rw [hpages] at hran
      have hplan : forkOutcome k1 p = k1.machine.newView.plan m1.pages.freeFrames
          (userPages k1.machine p.rootPa) := by
        rw [forkOutcome, ← hcount, Nat.add_sub_cancel]
      have hpos : 0 < k1.machine.pages.freeFrames := by omega
      cases res with
      | ok u =>
        obtain ⟨next, k2, h3, hrun⟩ := Prog.bind_ok.mp hrun
        obtain ⟨_, k3, h4, hrun⟩ := Prog.bind_ok.mp hrun
        obtain ⟨_, k4, h5, hrun⟩ := Prog.bind_ok.mp hrun
        obtain ⟨_, k5, h6, hrun⟩ := Prog.bind_ok.mp hrun
        obtain ⟨_, k6, h7, hrun⟩ := Prog.bind_ok.mp hrun
        obtain rfl := Prog.pure_value hrun
        exact .copied hslot hp hpos (hplan.trans hran.enough.1) (by positivity)
      | error e =>
        obtain ⟨_, k3, h3, hrun⟩ := Prog.bind_ok.mp hrun
        obtain ⟨m3, hfree, rfl⟩ := onMachine_ok.mp h3
        obtain ⟨_, k4, h4, hrun⟩ := Prog.bind_ok.mp hrun
        obtain ⟨m4, hdrop, rfl⟩ := onMachine_ok.mp h4
        obtain ⟨rfl, rfl⟩ := Prod.mk.inj (Prog.pure_ok.mp hrun)
        have hgrows := hran.pages.grows
        have hr2 : role2 root = .root := (hgrows.root_iff root).mpr (FreshRoot.role_self role root)
        obtain ⟨role3, hs, hempty, hmem⟩ := (freeUserSpace_spec hgrows.good hr2).ok hfree
        have hr3 : role3 root = .root := (hs.root_iff root).mpr hr2
        have hrel : Released root role3 m3 m4 := (pageFree_root_spec hs.good hr3).ok hdrop
        have hheld := undo_held hspec hran.pages userPages_slot hs hempty hrel.freed
        have ho := hran.outcome
        rw [← hplan] at ho
        cases hout : forkOutcome k1 p with
        | enough left =>
          rw [hout] at ho
          simp [isOk_error] at ho
        | dry =>
          rw [hout] at ho
          have hall : ∀ q, m4.Held q ↔ k1.machine.Held q := by
            intro q
            rw [hheld]
            constructor
            · rintro (hq | ⟨hq1, hq2, hother⟩)
              · exact hq
              · rcases ho.2 q hq2 with h | h
                · exact absurd h hq1
                · exact absurd hother h
            · exact fun hq => Or.inl hq
          have hfirst : m4.pages.firstFrame = k1.machine.pages.firstFrame :=
            hrel.freed.firstFrame.trans (hs.firstFrame.trans
              (hgrows.firstFrame.trans hspec.got.firstFrame))
          have hkr : m4.kernelRootPa = k1.machine.kernelRootPa :=
            hrel.freed.kernelRootPa.trans (hs.kernelRootPa.trans
              (hgrows.kernelRootPa.trans hspec.got.kernelRootPa))
          exact .undone hslot hp hpos hout (by decide) ⟨rfl, hall,
            fun q hq => undo_contents hspec hran userPages_slot hmem hrel.freed hq, hkr,
            freeFrames_eq hm.good.pages hrel.good.pages hfirst hall⟩
        | stuck =>
          rw [hout] at ho
          obtain ⟨-, q, hq1, hq2, hother⟩ := ho
          refine .leaked (q := q) hslot hp hpos hout (by decide) ?_ ?_
          · exact fun hq => hq1 ((hspec.got.held q).mpr (Or.inl hq))
          · exact (hheld q).mpr (Or.inr ⟨hq1, hq2, hother⟩)

theorem newView_window (m : Machine) {va : ℕ} (hva : vpn va 2 = userRootSlot) :
    m.newView.page va = false ∧ m.newView.table va = false ∧ m.newView.slot va = false := by
  simp [Machine.newView, hva]

/-- A fork of the current process is refused at once, has the frames it needs, or uses up
the free frames exactly at the end of a page. -/
def ForkClean (k : Kernel) : Prop :=
  k.procs.position (·.isNone) = none ∨ k.machine.pages.freeFrames = 0 ∨
    ∀ p, k.procs.slots k.current = some p →
      k.machine.newView.cost (userPages k.machine p.rootPa) ≤ k.machine.pages.freeFrames - 1 ∨
      ∃ i, k.machine.newView.cost ((userPages k.machine p.rootPa).take i) =
        k.machine.pages.freeFrames - 1

theorem forkOutcome_stuck_iff (k : Kernel) (p : Process) : forkOutcome k p ≠ .stuck ↔
    k.machine.newView.cost (userPages k.machine p.rootPa) ≤ k.machine.pages.freeFrames - 1 ∨
      ∃ i, k.machine.newView.cost ((userPages k.machine p.rootPa).take i) =
        k.machine.pages.freeFrames - 1 :=
  Present.plan_stuck_iff (Present.fresh_of_apart
    (fun va hva => (newView_window k.machine (userPages_slot va hva)).1) (userPages_apart _ _))

/-- A failed fork leaves nothing behind, unless the frames run out while a page is in hand. -/
theorem fork_rollback {tf : TrapFrame} {r : ℤ} (hm : Memory role k)
    (hrun : forkCurrent tf k = .ok (r, k')) : (r < 0 → Intact k k') ↔ ForkClean k := by
  have hplan {p : Process} (hp : k.procs.slots k.current = some p)
      (hout : forkOutcome k p ≠ .stuck) : ForkClean k := by
    refine Or.inr (Or.inr fun p' hp' => ?_)
    obtain rfl := Option.some.inj (hp.symm.trans hp')
    exact (forkOutcome_stuck_iff k p).mp hout
  cases forkCurrent_ends hm hrun with
  | full hslot _ hk => exact ⟨fun _ => Or.inl hslot, fun _ _ => hk⟩
  | empty _ _ hfree _ hk => exact ⟨fun _ => Or.inr (Or.inl hfree), fun _ _ => hk⟩
  | copied _ hp _ hout hr =>
    exact ⟨fun _ => hplan hp (by simp [hout]), fun _ hneg => absurd hneg (by omega)⟩
  | undone _ hp _ hout _ hk => exact ⟨fun _ => hplan hp (by simp [hout]), fun _ _ => hk⟩
  | leaked hslot hp hfree hout hr hq hq' =>
    refine ⟨fun h => absurd (((h hr).held _).mp hq') hq, fun h => ?_⟩
    rcases h with h | h | h
    · rw [hslot] at h
      simp at h
    · omega
    · exact absurd hout ((forkOutcome_stuck_iff k _).mpr (h _ hp))

/-- A fork whose copy fails returns an error. -/
theorem forkCurrent_fails {tf : TrapFrame} {p : Process} {slot : ℕ} (hm : Memory role k)
    (hcur : k.current < maxProcs) (hp : k.procs.slots k.current = some p)
    (hslot : k.procs.position (·.isNone) = some slot) (hfree : 0 < k.machine.pages.freeFrames)
    (hplan : ∀ left, forkOutcome k p ≠ .enough left) :
    ∃ k', forkCurrent tf k = .ok (-12, k') := by
  have hg := hm.good.account k.procs.nextPid
  obtain ⟨o, m1, h1, hfresh⟩ := (newUserRoot_spec hg).returns
  cases o with
  | none =>
    have hzero : k.machine.pages.freeFrames = 0 := hfresh.2
    omega
  | some root =>
    change FreshRoot role { k.machine with account := k.procs.nextPid } root m1 at hfresh
    have hcount : m1.pages.freeFrames + 1 = k.machine.pages.freeFrames := hfresh.got.freeFrames
    have hroot0 := hm.root _ p hp
    have hroot1 : Function.update role root .root p.rootPa = .root := by
      rw [hfresh.keep hg (by simp [hroot0])]
      exact hroot0
    have hpages : userPages m1 p.rootPa = userPages k.machine p.rootPa :=
      userPages_congr hm.good.tables hroot0 fun t l i hl hi => hfresh.got.pte hg hl hi
    have hsees := hfresh.sees hg
    change Sees k.machine.newView root (Function.update role root .root) m1 at hsees
    obtain ⟨res, m2, h2, role2, hran⟩ := (cloneUserSpace_spec hfresh.good hroot1
      (FreshRoot.role_self role root) (hm.root_ne hfresh.got.free hp) hsees).returns
    rw [hpages] at hran
    have hgrows := hran.pages.grows
    have hr2 : role2 root = .root := (hgrows.root_iff root).mpr (FreshRoot.role_self role root)
    cases res with
    | ok u =>
      refine absurd hran.enough.1 ?_
      have hno := hplan m2.pages.freeFrames
      rwa [forkOutcome, ← hcount, Nat.add_sub_cancel] at hno
    | error e =>
      obtain ⟨_, m3, h3, role3, hs, -⟩ := (freeUserSpace_spec hgrows.good hr2).returns
      obtain ⟨_, m4, h4, -⟩ := (pageFree_root_spec hs.good ((hs.root_iff root).mpr hr2)).returns
      refine ⟨{ k with machine := m4 }, ?_⟩
      unfold forkCurrent
      rw [Prog.get_bind_ok]
      dsimp only
      rw [hslot]
      dsimp only
      rw [procAt_bind]
      refine ⟨p, hcur, hp, ?_⟩
      rw [Prog.bind_ok]
      refine ⟨_, _, onMachineFor_ok.mpr ⟨m1, h1, rfl⟩, ?_⟩
      dsimp only
      rw [onMachine_bind]
      refine ⟨_, _, h2, ?_⟩
      dsimp only
      rw [onMachine_bind]
      refine ⟨_, _, h3, ?_⟩
      rw [onMachine_bind]
      exact ⟨_, _, h4, rfl⟩

/-- A machine can be brought down to any smaller number of free frames. -/
theorem Good.exhaust (hg : Good role m) {n : ℕ} (hn : n ≤ m.pages.freeFrames) :
    ∃ m', Good role m' ∧ m'.pages.freeFrames = n ∧ KeepsLoose role m role m' ∧
      ∀ t l i, (role t).level = some l → i < 512 → m'.pte t i = m.pte t i := by
  obtain ⟨d, hd⟩ := Nat.exists_eq_add_of_le hn
  induction d generalizing m with
  | zero => exact ⟨m, hg, by omega, fun _ hq hr => ⟨hq, hr⟩, fun _ _ _ _ _ => rfl⟩
  | succ d ih =>
    obtain ⟨o, m1, -, h1⟩ := (pageAlloc_one hg).returns
    cases o with
    | none =>
      have hzero := h1.2
      omega
    | some q =>
      have hgot := h1.1
      have hcount := hgot.freeFrames
      obtain ⟨m', hg', hfree, hloose, hpte⟩ := ih (hgot.good hg) (by omega) (by omega)
      refine ⟨m', hg', hfree, fun p hp hr => ?_, fun t l i ht hi => ?_⟩
      · exact hloose p ((hgot.held p).mpr (Or.inl hp)) hr
      · rw [hpte t l i ht hi, hgot.pte hg ht hi]

/-- A process with at least one page, in a machine with two free frames. -/
theorem exists_twoFree : ∃ role k p, Memory role k ∧ k.current < maxProcs ∧
    k.procs.slots k.current = some p ∧ k.procs.position (·.isNone) = some 1 ∧
    k.machine.pages.freeFrames = 2 ∧ userPages k.machine p.rootPa ≠ [] := by
  obtain ⟨k, p, hf⟩ := exists_firstRun
  obtain ⟨role, hm⟩ := hf.reached.memory
  have hroom := hf.room.free
  have hslot : k.procs.slots k.current = some p := by
    rw [hf.shows_.slots, hf.shows_.current]
    rfl
  have hcur : k.current < maxProcs := hf.shows_.lt hslot
  obtain ⟨m', hg', hfree, hloose, hpte⟩ := hm.good.exhaust (n := 2) (by omega)
  have hm' := hm.machine hg' hloose hm.root
  refine ⟨role, { k with machine := m' }, p, hm', hcur, hslot, hf.shows_.position, hfree, ?_⟩
  rw [userPages_congr hm.good.tables (hm.root _ p hslot) hpte]
  exact List.ne_nil_of_mem hf.own_page

/-- With one frame left after the root, the first page has its frame and no table. -/
theorem forkOutcome_twoFree {p : Process} (hfree : k.machine.pages.freeFrames = 2)
    (hp : userPages k.machine p.rootPa ≠ []) : forkOutcome k p = .stuck := by
  obtain ⟨va, vas, hvas⟩ := List.exists_cons_of_ne_nil hp
  have hva : vpn va 2 = userRootSlot := userPages_slot va (by rw [hvas]; simp)
  obtain ⟨h1, h2, h3⟩ := newView_window k.machine hva
  rw [forkOutcome, hfree, hvas, Present.plan]
  simp [Present.need, h1, h2, h3]

/-- With two frames left the copy stops halfway, and the call leaves something behind. -/
theorem fork_rollback_twoFree : ∃ (role : ℕ → Role) (k k' : Kernel) (tf : TrapFrame) (r : ℤ),
    Memory role k ∧ forkCurrent tf k = .ok (r, k') ∧ ((r < 0 → Intact k k') ↔ ForkClean k) := by
  obtain ⟨role, k, p, hm, hcur, hp, hslot, hfree, hpages⟩ := exists_twoFree
  have hstuck := forkOutcome_twoFree hfree hpages
  obtain ⟨k', hrun⟩ := @forkCurrent_fails role k .zeroed p 1 hm hcur hp hslot (by omega)
    (by simp [hstuck])
  exact ⟨role, k, k', .zeroed, -12, hm, hrun, fork_rollback hm hrun⟩

/-- The frame of the first page is lost. -/
theorem fork_leaks_frame : ∃ (role : ℕ → Role) (k k' : Kernel) (tf : TrapFrame) (r : ℤ) (q : ℕ),
    Memory role k ∧ k.machine.pages.freeFrames = 2 ∧ forkCurrent tf k = .ok (r, k') ∧ r < 0 ∧
      ¬ k.machine.Held q ∧ k'.machine.Held q ∧ ¬ Intact k k' := by
  obtain ⟨role, k, p, hm, hcur, hp, hslot, hfree, hpages⟩ := exists_twoFree
  have hstuck := forkOutcome_twoFree hfree hpages
  obtain ⟨k', hrun⟩ := @forkCurrent_fails role k .zeroed p 1 hm hcur hp hslot (by omega)
    (by simp [hstuck])
  have hsome {p' : Process} (hp' : k.procs.slots k.current = some p') :
      forkOutcome k p' = .stuck := by
    rw [← Option.some.inj (hp.symm.trans hp')]
    exact hstuck
  cases forkCurrent_ends hm hrun with
  | full hfull => simp [hslot] at hfull
  | empty _ _ hzero => omega
  | copied _ _ _ _ hr => omega
  | undone _ hp' _ hdry => simp [hsome hp'] at hdry
  | leaked _ _ _ _ hr hq hq' =>
    exact ⟨role, k, k', .zeroed, -12, _, hm, hfree, hrun, hr, hq, hq',
      fun hk => hq ((hk.held _).mp hq')⟩

/-! ### Execs -/

/-- With no frame free, every frame is in use. -/
theorem held_of_no_frames {q : ℕ} (hc : m.pages.Consistent) (hzero : m.pages.freeFrames = 0)
    (hq : m.IsFrame q) : m.Held q := by
  refine ⟨hq, ?_⟩
  rw [hc.count, Finset.card_eq_zero, Finset.filter_eq_empty_iff] at hzero
  simpa using hzero (Finset.mem_Ico.mpr hq.frame_lt)

theorem Adds.isFrame_iff {P : Places} {r : ℕ} (h : Adds r P role m role' m') (q : ℕ) :
    m'.IsFrame q ↔ m.IsFrame q := by
  simp only [Machine.IsFrame, h.firstFrame]

/-- An exec finds no program, no frame at all, or everything it needs: an image that the
loader accepts, whose pages are not there yet, and the frames for them and their tables. -/
def ExecClean (k : Kernel) (disk : Disk) (name : List UInt8) : Prop :=
  k.fs.loadProgram disk name = .ok none ∨ k.machine.pages.freeFrames = 0 ∨
    ∀ image, k.fs.loadProgram disk name = .ok (some image) →
      ∃ vas, spacePages image = some vas ∧ k.machine.newView.fresh vas = true ∧
        k.machine.newView.cost vas ≤ k.machine.pages.freeFrames - 1

theorem spaceFits_iff (m : Machine) (image : List UInt8) : SpaceFits m image ↔
    ∃ vas, spacePages image = some vas ∧ m.newView.fresh vas = true ∧
      m.newView.cost vas ≤ m.pages.freeFrames - 1 := by
  unfold SpaceFits
  constructor
  · rintro ⟨vas, left, hvas, hplan⟩
    obtain ⟨hf, hn⟩ := Present.plan_enough_iff.mp hplan
    exact ⟨vas, hvas, hf, by omega⟩
  · rintro ⟨vas, hvas, hf, hn⟩
    exact ⟨vas, m.pages.freeFrames - 1 - m.newView.cost vas, hvas,
      Present.plan_enough_iff.mpr ⟨hf, by omega⟩⟩

/-- How an exec ends. -/
inductive ExecEnds (k : Kernel) (disk : Disk) (name : List UInt8) (r : ℤ) (k' : Kernel) : Prop
  | missing (himage : k.fs.loadProgram disk name = .ok none) (hr : r < 0) (hk : Intact k k')
  /-- Not even a frame for the root. -/
  | empty {image : List UInt8} (himage : k.fs.loadProgram disk name = .ok (some image))
      (hfree : k.machine.pages.freeFrames = 0) (hr : r < 0) (hk : Intact k k')
  | replaced {image : List UInt8} (himage : k.fs.loadProgram disk name = .ok (some image))
      (hfits : SpaceFits k.machine image) (hr : r = 0)
  /-- The root of the unfinished space stays in use, with everything below it. -/
  | leaked {image : List UInt8} {q : ℕ} (himage : k.fs.loadProgram disk name = .ok (some image))
      (hfree : 0 < k.machine.pages.freeFrames) (hfits : ¬ SpaceFits k.machine image) (hr : r < 0)
      (hq : ¬ k.machine.Held q) (hq' : k'.machine.Held q)

theorem execCurrent_ends {disk : Disk} {name : List UInt8} {r : ℤ} (hm : Memory role k)
    (hrun : execCurrent disk name k = .ok (r, k')) : ExecEnds k disk name r k' := by
  unfold execCurrent at hrun
  rw [Prog.get_bind_ok] at hrun
  obtain ⟨o, k1, h1, hrest⟩ := Prog.bind_ok.mp hrun
  obtain ⟨himage, hk1⟩ := Prog.ofExcept_ok.mp h1
  clear hrun
  obtain rfl : k1 = k := hk1
  cases o with
  | none =>
    obtain ⟨rfl, rfl⟩ := Prod.mk.inj (Prog.pure_ok.mp hrest)
    exact .missing himage (by decide) ⟨rfl, fun _ => Iff.rfl, fun _ _ _ _ _ => rfl, rfl, rfl⟩
  | some image =>
    dsimp only at hrest
    rw [Prog.get_bind_ok] at hrest
    obtain ⟨caller, k2, h2, hrun⟩ := Prog.bind_ok.mp hrest
    obtain ⟨-, hcaller, rfl⟩ := procAt_ok.mp h2
    obtain ⟨res, k3, h3, hrun⟩ := Prog.bind_ok.mp hrun
    obtain ⟨m1, hbuild, rfl⟩ := onMachineFor_ok.mp h3
    have hspec := (buildAddressSpace_spec image (hm.good.account caller.pid)).ok hbuild
    cases res with
    | error e =>
      obtain ⟨rfl, rfl⟩ := Prod.mk.inj (Prog.pure_ok.mp hrun)
      rcases hspec with ⟨rfl, -, hzero⟩ | ⟨q, vas, ok, role', hn, -, -, hfits⟩
      · exact .empty himage hzero (by decide) ⟨rfl, fun _ => Iff.rfl, fun _ _ _ _ _ => rfl, rfl, rfl⟩
      · have hq' : m1.Held q := hn.adds.good.tables.held q (by simp [hn.adds.root])
        have hpos : 0 < k2.machine.pages.freeFrames := by
          by_contra hc
          exact hn.adds.free (held_of_no_frames hm.good.pages (Nat.eq_zero_of_not_pos hc)
            ((hn.adds.isFrame_iff q).mp hq'.1))
        refine .leaked himage hpos (fun h => ?_) (by decide) hn.adds.free hq'
        have := hfits.mpr h
        simp [isOk_error] at this
    | ok s =>
      obtain ⟨newRoot, entry, brk⟩ := s
      rcases hspec with ⟨-, hno, -⟩ | ⟨q, vas, ok, role', hn, -, -, hfits⟩
      · simp [isOk_ok] at hno
      · obtain ⟨_, k4, h4, hrun⟩ := Prog.bind_ok.mp hrun
        obtain ⟨_, k5, h5, hrun⟩ := Prog.bind_ok.mp hrun
        obtain ⟨_, k6, h6, hrun⟩ := Prog.bind_ok.mp hrun
        obtain ⟨_, k7, h7, hrun⟩ := Prog.bind_ok.mp hrun
        obtain ⟨_, k8, h8, hrun⟩ := Prog.bind_ok.mp hrun
        exact .replaced himage (hfits.mp rfl) (Prog.pure_value hrun)

/-- A failed exec leaves the caller as it was, but it keeps the frames of the unfinished
space: nothing is lost only where none was taken or nothing fails. -/
theorem exec_rollback {disk : Disk} {name : List UInt8} {r : ℤ} (hm : Memory role k)
    (hrun : execCurrent disk name k = .ok (r, k')) :
    (r < 0 → Intact k k') ↔ ExecClean k disk name := by
  cases execCurrent_ends hm hrun with
  | missing himage _ hk => exact ⟨fun _ => Or.inl himage, fun _ _ => hk⟩
  | empty _ hfree _ hk => exact ⟨fun _ => Or.inr (Or.inl hfree), fun _ _ => hk⟩
  | replaced himage hfits hr =>
    refine ⟨fun _ => Or.inr (Or.inr fun image' himage' => ?_), fun _ hneg => absurd hneg (by omega)⟩
    obtain rfl : _ = image' := by simpa [himage] using himage'
    exact (spaceFits_iff _ _).mp hfits
  | leaked himage hfree hfits hr hq hq' =>
    refine ⟨fun h => absurd (((h hr).held _).mp hq') hq, fun h => ?_⟩
    rcases h with h | h | h
    · rw [himage] at h
      simp at h
    · omega
    · exact absurd ((spaceFits_iff _ _).mpr (h _ himage)) hfits

/-- An empty file, as the embedded image of `hello`. -/
def noHello : Fs := ⟨none, ⟨tinyImage, []⟩⟩

theorem loadProgram_noHello : noHello.loadProgram (fun _ => .error "") (asciiBytes "hello") =
    .ok (some []) := by
  have h : Ramfs.lookup ⟨tinyImage, []⟩ (asciiBytes "hello") = some [] := by
    have h1 : ¬ (asciiBytes "hello" = asciiBytes "init" ∨
        asciiBytes "hello" = asciiBytes "/bin/init") := by decide
    rw [Ramfs.lookup, if_neg h1, if_pos (Or.inl rfl)]
  unfold Fs.loadProgram noHello
  rw [h]
  rfl

/-- An exec of the empty file runs to its end and fails. -/
theorem exists_execFails : ∃ (role : ℕ → Role) (k k' : Kernel), Memory role k ∧ k.fs = noHello ∧
    0 < k.machine.pages.freeFrames ∧
    execCurrent (fun _ => .error "") (asciiBytes "hello") k = .ok (-12, k') := by
  obtain ⟨k0, p, hf⟩ := exists_firstRun
  obtain ⟨role, hm0⟩ := hf.reached.memory
  have hroom := hf.room.free
  have hslot : k0.procs.slots k0.current = some p := by
    rw [hf.shows_.slots, hf.shows_.current]
    rfl
  have hcur : k0.current < maxProcs := hf.shows_.lt hslot
  have hm : Memory role { k0 with fs := noHello } := hm0.congr rfl rfl rfl
  have hheader : Elf.readHeader [] = .ok (.error "elf: bad magic") := rfl
  have hsound : Elf.Sound [] := by
    intro entry phoff phentsize phnum h
    rw [hheader] at h
    cases h
  have hpages : ¬ SpaceFits { k0.machine with account := p.pid } [] := by
    rintro ⟨vas, left, hvas, -⟩
    simp [spacePages, Elf.imagePages, hheader] at hvas
  have hbuild := buildAddressSpace_spec [] (hm0.good.account p.pid)
  obtain ⟨e, m1, hrun⟩ : ∃ e m1, buildAddressSpace [] { k0.machine with account := p.pid } =
      .ok (.error e, m1) := by
    cases hres : buildAddressSpace [] { k0.machine with account := p.pid } with
    | error f => exact absurd hsound (hbuild.error hres).2
    | ok res =>
      obtain ⟨res, m1⟩ := res
      cases res with
      | error e => exact ⟨e, m1, rfl⟩
      | ok s =>
        rcases hbuild.ok hres with ⟨-, hno, -⟩ | ⟨q, vas, ok, role', -, -, -, hfits⟩
        · simp [isOk_ok] at hno
        · exact absurd (hfits.mp rfl) hpages
  refine ⟨role, { k0 with fs := noHello }, { k0 with fs := noHello, machine := m1 }, hm, rfl,
    show 0 < k0.machine.pages.freeFrames by omega, ?_⟩
  unfold execCurrent
  rw [Prog.get_bind_ok, Prog.bind_ok]
  refine ⟨some [], { k0 with fs := noHello }, Prog.ofExcept_ok.mpr ⟨loadProgram_noHello, rfl⟩, ?_⟩
  dsimp only
  rw [Prog.get_bind_ok, procAt_bind]
  refine ⟨p, hcur, hslot, ?_⟩
  rw [Prog.bind_ok]
  refine ⟨_, _, onMachineFor_ok.mpr ⟨m1, hrun, rfl⟩, ?_⟩
  rfl

/-- An empty image is refused after its root has been made. -/
theorem exec_rollback_empty : ∃ (role : ℕ → Role) (k k' : Kernel) (disk : Disk) (name : List UInt8)
    (r : ℤ), Memory role k ∧ execCurrent disk name k = .ok (r, k') ∧
      ((r < 0 → Intact k k') ↔ ExecClean k disk name) := by
  obtain ⟨role, k, k', hm, -, -, hrun⟩ := exists_execFails
  exact ⟨role, k, k', _, _, _, hm, hrun, exec_rollback hm hrun⟩

/-- The root of the space that was never finished is lost. -/
theorem exec_leaks_root : ∃ (role : ℕ → Role) (k k' : Kernel) (r : ℤ) (q : ℕ), Memory role k ∧
    k.fs = noHello ∧ execCurrent (fun _ => .error "") (asciiBytes "hello") k = .ok (r, k') ∧ r < 0 ∧
      ¬ k.machine.Held q ∧ k'.machine.Held q ∧ ¬ Intact k k' := by
  obtain ⟨role, k, k', hm, hfs, hfree, hrun⟩ := exists_execFails
  have himage : k.fs.loadProgram (fun _ => .error "") (asciiBytes "hello") = .ok (some []) := by
    rw [hfs]
    exact loadProgram_noHello
  cases execCurrent_ends hm hrun with
  | missing hnone => simp [himage] at hnone
  | empty _ hzero => omega
  | replaced _ _ hr => omega
  | leaked _ _ _ hr hq hq' =>
    exact ⟨role, k, k', -12, _, hm, hfs, hrun, hr, hq, hq', fun hk => hq ((hk.held _).mp hq')⟩

end LightOS
