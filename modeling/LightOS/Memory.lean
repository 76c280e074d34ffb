import LightOS.Access
import LightOS.ProcessTree

/-!
# Who owns which frame

The memory of a whole kernel: every process has a root of its own in the forest of
page tables, and the memory of the kernel heap and of the device queues lies
outside the forest. Each move does to the memory what the operations it calls do;
here their effects are collected, one lemma for each kind of move.
-/
namespace LightOS
open Lib PageAllocator

/-- The frame at `q` is part of the region. -/
def Region.Has (r : Region) (q : ℕ) : Prop := ∃ i < r.pages, q = r.addr + i * pageSize

/-- The forest of page tables and the processes agree. -/
structure Memory (role : ℕ → Role) (k : Kernel) : Prop where
  good : Good role k.machine
  root : ∀ i p, k.procs.slots i = some p → role p.rootPa = .root
  root_inj : ∀ i j p q, k.procs.slots i = some p → k.procs.slots j = some q →
    p.rootPa = q.rootPa → i = j
  mmap_aligned : ∀ i p, k.procs.slots i = some p → p.nextMmap % pageSize = 0
  region : ∀ r ∈ k.regions, ∀ q, r.Has q → k.machine.Held q ∧ role q = .other
  apart : k.regions.Pairwise fun r r' => ∀ q, r.Has q → ¬ r'.Has q

/-- Frames in use outside the forest stay there. -/
def KeepsLoose (role : ℕ → Role) (m : Machine) (role' : ℕ → Role) (m' : Machine) : Prop :=
  ∀ q, m.Held q → role q = .other → m'.Held q ∧ role' q = .other

section Loose

variable {role role' role'' : ℕ → Role} {m m' m'' : Machine} {P : Places}

theorem KeepsLoose.trans (h : KeepsLoose role m role' m') (h' : KeepsLoose role' m' role'' m'') :
    KeepsLoose role m role'' m'' := fun q hq hr => h' q (h q hq hr).1 (h q hq hr).2

theorem Grows.keepsLoose (h : Grows P role m role' m') : KeepsLoose role m role' m' := by
  intro q hq hr
  refine ⟨h.held q hq, ?_⟩
  by_contra hne
  exact (h.fresh q hr hne).1 hq

theorem Adds.keepsLoose {r : ℕ} (h : Adds r P role m role' m') : KeepsLoose role m role' m' := by
  intro q hq hr
  refine ⟨h.held q hq, ?_⟩
  by_contra hne
  exact (h.fresh q hr hne).1 hq

theorem Shrinks.keepsLoose (h : Shrinks P role m role' m') : KeepsLoose role m role' m' := by
  intro q hq hr
  rcases h.drop q with he | ⟨-, r, k, -, hu⟩
  · exact ⟨(h.held q).mpr ⟨hq, he⟩, he.trans hr⟩
  · exact absurd hr hu.ne_other

theorem DataOnly.keepsLoose (h : DataOnly role m m') : KeepsLoose role m role m' :=
  fun q hq hr => ⟨(h.held q).mpr hq, hr⟩

open Classical in
theorem Released.keepsLoose {r : ℕ} (h : Released r role m m') (hr : role r = .root) :
    KeepsLoose role m (Drop.newRole role (TreeOf role r)) m' := by
  intro q hq hq'
  have hne : q ≠ r := by
    rintro rfl
    simp [hr] at hq'
  have hS : ¬ TreeOf role r q := by
    rintro (he | ⟨k, hu⟩)
    · exact hne he
    · exact hu.ne_other hq'
  refine ⟨(h.freed.held q).mpr ⟨hq, hne⟩, ?_⟩
  simp [Drop.newRole, hS, hq']

open Classical in
/-- Other roots survive the release of one. -/
theorem Released.root {r r' : ℕ} (hr' : role r' = .root) (hne : r' ≠ r) :
    Drop.newRole role (TreeOf role r) r' = .root := by
  have hS : ¬ TreeOf role r r' := by
    rintro (he | ⟨k, hu⟩)
    · exact hne he
    · exact hu.not_root (.inl hr')
  simp [Drop.newRole, hS, hr']

theorem Handed.keepsLoose {n q : ℕ} (h : Handed m n q m') : KeepsLoose role m role m' :=
  fun p hp hr => ⟨(h.held p).mpr (.inl hp), hr⟩

/-- On whose behalf frames are handed out does not matter to the invariant. -/
theorem Good.account (hg : Good role m) (pid : ℕ) : Good role { m with account := pid } :=
  ⟨hg.tables.of_agree rfl hg.tables.held fun _ _ _ _ _ => rfl, hg.pages,
    hg.recorded.balanced, hg.recorded.held⟩

end Loose

namespace Memory

variable {role role' : ℕ → Role} {k k' : Kernel} {m' : Machine}

/-- The memory changes and the processes keep their roots. -/
theorem machine (h : Memory role k) (hg : Good role' m') (hl : KeepsLoose role k.machine role' m')
    (hroot : ∀ i p, k.procs.slots i = some p → role' p.rootPa = .root) :
    Memory role' { k with machine := m' } := by
  refine ⟨hg, hroot, h.root_inj, h.mmap_aligned, fun r hr q hq => ?_, h.apart⟩
  obtain ⟨h1, h2⟩ := h.region r hr q hq
  exact hl q h1 h2

/-- The processes change, but not their roots. -/
theorem procs (h : Memory role k) (hm : k'.machine = k.machine) (hr : k'.regions = k.regions)
    (hslots : ∀ i p', k'.procs.slots i = some p' → ∃ p, k.procs.slots i = some p ∧
      p'.rootPa = p.rootPa ∧ (p.nextMmap % pageSize = 0 → p'.nextMmap % pageSize = 0)) :
    Memory role k' := by
  refine ⟨hm ▸ h.good, fun i p' hp' => ?_, fun i j p' q' hp' hq' he => ?_, fun i p' hp' => ?_,
    fun r hr' q hq => ?_, hr ▸ h.apart⟩
  · obtain ⟨p, hp, he, -⟩ := hslots i p' hp'
    rw [he]
    exact h.root i p hp
  · obtain ⟨p, hp, hep, -⟩ := hslots i p' hp'
    obtain ⟨q, hq, heq, -⟩ := hslots j q' hq'
    exact h.root_inj i j p q hp hq (by rw [← hep, ← heq, he])
  · obtain ⟨p, hp, -, ha⟩ := hslots i p' hp'
    exact ha (h.mmap_aligned i p hp)
  · rw [hm]
    exact h.region r (hr ▸ hr') q hq

/-- One process changes, but not its root. -/
theorem setSlot (h : Memory role k) {i : ℕ} {p p' : Process} (hp : k.procs.slots i = some p)
    (hslots : k'.procs.slots = (k.setSlot i (some p')).procs.slots) (hroot : p'.rootPa = p.rootPa)
    (ha : p.nextMmap % pageSize = 0 → p'.nextMmap % pageSize = 0)
    (hm : k'.machine = k.machine) (hr : k'.regions = k.regions) : Memory role k' := by
  refine h.procs hm hr fun j q hq => ?_
  rw [hslots, Kernel.setSlot_slots] at hq
  split_ifs at hq with hj
  · subst hj
    obtain rfl := Option.some.inj hq
    exact ⟨p, hp, hroot, ha⟩
  · exact ⟨q, hq, rfl, fun h => h⟩

theorem congr (h : Memory role k) (hm : k'.machine = k.machine) (hr : k'.regions = k.regions)
    (hp : k'.procs.slots = k.procs.slots) : Memory role k' :=
  h.procs hm hr fun _ p hp' => ⟨p, hp ▸ hp', rfl, fun h => h⟩

/-- Pages are added below roots that are already there. -/
theorem grows {P : Places} (h : Memory role k) (hg : Grows P role k.machine role' m') :
    Memory role' { k with machine := m' } :=
  h.machine hg.good hg.keepsLoose fun i p hp => (hg.root_iff _).mpr (h.root i p hp)

theorem adds {P : Places} {r : ℕ} (h : Memory role k) (hg : Adds r P role k.machine role' m') :
    Memory role' { k with machine := m' } := by
  refine h.machine hg.good hg.keepsLoose fun i p hp => ?_
  have hr := h.root i p hp
  rw [hg.keep _ (by simp [hr])]
  exact hr

theorem shrinks {P : Places} (h : Memory role k) (hg : Shrinks P role k.machine role' m') :
    Memory role' { k with machine := m' } :=
  h.machine hg.good hg.keepsLoose fun i p hp => (hg.root_iff _).mpr (h.root i p hp)

theorem dataOnly (h : Memory role k) (hg : DataOnly role k.machine m') :
    Memory role { k with machine := m' } :=
  h.machine (hg.good h.good) hg.keepsLoose h.root

theorem account (h : Memory role k) (pid : ℕ) :
    Memory role { k with machine := { k.machine with account := pid } } :=
  h.machine (h.good.account pid) (fun _ hq hr => ⟨hq, hr⟩) h.root

/-! What the memory operations of a move do. -/

section Effects

variable {e : Event} {p : Process} {i r : ℕ} {m1 m2 m3 : Machine}

theorem root_ne (h : Memory role k) (hr : ¬ k.machine.Held r) (hp : k.procs.slots i = some p) :
    p.rootPa ≠ r := by
  rintro rfl
  exact hr (h.good.tables.held _ (by simp [h.root i p hp]))

theorem copyOut_effect (h : Memory role k) (hp : k.procs.slots i = some p) {uva : ℕ}
    {bs : List UInt8} {res : Except String Unit}
    (hc : copyOut p.rootPa uva bs k.machine = .ok (res, m1)) : DataOnly role k.machine m1 :=
  (copyOut_spec uva bs h.good (h.root i p hp)).ok hc

theorem mmap_effect (h : Memory role k) (hp : k.procs.slots i = some p) {pages pid : ℕ}
    {res : Except Unit Unit}
    (hm : mmapPages p.rootPa p.nextMmap pages { k.machine with account := pid } = .ok (res, m1)) :
    ∃ role', NewPages p.rootPa (rangeVas p.nextMmap pages) res.isOk role
      { k.machine with account := pid } role' m1 :=
  (mmapPages_spec pages (h.good.account pid) (h.root i p hp) (h.mmap_aligned i p hp)).ok hm

theorem fork_effect (h : Memory role k) (hp : k.procs.slots i = some p) {pid : ℕ}
    {res : Except String Unit}
    (h1 : newUserRoot { k.machine with account := pid } = .ok (some r, m1))
    (h2 : cloneUserSpace p.rootPa r m1 = .ok (res, m2)) :
    ∃ role', NewSpace r (userPages m1 p.rootPa) res.isOk role { k.machine with account := pid }
      role' m2 := by
  have hg := h.good.account pid
  have hfresh : FreshRoot role { k.machine with account := pid } r m1 := (newUserRoot_spec hg).ok h1
  have hne := h.root_ne hfresh.got.free hp
  have hroot : Function.update role r .root p.rootPa = .root := by
    rw [hfresh.keep hg (by simp [h.root i p hp])]
    exact h.root i p hp
  obtain ⟨role', hn⟩ :=
    (cloneUserSpace_spec hfresh.good hroot (FreshRoot.role_self role r) hne (hfresh.sees hg)).ok h2
  exact ⟨role', hfresh.newSpace hg hn.pages⟩

theorem build_effect (h : Memory role k) {pid : ℕ} {image : List UInt8}
    {res : Except String (ℕ × ℕ × ℕ)}
    (hb : buildAddressSpace image { k.machine with account := pid } = .ok (res, m1)) :
    m1 = { k.machine with account := pid } ∧ res.isOk = false ∨
      ∃ q vas ok role', NewSpace q vas ok role { k.machine with account := pid } role' m1 ∧
        (∀ va ∈ vas, ImagePage image va) ∧ ∀ s, res = .ok s → ok = true ∧ s.1 = q := by
  rcases (buildAddressSpace_spec image (h.good.account pid)).ok hb with
    ⟨h1, h2, -⟩ | ⟨q, vas, ok, role', h1, h2, h3, -⟩
  · exact .inl ⟨h1, h2⟩
  · exact .inr ⟨q, vas, ok, role', h1, h2, h3⟩

/-- A space that was just built belongs to nobody yet. -/
theorem newSpace (h : Memory role k) {pid : ℕ} {vas : List ℕ} {ok : Bool}
    (hn : NewSpace r vas ok role { k.machine with account := pid } role' m1) :
    Memory role' { k with machine := m1 } := (h.account pid).adds hn.adds

theorem free_effect (h : Memory role k) (hr : role r = .root)
    (hf : freeUserSpace r k.machine = .ok ((), m1)) :
    ∃ role', Shrinks (Window r) role k.machine role' m1 ∧
      pteValid (m1.pte r userRootSlot) = false ∧
      ∀ p, p % pageSize = 0 → p ≠ r → AgreeOn k.machine.mem m1.mem p pageSize :=
  (freeUserSpace_spec h.good hr).ok hf

theorem release_effect (h : Memory role k) (hr : role r = .root)
    (hf : pageFree r 1 k.machine = .ok ((), m1)) : Released r role k.machine m1 :=
  (pageFree_root_spec h.good hr).ok hf

open Classical in
/-- A root that no process has any more is returned. -/
theorem released (h : Memory role k) (hr : role r = .root) (hrel : Released r role k.machine m1)
    (hfree : ∀ i p, k.procs.slots i = some p → p.rootPa ≠ r) :
    Memory (Drop.newRole role (TreeOf role r)) { k with machine := m1 } :=
  h.machine hrel.good (hrel.keepsLoose hr) fun i p hp => Released.root (h.root i p hp) (hfree i p hp)

theorem munmap_effect (h : Memory role k) (hp : k.procs.slots i = some p) {va pages : ℕ}
    (hw : ∀ a ∈ rangeVas va pages, OwnLeaf role k.machine p.rootPa a)
    (hm : munmapPages p.rootPa va pages k.machine = .ok ((), m1)) :
    ∃ role', Shrinks (SlotsOf p.rootPa k.machine.kernelRootPa (slotsOf (rangeVas va pages))) role
      k.machine role' m1 := (munmapPages_spec pages h.good (h.root i p hp) hw).ok hm

end Effects

end Memory

/-- What the event unmaps, if it is a munmap, lies in the user window. -/
def Event.unmapsWindow (e : Event) : Prop :=
  ∀ t io, Call e t io .munmap → t.arg 10 % pageSize = 0 → t.arg 11 ≠ 0 →
    userVaStart ≤ t.arg 10 ∧ t.arg 10 + pagesOf (t.arg 11) * pageSize ≤ userVaEnd

theorem rangeVas_window {va pages a : ℕ} (h1 : userVaStart ≤ va)
    (h2 : va + pages * pageSize ≤ userVaEnd) (ha : a ∈ rangeVas va pages) :
    vpn a 2 = userRootSlot := by
  obtain ⟨i, hi, rfl⟩ := List.mem_map.mp ha
  have hi' := List.mem_range.mp hi
  refine vpn_window (by omega) ?_
  simp only [pageSize] at *
  omega

namespace Memory

variable {role : ℕ → Role} {e : Event} {k0 k k' : Kernel} {p : Process} {m1 m2 m' : Machine}

/-- A memory operation of a system call. -/
theorem memOp (h : Memory role k) (hp : k.procs.slots k.current = some p) (he : e.unmapsWindow)
    (ha : ∀ i p, k0.procs.slots i = some p → p.nextMmap % pageSize = 0)
    (hm : MemOp e k0 p k.machine m') : ∃ role', Memory role' { k with machine := m' } := by
  have hroot := h.root _ p hp
  generalize hkm : k.machine = m at hm
  cases hm with
  | copyOut hc =>
    subst hkm
    exact ⟨role, h.dataOnly (h.copyOut_effect hp hc)⟩
  | @mmap t io p0 _ res hc hlen hp0 hr hend hm =>
    rw [← hkm, ← hr] at hm
    obtain ⟨role', hn⟩ := (mmapPages_spec _ (h.good.account p0.pid) hroot (ha _ p0 hp0)).ok hm
    exact ⟨role', (h.account p0.pid).grows hn.grows⟩
  | munmap hc hva hlen hm =>
    rw [← hkm] at hm
    obtain ⟨h1, h2⟩ := he _ _ hc hva hlen
    obtain ⟨role', hs⟩ := h.munmap_effect hp
      (fun a ha => ownLeaf_of_window h.good.tables hroot (rangeVas_window h1 h2 ha)) hm
    exact ⟨role', h.shrinks hs⟩
  | forkNone hc h1 =>
    rw [← hkm] at h1
    obtain ⟨rfl, -⟩ := (newUserRoot_spec (h.good.account k0.procs.nextPid)).ok h1
    exact ⟨role, h.account _⟩
  | @forkUndo t io r err m1 m2 m3 _ hc h1 h2 h3 h4 =>
    rw [← hkm] at h1
    obtain ⟨role1, hn⟩ := h.fork_effect hp h1 h2
    have hm2 := h.newSpace hn
    have hr1 : role1 r = .root := hn.adds.root
    obtain ⟨role2, hs, -⟩ := hm2.free_effect hr1 h3
    have hm3 := hm2.shrinks hs
    have hr2 : role2 r = .root := (hs.root_iff r).mpr hr1
    exact ⟨_, hm3.released hr2 (hm3.release_effect hr2 h4) fun i q hq => h.root_ne hn.adds.free hq⟩
  | execFail hc hname himage hb =>
    rw [← hkm] at hb
    rcases h.build_effect hb with ⟨rfl, -⟩ | ⟨q, vas, ok, role1, hn, -⟩
    · exact ⟨role, h.account _⟩
    · exact ⟨role1, h.newSpace hn⟩

theorem adopt_rootPa (cur : ℕ) (init : Option ℕ) (p : Process) :
    (adopt cur init p).rootPa = p.rootPa := by
  unfold adopt
  split_ifs <;> rfl

theorem adopt_nextMmap (cur : ℕ) (init : Option ℕ) (p : Process) :
    (adopt cur init p).nextMmap = p.nextMmap := by
  unfold adopt
  split_ifs <;> rfl

/-- The part of an exit that frees the user window. -/
theorem exit (h : Memory role k) {code : ℤ} (hx : Exit code p m1 k k') :
    ∃ role', Shrinks (Window p.rootPa) role k.machine role' m1 ∧ Memory role' k' := by
  obtain ⟨role', hs, -⟩ := h.free_effect (h.root _ p hx.proc) hx.free
  refine ⟨role', hs, (h.shrinks hs).procs (by rw [hx.state]; rfl) (by rw [hx.state]; rfl) ?_⟩
  intro i q hq
  have hslots := Tree.exit_slots hx i
  rw [hq] at hslots
  split_ifs at hslots with hi
  · obtain rfl := Option.some.inj hslots
    subst hi
    exact ⟨p, hx.proc, adopt_rootPa .., fun h => by rw [adopt_nextMmap]; exact h⟩
  · obtain ⟨q0, hq0, rfl⟩ := Option.map_eq_some_iff.mp hslots.symm
    exact ⟨q0, hq0, adopt_rootPa .., fun h => by rw [adopt_nextMmap]; exact h⟩

open Classical in
/-- A zombie is reaped: its root is returned. -/
theorem reap (h : Memory role k) {par child : ℕ} {c : Process} (hr : Reap par child c p m1 m2 k k') :
    DataOnly role k.machine m1 ∧ Released c.rootPa role m1 m2 ∧
      Memory (Drop.newRole role (TreeOf role c.rootPa)) k' := by
  have hdata : DataOnly role k.machine m1 := by
    by_cases h0 : p.waitStatusUva = 0
    · rw [hr.skip h0]
      exact .refl role _
    · obtain ⟨res, hc⟩ := hr.store h0
      exact h.copyOut_effect hr.par_slot hc
  have h1 := h.dataOnly hdata
  have hroot := h.root _ c hr.child_slot
  have hrel : Released c.rootPa role m1 m2 := h1.release_effect hroot hr.free
  refine ⟨hdata, hrel, ?_⟩
  have hslots : k'.procs.slots = ((k.setSlot par (some { p with state := .ready })).setSlot child
      none).procs.slots := by rw [hr.state]; rfl
  have hback : ∀ j q, k'.procs.slots j = some q → j ≠ child ∧ ∃ q0, k.procs.slots j = some q0 ∧
      q.rootPa = q0.rootPa ∧ q.nextMmap = q0.nextMmap := by
    intro j q hq
    rw [hslots, Kernel.setSlot_slots, Kernel.setSlot_slots] at hq
    split_ifs at hq with hj hj'
    · subst hj'
      obtain rfl := Option.some.inj hq
      exact ⟨hj, p, hr.par_slot, rfl, rfl⟩
    · exact ⟨hj, q, hq, rfl, rfl⟩
  have hm : k'.machine = m2 := by rw [hr.state]; rfl
  have hreg : k'.regions = k.regions := by rw [hr.state]; rfl
  refine ⟨hm ▸ hrel.good, fun j q hq => ?_, fun i j q q' hq hq' he => ?_, fun j q hq => ?_,
    fun r hr' q hq => ?_, hreg ▸ h.apart⟩
  · obtain ⟨hj, q0, hq0, he, -⟩ := hback j q hq
    rw [he]
    exact Released.root (h.root j q0 hq0) fun he' => hj (h.root_inj j child q0 c hq0 hr.child_slot he')
  · obtain ⟨-, q0, hq0, he0, -⟩ := hback i q hq
    obtain ⟨-, q0', hq0', he0', -⟩ := hback j q' hq'
    exact h.root_inj i j q0 q0' hq0 hq0' (by rw [← he0, ← he0', he])
  · obtain ⟨-, q0, hq0, -, he⟩ := hback j q hq
    rw [he]
    exact h.mmap_aligned j q0 hq0
  · rw [hm]
    obtain ⟨h2, h3⟩ := h.region r (hreg ▸ hr') q hq
    exact (hdata.keepsLoose.trans (hrel.keepsLoose hroot)) q h2 h3

/-- A process appears in a free slot, with a root of its own. -/
theorem newProc (h : Memory role k) {slot : ℕ}
    (hslots : k'.procs.slots = (k.setSlot slot (some p)).procs.slots) (hroot : role p.rootPa = .root)
    (hown : ∀ i q, k.procs.slots i = some q → q.rootPa ≠ p.rootPa)
    (ha : p.nextMmap % pageSize = 0) (hm : k'.machine = k.machine) (hr : k'.regions = k.regions) :
    Memory role k' := by
  have hback : ∀ j q, k'.procs.slots j = some q → q = p ∧ j = slot ∨ k.procs.slots j = some q := by
    intro j q hq
    rw [hslots, Kernel.setSlot_slots] at hq
    split_ifs at hq with hj
    · exact .inl ⟨(Option.some.inj hq).symm, hj⟩
    · exact .inr hq
  refine ⟨hm ▸ h.good, fun j q hq => ?_, fun i j q q' hq hq' he => ?_, fun j q hq => ?_,
    fun r hr' q hq => ?_, hr ▸ h.apart⟩
  · rcases hback j q hq with ⟨rfl, -⟩ | hq0
    · exact hroot
    · exact h.root j q hq0
  · rcases hback i q hq with ⟨rfl, rfl⟩ | hq0
    · rcases hback j q' hq' with ⟨-, rfl⟩ | hq0'
      · rfl
      · exact absurd he.symm (hown j q' hq0')
    · rcases hback j q' hq' with ⟨rfl, -⟩ | hq0'
      · exact absurd he (hown i q hq0)
      · exact h.root_inj i j q q' hq0 hq0' he
  · rcases hback j q hq with ⟨rfl, -⟩ | hq0
    · exact ha
    · exact h.mmap_aligned j q hq0
  · rw [hm]
    exact h.region r (hr ▸ hr') q hq

/-- A fork: the child's space is new. -/
theorem fork (h : Memory role k) (hp : k.procs.slots k.current = some p) {slot r : ℕ}
    (h1 : newUserRoot { k.machine with account := k.procs.nextPid } = .ok (some r, m1))
    (h2 : cloneUserSpace p.rootPa r m1 = .ok (.ok (), m2)) :
    ∃ role', NewSpace r (userPages m1 p.rootPa) true role
      { k.machine with account := k.procs.nextPid } role' m2 ∧
      Memory role' (forkState k p slot r m2) := by
  obtain ⟨role', hn⟩ := h.fork_effect hp h1 h2
  exact ⟨role', hn, (h.newSpace hn).newProc rfl hn.adds.root
    (fun i q hq => h.root_ne hn.adds.free hq) (h.mmap_aligned _ p hp) rfl rfl⟩

open Classical in
/-- An exec: the new space is built before the old one goes. -/
theorem exec (h : Memory role k) (hp : k.procs.slots k.current = some p) {m3 : Machine}
    {image name : List UInt8} {q entry brk : ℕ}
    (h1 : buildAddressSpace image { k.machine with account := p.pid } =
      .ok (.ok (q, entry, brk), m1))
    (h2 : freeUserSpace p.rootPa m1 = .ok ((), m2)) (h3 : pageFree p.rootPa 1 m2 = .ok ((), m3)) :
    ∃ vas role1 role2, NewSpace q vas true role { k.machine with account := p.pid } role1 m1 ∧
      (∀ va ∈ vas, ImagePage image va) ∧
      Shrinks (Window p.rootPa) role1 m1 role2 m2 ∧ Released p.rootPa role2 m2 m3 ∧
      Memory (Drop.newRole role2 (TreeOf role2 p.rootPa)) (execState k p name q entry brk m3) := by
  rcases h.build_effect h1 with ⟨-, hf⟩ | ⟨q', vas, ok, role1, hn, himg, hok⟩
  · simp [isOk_ok] at hf
  obtain ⟨rfl, rfl⟩ := hok _ rfl
  have hm1 := h.newSpace hn
  have hroot1 := hm1.root _ p hp
  obtain ⟨role2, hs, -⟩ := hm1.free_effect hroot1 h2
  have hm2 := hm1.shrinks hs
  have hroot2 := hm2.root _ p hp
  have hrel : Released p.rootPa role2 m2 m3 := hm2.release_effect hroot2 h3
  have hq2 : role2 q = .root := (hs.root_iff q).mpr hn.adds.root
  have hne : q ≠ p.rootPa := (h.root_ne hn.adds.free hp).symm
  refine ⟨vas, role1, role2, hn, himg, hs, hrel, ?_⟩
  have hback : ∀ j x, (execState k p name q entry brk m3).procs.slots j = some x →
      j = k.current ∧ x.rootPa = q ∧ x.nextMmap = mmapBase ∨
        j ≠ k.current ∧ k.procs.slots j = some x := by
    intro j x hx
    have hx' : (k.setSlot k.current (some { p with
      rootPa := q, nextMmap := mmapBase, brk := brk, name := setName p.name name })).procs.slots j =
        some x := hx
    rw [Kernel.setSlot_slots] at hx'
    split_ifs at hx' with hj
    · obtain rfl := Option.some.inj hx'
      exact .inl ⟨hj, rfl, rfl⟩
    · exact .inr ⟨hj, hx'⟩
  have hother : ∀ j x, j ≠ k.current → k.procs.slots j = some x → x.rootPa ≠ p.rootPa :=
    fun j x hj hx he => hj (h.root_inj j k.current x p hx hp he)
  refine ⟨hrel.good, fun j x hx => ?_, fun i j x y hx hy he => ?_, fun j x hx => ?_,
    fun r hr' x hx => ?_, h.apart⟩
  · rcases hback j x hx with ⟨-, he, -⟩ | ⟨hj, hx0⟩
    · rw [he]
      exact Released.root hq2 hne
    · exact Released.root (hm2.root j x hx0) (hother j x hj hx0)
  · rcases hback i x hx with ⟨rfl, hex, -⟩ | ⟨hi, hx0⟩
    · rcases hback j y hy with ⟨rfl, -⟩ | ⟨hj, hy0⟩
      · rfl
      · exact absurd (by rw [← he, hex]) (h.root_ne hn.adds.free hy0)
    · rcases hback j y hy with ⟨rfl, hey, -⟩ | ⟨hj, hy0⟩
      · exact absurd (by rw [he, hey]) (h.root_ne hn.adds.free hx0)
      · exact h.root_inj i j x y hx0 hy0 he
  · rcases hback j x hx with ⟨-, -, he⟩ | ⟨-, hx0⟩
    · rw [he]
      decide
    · exact h.mmap_aligned j x hx0
  · exact hrel.keepsLoose hroot2 x (hm2.region r hr' x hx).1 (hm2.region r hr' x hx).2

/-- The heap grows by frames that nobody had. -/
theorem heapGrow (h : Memory role k) {n addr : ℕ}
    (hm : pageAlloc n { k.machine with account := 0 } = .ok (some addr, m')) (kind : RegionKind) :
    Memory role { k with machine := m', regions := ⟨kind, addr, n⟩ :: k.regions } := by
  have hh : Handed { k.machine with account := 0 } n addr m' :=
    (pageAlloc_spec n (h.good.account 0).pages).ok hm
  have h1 : Memory role { k with machine := m' } :=
    (h.account 0).machine (hh.good (h.good.account 0)) hh.keepsLoose h.root
  have hnew : ∀ q, (⟨kind, addr, n⟩ : Region).Has q → ¬ k.machine.Held q := by
    rintro q ⟨i, hi, rfl⟩
    exact hh.free i hi
  refine ⟨h1.good, h1.root, h1.root_inj, h1.mmap_aligned, fun r hr q hq => ?_,
    List.pairwise_cons.mpr ⟨fun r hr q hq hq' => hnew q hq (h.region r hr q hq').1, h.apart⟩⟩
  rcases List.mem_cons.mp hr with rfl | hr
  · refine ⟨(hh.held q).mpr (.inr ?_), ?_⟩
    · obtain ⟨i, hi, rfl⟩ := hq
      exact ⟨i, hi, rfl⟩
    · by_contra hne
      exact hnew q hq (h.good.tables.held q hne)
  · exact h1.region r hr q hq

/-- Every move keeps the forest and the processes in agreement. -/
theorem move (h : Memory role k) (he : e.unmapsWindow)
    (ha : ∀ i p, k0.procs.slots i = some p → p.nextMmap % pageSize = 0)
    (hm : Move e k0 k k') : ∃ role', Memory role' k' := by
  cases hm with
  | quiet hq => exact ⟨role, h.congr hq.machine hq.regions (by rw [hq.procs])⟩
  | trap _ _ => exact ⟨role, h.congr rfl rfl rfl⟩
  | store _ hp hw =>
    obtain ⟨q, t, i, hq, rfl⟩ := userWritable_spec h.good (h.root _ _ hp) hw
    exact ⟨role, h.dataOnly (.store hq (Nat.mod_lt _ (by decide)))⟩
  | memory _ hp hm => exact h.memOp hp he ha hm
  | result _ _ _ => exact ⟨role, h.congr rfl rfl rfl⟩
  | resume _ => exact ⟨role, h.congr rfl rfl rfl⟩
  | own _ hp hown => exact ⟨role, h.setSlot hp rfl (by rw [hown.eq]) hown.aligned rfl rfl⟩
  | socket _ hp _ => exact ⟨role, h.setSlot hp rfl rfl (fun h => h) rfl rfl⟩
  | close _ _ _ hp _ => exact ⟨role, h.setSlot hp rfl rfl (fun h => h) rfl rfl⟩
  | fork _ _ hp h1 h2 _ =>
    obtain ⟨role', -, hm⟩ := h.fork hp h1 h2
    exact ⟨role', hm⟩
  | exec _ hp _ _ h1 h2 h3 =>
    obtain ⟨vas, role1, role2, -, -, -, -, hm⟩ := h.exec hp h1 h2 h3
    exact ⟨_, hm⟩
  | exit _ _ hx _ =>
    obtain ⟨role', -, hm⟩ := h.exit hx
    exact ⟨role', hm.congr rfl rfl rfl⟩
  | exitReap _ _ hx _ hr =>
    obtain ⟨role', -, hm⟩ := h.exit hx
    exact ⟨_, (hm.reap hr).2.2.congr rfl rfl rfl⟩
  | @waitReap t io p c q child m1 m2 k1 _ hp _ hr =>
    have hs : Memory role ((trapState t k0).setSlot k0.current (some (asleep p (t.arg 11)))) :=
      h.setSlot hp rfl rfl (fun h => h) rfl rfl
    exact ⟨_, (hs.reap hr).2.2.congr rfl rfl rfl⟩
  | waitBlock _ hp _ => exact ⟨role, h.setSlot hp rfl rfl (fun h => h) rfl rfl⟩
  | waitNone _ hp _ => exact ⟨role, h.setSlot hp rfl rfl (fun h => h) rfl rfl⟩
  | block _ _ hp => exact ⟨role, h.setSlot hp rfl rfl (fun h => h) rfl rfl⟩
  | yield _ _ _ =>
    refine ⟨role, h.procs rfl rfl fun j q hq => ?_⟩
    change (k.setSlot _ _).procs.slots j = some q at hq
    rw [Kernel.setSlot_slots] at hq
    split_ifs at hq with hj
    · subst hj
      obtain ⟨p, hp, rfl⟩ := Option.map_eq_some_iff.mp hq
      refine ⟨p, hp, ?_⟩
      split_ifs
      · exact ⟨rfl, fun h => h⟩
      · exact ⟨rfl, fun h => h⟩
    · exact ⟨q, hq, rfl, fun h => h⟩
  | wake _ hp _ hcopy =>
    exact ⟨role, (h.dataOnly (h.copyOut_effect hp hcopy)).setSlot hp rfl rfl (fun h => h) rfl rfl⟩
  | schedule _ _ hp => exact ⟨role, h.setSlot hp rfl rfl (fun h => h) rfl rfl⟩
  | heapGrow _ hm => exact ⟨role, h.heapGrow hm .heap⟩
  | spawnFail _ _ _ hb =>
    rcases h.build_effect hb with ⟨rfl, -⟩ | ⟨q, vas, ok, role1, hn, -⟩
    · exact ⟨role, h.account _⟩
    · exact ⟨role1, h.newSpace hn⟩
  | spawn _ _ _ hb _ _ =>
    rcases h.build_effect hb with ⟨-, hf⟩ | ⟨q, vas, ok, role1, hn, -, hok⟩
    · simp [isOk_ok] at hf
    · obtain ⟨-, rfl⟩ := hok _ rfl
      exact ⟨role1, (h.newSpace hn).newProc rfl hn.adds.root
        (fun i q hq => h.root_ne hn.adds.free hq) (show mmapBase % pageSize = 0 by decide) rfl rfl⟩

end Memory

end LightOS
