import Mathlib
import LightOS.Contents
import LightOS.Hardware
import LightOS.Lineage

/-!
# Anonymous memory

`mmap` takes its addresses from a bump pointer and its frames from the allocator.
A call whose page loop completes yields memory that nobody had before: pages that
were not mapped, at frames that were free and have been zeroed. The pointer only
moves forward until the process replaces its image, so no two ranges overlap. It is
not bounded, though: past 2^38 the tables take pages that the hardware does not see
at the address that is returned.
-/
namespace LightOS
open Lib PageAllocator

section Pages

variable {role role' : ℕ → Role} {m m' : Machine} {r va : ℕ}

/-- A page of zeros that the process may read and write. -/
def zeroPage (va : ℕ) : PageSpec := ⟨va, pteU ||| pteR ||| pteW, fun _ => 0⟩

/-- The pages of an anonymous mapping. -/
def zeroPages (va pages : ℕ) : List PageSpec :=
  (List.range pages).map fun i => zeroPage (va + i * pageSize)

/-- A zeroed frame mapped at one page, or none left. -/
theorem zeroPage_filled {K : ℕ → Prop} {flags : ℕ} (hg : Good role m) (hr : role r = .root)
    (hva : va % pageSize = 0) (hf : FlagsOk flags) (hu : flags.testBit 4 = true) (hK : K (vpn va 2))
    {q : ℕ} (hgot : Got m q m') (hz : ∀ a, q ≤ a → a < q + pageSize → m'.mem a = 0) :
    Prog.Wp (PageTable.map r va q flags) m' (fun res m'' =>
      FilledUpTo r K [⟨va, flags, fun _ => 0⟩] res.isOk role m m'') Prog.Never := by
  refine map_filled hg hgot (Or.inl hr) (fun he => absurd he (hg.root_ne hr)) hva hf hu ?_ hK
  intro o ho
  exact hz (q + o) (by omega) (by omega)

/-- The page loop of `sys_mmap`. -/
theorem mmapPages_filled (pages : ℕ) (hg : Good role m) (hr : role r = .root)
    (hva : va % pageSize = 0) :
    Prog.Wp (mmapPages r va pages) m (fun res m' =>
      FilledUpTo r (fun _ => True) (zeroPages va pages) res.isOk role m m') Prog.Never := by
  unfold mmapPages zeroPages
  refine filled_loop _ (List.range pages) hg hr fun i _ role m hg hr => ?_
  refine (pageAlloc_one hg).bind fun res m1 h1 => ?_
  cases res with
  | none =>
    obtain ⟨rfl, -⟩ := h1
    exact Prog.wp_pure.mpr ⟨role, 0, .nil hg, by simp [isOk_error]⟩
  | some q =>
    have hva' : (va + i * pageSize) % pageSize = 0 := by
      rw [Nat.add_mul_mod_self_right, hva]
    refine (zeroPage_filled (K := fun _ => True) hg hr hva' (by rfl) (by decide) trivial h1.1
      h1.2).bind fun res m2 h2 => ?_
    cases res with
    | ok u => exact Prog.wp_pure.mpr h2
    | error e => exact Prog.wp_pure.mpr h2

/-- What the page loop leaves in the tables, by what `walk` finds in them. -/
structure FreshTables (r va pages : ℕ) (m m' : Machine) : Prop where
  before : ∀ i < pages, translation m r (va + i * pageSize) = none
  after : ∃ frame : ℕ → ℕ,
    (∀ i < pages, translation m' r (va + i * pageSize) = some (frame i, pteU ||| pteR ||| pteW)) ∧
    (∀ i < pages, m.IsFrame (frame i) ∧ m.pages.bitmap (frameOf (frame i)) = false) ∧
    (∀ i < pages, ∀ o < pageSize, m'.mem (frame i + o) = 0) ∧
    ∀ i < pages, ∀ j < pages, frame i = frame j → i = j
  other : ∀ a, (∀ i < pages, ¬ SamePage a (va + i * pageSize)) →
    translation m' r a = translation m r a

/-- The `pages` pages from `va` on are new for the hardware: they were not mapped and are
now, for reading and writing, at frames that were free and hold zeros; every other page
is mapped as it was. -/
structure FreshMapping (r va pages : ℕ) (m m' : Machine) : Prop where
  before : ∀ i < pages, hardware m r (va + i * pageSize) = none
  after : ∃ frame : ℕ → ℕ,
    (∀ i < pages, hardware m' r (va + i * pageSize) = some (frame i, pteU ||| pteR ||| pteW)) ∧
    (∀ i < pages, m.IsFrame (frame i) ∧ m.pages.bitmap (frameOf (frame i)) = false) ∧
    (∀ i < pages, ∀ o < pageSize, m'.mem (frame i + o) = 0) ∧
    ∀ i < pages, ∀ j < pages, frame i = frame j → i = j
  other : ∀ a, (∀ i < pages, a / pageSize ≠ (va + i * pageSize) / pageSize) →
    hardware m' r a = hardware m r a

/-- The hardware sees the new pages exactly if their addresses are canonical. -/
theorem FreshTables.mapping_iff {pages : ℕ} (h : FreshTables r va pages m m') (hg : Good role m)
    (hr : role r = .root) (hg' : Good role' m') (hr' : role' r = .root) (hal : va % pageSize = 0)
    (hpages : 0 < pages) (hfit : va + pages * pageSize ≤ usizeBound) :
    FreshMapping r va pages m m' ↔
      va + pages * pageSize ≤ 2 ^ 38 ∨ usizeBound - 2 ^ 38 ≤ va := by
  rw [← canonical_range hal hpages hfit]
  constructor
  · intro hf i hi
    by_contra hc
    obtain ⟨frame, hframe, -⟩ := hf.after
    have := hframe i hi
    rw [hardware_gap hc] at this
    cases this
  · intro hc
    obtain ⟨frame, hframe, hrest⟩ := h.after
    refine ⟨fun i hi => ?_, ⟨frame, fun i hi => ?_, hrest⟩, fun a ha => ?_⟩
    · rw [hg.hardware_eq hr (hc i hi)]
      exact h.before i hi
    · rw [hg'.hardware_eq hr' (hc i hi)]
      exact hframe i hi
    · by_cases hca : Canonical a
      · rw [hg.hardware_eq hr hca, hg'.hardware_eq hr' hca]
        exact h.other a fun i hi hs => ha i hi (hca.page_eq (hc i hi) hs)
      · rw [hardware_gap hca, hardware_gap hca]

theorem mem_zeroPages {pages i : ℕ} (hi : i < pages) :
    zeroPage (va + i * pageSize) ∈ zeroPages va pages :=
  List.mem_map.mpr ⟨i, List.mem_range.mpr hi, rfl⟩

namespace Filled

variable {K : ℕ → Prop} {pages : ℕ}

/-- Where page `i` of a mapping went. -/
theorem zeroPage (h : Filled r K (zeroPages va pages) role m role' m') {i : ℕ} (hi : i < pages) :
    ∃ q, translation m' r (va + i * pageSize) = some (q, pteU ||| pteR ||| pteW) ∧
      (m.IsFrame q ∧ m.pages.bitmap (frameOf q) = false) ∧ m'.PageIs q fun _ => 0 := by
  obtain ⟨q, t, j, hq, hfree, hrole, hz⟩ := h.after _ (mem_zeroPages hi)
  have hheld : m'.Held q := h.grows.good.tables.held _ (by simp [hrole])
  have hf := (h.grows.isFrame_iff _).mp hheld.1
  refine ⟨q, hq, ⟨hf, ?_⟩, hz⟩
  cases hb : m.pages.bitmap (frameOf q) with
  | false => rfl
  | true => exact absurd ⟨hf, hb⟩ hfree

/-- The pages of a mapping are all different. -/
theorem zeroPages_apart (h : Filled r K (zeroPages va pages) role m role' m') {i j : ℕ}
    (hij : i < j) (hj : j < pages) : ¬ SamePage (va + j * pageSize) (va + i * pageSize) := by
  have hap := h.apart
  rw [zeroPages, List.pairwise_map] at hap
  have hp := List.pairwise_iff_getElem.mp hap i j (by simp; omega) (by simpa using hj) hij
  rw [List.getElem_range, List.getElem_range] at hp
  exact hp

theorem freshTables (h : Filled r K (zeroPages va pages) role m role' m') (hr : role r = .root) :
    FreshTables r va pages m m' := by
  obtain ⟨frame, hframe⟩ : ∃ frame : ℕ → ℕ, ∀ i, i < pages →
      translation m' r (va + i * pageSize) = some (frame i, pteU ||| pteR ||| pteW) ∧
        (m.IsFrame (frame i) ∧ m.pages.bitmap (frameOf (frame i)) = false) ∧
          m'.PageIs (frame i) fun _ => 0 := by
    refine ⟨fun i => ((translation m' r (va + i * pageSize)).getD (0, 0)).1, fun i hi => ?_⟩
    obtain ⟨q, hq, hrest⟩ := h.zeroPage hi
    dsimp only
    rw [hq]
    exact ⟨rfl, hrest⟩
  have hbefore : ∀ i < pages, translation m r (va + i * pageSize) = none := by
    intro i hi
    have := h.before (LightOS.zeroPage (va + i * pageSize)) (mem_zeroPages hi)
    exact this
  refine ⟨hbefore, ⟨frame, fun i hi => (hframe i hi).1,
    fun i hi => (hframe i hi).2.1, fun i hi => (hframe i hi).2.2, fun i hi j hj he => ?_⟩,
    fun a ha => h.other a fun b hb => ?_⟩
  · by_contra hne
    refine h.frames_ne (a := LightOS.zeroPage (va + i * pageSize))
      (b := LightOS.zeroPage (va + j * pageSize)) (Or.inl hr) (fun hs => ?_) (hframe i hi).1
      (hframe j hj).1 (by decide) (by decide) he
    rcases Nat.lt_or_gt_of_ne hne with hij | hij
    · exact h.zeroPages_apart hij hj ⟨hs.1.symm, hs.2.1.symm, hs.2.2.symm⟩
    · exact h.zeroPages_apart hij hi hs
  · obtain ⟨i, hi, rfl⟩ := List.mem_map.mp hb
    exact ha i (List.mem_range.mp hi)

end Filled

end Pages

/-! ### The bump pointer -/

section Pointer

variable {k k' k0 : Kernel} {e : Event} {pid : ℕ}

/-- How a call of `sys_mmap` ends. -/
theorem sysMmap_ends {tf : TrapFrame} {ret : ℤ} {p : Process} (hrun : sysMmap tf k = .ok (ret, k'))
    (hp : k.procs.slots k.current = some p) :
    (tf.a1 = 0 ∧ ret = einval ∧ k' = k) ∨ tf.a1 ≠ 0 ∧ ∃ res m1,
      p.nextMmap + pagesOf tf.a1 * pageSize < usizeBound ∧
      mmapPages p.rootPa p.nextMmap (pagesOf tf.a1) { k.machine with account := p.pid } =
        .ok (res, m1) ∧
      ret = (match res with
        | .ok _ => toIsize p.nextMmap
        | .error _ => enomem) ∧
      k' = { k.setSlot k.current
        (some { p with nextMmap := p.nextMmap + pagesOf tf.a1 * pageSize }) with machine := m1 } := by
  unfold sysMmap at hrun
  dsimp only at hrun
  by_cases h0 : tf.a1 = 0
  · rw [if_pos h0] at hrun
    obtain ⟨rfl, rfl⟩ := Prod.mk.inj (Prog.pure_ok.mp hrun)
    exact Or.inl ⟨h0, rfl, rfl⟩
  · rw [if_neg h0, Prog.get_bind_ok, procAt_bind] at hrun
    obtain ⟨p', -, hp', hrun⟩ := hrun
    obtain rfl := Option.some.inj (hp.symm.trans hp')
    obtain ⟨size, k1, h1, hrun⟩ := Prog.bind_ok.mp hrun
    obtain ⟨hsize, rfl⟩ := Prog.ofExcept_ok.mp h1
    obtain ⟨-, rfl⟩ := checkedMul_ok.mp hsize
    obtain ⟨next, k2, h2, hrun⟩ := Prog.bind_ok.mp hrun
    obtain ⟨hnext, rfl⟩ := Prog.ofExcept_ok.mp h2
    obtain ⟨hlt, rfl⟩ := checkedAdd_ok.mp hnext
    rw [setProc_bind] at hrun
    obtain ⟨res, k3, h3, hrun⟩ := Prog.bind_ok.mp hrun
    obtain ⟨m1, hpages, rfl⟩ := onMachineFor_ok.mp h3
    refine Or.inr ⟨h0, res, m1, hlt, hpages, ?_⟩
    cases res with
    | ok u => exact Prod.mk.inj (Prog.pure_ok.mp hrun)
    | error u => exact Prod.mk.inj (Prog.pure_ok.mp hrun)

/-- The call of process `pid` replaces its image. -/
def Execs (pid : ℕ) (e : Event) (k : Kernel) : Prop :=
  ∃ t io p k', Call e t io .execve ∧ k.procs.slots k.current = some p ∧ p.pid = pid ∧
    sysExecve io ((trapState t k).frames k.current) (trapState t k) = .ok (0, k')

/-- Of process `pid` only the mmap pointer has moved, and forward; new processes
have other pids. -/
structure Forward (pid : ℕ) (k k' : Kernel) : Prop where
  next : k.procs.nextPid ≤ k'.procs.nextPid
  slot : ∀ i p', k'.procs.slots i = some p' → p'.pid = pid → pid < k.procs.nextPid →
    ∃ p, k.procs.slots i = some p ∧ p.pid = pid ∧ p.nextMmap ≤ p'.nextMmap

namespace Forward

variable {k'' : Kernel}

theorem congr (hs : k'.procs.slots = k.procs.slots) (hn : k'.procs.nextPid = k.procs.nextPid) :
    Forward pid k k' := by
  refine ⟨hn.ge, fun i p' hp' hpid _ => ?_⟩
  rw [hs] at hp'
  exact ⟨p', hp', hpid, le_rfl⟩

theorem refl : Forward pid k k := congr rfl rfl

theorem trans (h : Forward pid k k') (h' : Forward pid k' k'') : Forward pid k k'' := by
  refine ⟨h.next.trans h'.next, fun i p'' hp'' hpid hlt => ?_⟩
  obtain ⟨p', hp', hpid', hle'⟩ := h'.slot i p'' hp'' hpid (hlt.trans_le h.next)
  obtain ⟨p, hp, hpid, hle⟩ := h.slot i p' hp' hpid' hlt
  exact ⟨p, hp, hpid, hle.trans hle'⟩

/-- One process changes, but for its pid, and its pointer is not lower. -/
theorem set {j : ℕ} {x x' : Process} (hx : k.procs.slots j = some x)
    (hs : ∀ i, k'.procs.slots i = if i = j then some x' else k.procs.slots i)
    (hid : x'.pid = x.pid) (hle : x.nextMmap ≤ x'.nextMmap)
    (hn : k'.procs.nextPid = k.procs.nextPid) : Forward pid k k' := by
  refine ⟨hn.ge, fun i p' hp' hpid _ => ?_⟩
  rw [hs] at hp'
  by_cases hi : i = j
  · subst hi
    rw [if_pos rfl, Option.some.injEq] at hp'
    subst hp'
    exact ⟨x, hx, hid ▸ hpid, hle⟩
  · rw [if_neg hi] at hp'
    exact ⟨p', hp', hpid, le_rfl⟩

/-- A slot is emptied. -/
theorem drop {j : ℕ} (hs : ∀ i, k'.procs.slots i = if i = j then none else k.procs.slots i)
    (hn : k'.procs.nextPid = k.procs.nextPid) : Forward pid k k' := by
  refine ⟨hn.ge, fun i p' hp' hpid _ => ?_⟩
  rw [hs] at hp'
  by_cases hi : i = j
  · rw [if_pos hi] at hp'
    cases hp'
  · rw [if_neg hi] at hp'
    exact ⟨p', hp', hpid, le_rfl⟩

theorem exit {code : ℤ} {p : Process} {m1 : Machine} (hx : Exit code p m1 k k') :
    Forward pid k k' := by
  have hadopt : ∀ (c : ℕ) (o : Option ℕ) (q : Process),
      (adopt c o q).pid = q.pid ∧ (adopt c o q).nextMmap = q.nextMmap := by
    intro c o q
    unfold adopt
    split_ifs
    · exact ⟨rfl, rfl⟩
    · exact ⟨rfl, rfl⟩
  refine ⟨by rw [hx.state]; exact le_rfl, fun i p' hp' hpid _ => ?_⟩
  rw [Tree.exit_slots hx] at hp'
  by_cases hi : i = k.current
  · subst hi
    rw [if_pos rfl, Option.some.injEq] at hp'
    subst hp'
    obtain ⟨h1, h2⟩ := hadopt k.current (initSlot k.procs) p
    exact ⟨p, hx.proc, h1.symm.trans hpid, h2.ge⟩
  · rw [if_neg hi] at hp'
    obtain ⟨q, hq, rfl⟩ := Option.map_eq_some_iff.mp hp'
    obtain ⟨h1, h2⟩ := hadopt k.current (initSlot k.procs) q
    exact ⟨q, hq, h1.symm.trans hpid, h2.ge⟩

theorem reap {par child : ℕ} {c q : Process} {m1 m2 : Machine} (hr : Reap par child c q m1 m2 k k') :
    Forward pid k k' := by
  have hset : Forward pid k (k.setSlot par (some { q with state := .ready })) :=
    .set hr.par_slot (fun _ => rfl) rfl le_rfl rfl
  refine hset.trans (drop (j := child) (fun i => ?_) ?_)
  · rw [hr.state]
    rfl
  · rw [hr.state]
    rfl

end Forward

/-- What the pieces of a successful exec do as one call. -/
theorem sysExecve_done {tf : TrapFrame} {io : Io} {p : Process} {name image : List UInt8}
    {q entry brk : ℕ} {m1 m2 m3 : Machine} (hcur : k.current < maxProcs)
    (hp : k.procs.slots k.current = some p)
    (hname : copyInCstr p.rootPa tf.a0 128 k.machine = .ok (.ok name, k.machine))
    (himage : k.fs.loadProgram io.disk name = .ok (some image))
    (h1 : buildAddressSpace image { k.machine with account := p.pid } = .ok (.ok (q, entry, brk), m1))
    (h2 : freeUserSpace p.rootPa m1 = .ok ((), m2)) (h3 : pageFree p.rootPa 1 m2 = .ok ((), m3)) :
    sysExecve io tf k = .ok (0, execState k p name q entry brk m3) := by
  unfold sysExecve
  refine Prog.bind_ok.mpr ⟨_, k, currentInfo_ok.mpr ⟨p, hcur, hp, rfl, rfl⟩, ?_⟩
  refine Prog.bind_ok.mpr ⟨_, k, onMachine_ok.mpr ⟨k.machine, hname, rfl⟩, ?_⟩
  dsimp only
  unfold execCurrent
  rw [Prog.get_bind_ok]
  refine Prog.bind_ok.mpr ⟨_, k, Prog.ofExcept_ok.mpr ⟨himage, rfl⟩, ?_⟩
  dsimp only
  rw [Prog.get_bind_ok, procAt_bind]
  refine ⟨p, hcur, hp, Prog.bind_ok.mpr ⟨_, _, onMachineFor_ok.mpr ⟨m1, h1, rfl⟩, ?_⟩⟩
  dsimp only
  rw [procAt_bind]
  refine ⟨p, hcur, hp, onMachine_bind.mpr ⟨(), m2, h2, onMachine_bind.mpr ⟨(), m3, h3, ?_⟩⟩⟩
  rw [setProc_bind, setFrame_bind]
  rfl

/-- No move but an exec of its own takes the pointer of a process back. -/
theorem Move.forward (ht : Tree k0) (he : e.ordinary) (hx : ¬ Execs pid e k0)
    (hm : Move e k0 k k') : Forward pid k k' := by
  cases hm with
  | quiet hq => exact .congr (by rw [hq.procs]) (by rw [hq.procs])
  | own _ hp hown =>
    exact .set hp (fun _ => rfl) (Tree.own_eq hown).1 hown.mmap_le rfl
  | socket _ hp _ => exact .set hp (fun _ => rfl) rfl le_rfl rfl
  | close _ _ _ hp _ => exact .set hp (fun _ => rfl) rfl le_rfl rfl
  | @fork t io p slot r m1 m2 _ _ _ _ _ _ =>
    refine ⟨Nat.le_succ _, fun i p' hp' hpid hlt => ?_⟩
    by_cases hi : i = slot
    · have hc : (some (forkChild (trapState t k0) p r) : Option Process) = some p' := by
        rw [← hp', hi]
        exact (if_pos rfl).symm
      obtain rfl := Option.some.inj hc
      have : k0.procs.nextPid = pid := hpid
      exact absurd hlt (by rw [trapState_procs]; omega)
    · have hc : k0.procs.slots i = some p' := by
        rw [← hp']
        exact (if_neg hi).symm
      exact ⟨p', hc, hpid, le_rfl⟩
  | @exec t io p name image q entry brk m1 m2 m3 hc hp hname himage h1 h2 h3 =>
    by_cases hpid : p.pid = pid
    · have ha : ((trapState t k0).frames k0.current).a0 = t.arg 10 := by
        rw [TrapFrame.a0, trapState_frame, trapFrame_reg hc.cause _ (by decide)]
      exact absurd ⟨t, io, p, _, hc, hp, hpid, sysExecve_done (ht.bound _ p hp) hp
        (ha ▸ hname) himage h1 h2 h3⟩ hx
    · refine ⟨le_rfl, fun i p' hp' hid _ => ?_⟩
      by_cases hi : i = k0.current
      · have hs : (some _ : Option Process) = some p' := (if_pos hi).symm.trans hp'
        obtain rfl := Option.some.inj hs
        exact absurd hid hpid
      · exact ⟨p', (if_neg hi).symm.trans hp', hid, le_rfl⟩
  | exit _ _ hx _ => exact (Forward.exit hx).trans (.congr rfl rfl)
  | exitReap _ _ hx _ hr =>
    exact (Forward.exit hx).trans ((Forward.reap hr).trans (.congr rfl rfl))
  | @waitReap t io p c q child m1 m2 k1 _ hp _ hr =>
    have hsleep : Forward pid (trapState t k0)
        ((trapState t k0).setSlot k0.current (some (asleep p (t.arg 11)))) :=
      .set hp (fun _ => rfl) rfl le_rfl rfl
    exact hsleep.trans ((Forward.reap hr).trans (.congr rfl rfl))
  | waitBlock _ hp _ => exact .set hp (fun _ => rfl) rfl le_rfl rfl
  | waitNone _ hp _ => exact .set hp (fun _ => rfl) rfl le_rfl rfl
  | block _ _ hp => exact .set hp (fun _ => rfl) rfl le_rfl rfl
  | yield _ _ _ =>
    cases hp : k.procs.slots k.current with
    | none =>
      rw [Option.map_none, ← hp, Kernel.setSlot_same]
      exact .congr rfl rfl
    | some p =>
      rw [Option.map_some]
      split_ifs
      · exact .set hp (fun _ => rfl) rfl le_rfl rfl
      · exact .set hp (fun _ => rfl) rfl le_rfl rfl
  | wake _ hp _ _ => exact .set hp (fun _ => rfl) rfl le_rfl rfl
  | schedule _ _ hp => exact .set hp (fun _ => rfl) rfl le_rfl rfl
  | spawnFail he' _ _ _ => exact absurd he' he.ne_spawn
  | spawn he' _ _ _ _ _ => exact absurd he' he.ne_spawn
  | _ => exact .congr rfl rfl

theorem Next.forward (ht : Tree k) (he : e.ordinary) (hx : ¬ Execs pid e k) (hn : Next e k k') :
    Forward pid k k' :=
  hn.keeps (I := Forward pid k) .refl fun _ _ h hm => h.trans (hm.forward ht he hx)

/-- In the step process `pid` maps `pages` new pages at `va`: the call returns `va`,
which stands at the bump pointer. -/
def Mmaps (pid va pages : ℕ) (e : Event) (k : Kernel) : Prop :=
  ∃ t io p k', Call e t io .mmap ∧ k.procs.slots k.current = some p ∧ p.pid = pid ∧
    p.nextMmap = va ∧ pages = pagesOf (t.arg 11) ∧
    sysMmap ((trapState t k).frames k.current) (trapState t k) = .ok (toIsize va, k')

/-- Before it came into the handler in state `k`, process `pid` had mapped `pages` pages
at `va`, and it has not replaced its image since. -/
def MmappedSince (pid va pages : ℕ) (k0 k : Kernel) : Prop :=
  ∃ e k1 k2 k3 t, Reaches k0 k1 ∧ e.ordinary ∧ Mmaps pid va pages e k1 ∧ Next e k1 k2 ∧
    ReachesIf (fun e k => ¬ Execs pid e k) k2 k3 ∧ k = trapState t k3

theorem toIsize_ne_error {va : ℕ} (hva : va % pageSize = 0) :
    toIsize va ≠ einval ∧ toIsize va ≠ enomem := by
  unfold toIsize
  simp only [pageSize, einval, enomem] at *
  split_ifs
  · exact ⟨by omega, by omega⟩
  · exact ⟨by omega, by omega⟩

/-- The pointer of the process is past the pages it has mapped. -/
def Past (pid b : ℕ) (k : Kernel) : Prop :=
  pid < k.procs.nextPid ∧ ∀ i p, k.procs.slots i = some p → p.pid = pid → b ≤ p.nextMmap

theorem Past.forward {b : ℕ} (h : Past pid b k) (hf : Forward pid k k') : Past pid b k' := by
  refine ⟨h.1.trans_le hf.next, fun i p' hp' hpid => ?_⟩
  obtain ⟨p, hp, hpid, hle⟩ := hf.slot i p' hp' hpid h.1
  exact (h.2 i p hp hpid).trans hle

theorem resumeCurrent_procs (h : resumeCurrent k = .ok ((), k')) : k'.procs = k.procs := by
  unfold resumeCurrent at h
  rw [Prog.get_bind_ok, procAt_bind] at h
  obtain ⟨p, -, hp, h⟩ := h
  unfold enterUser at h
  rw [Prog.get_bind_ok] at h
  obtain rfl := setFrame_ok.mp h
  rfl

theorem sysMmap_past {tf : TrapFrame} {ret : ℤ} {p : Process} (ht : Tree k)
    (hp : k.procs.slots k.current = some p) (hrun : sysMmap tf k = .ok (ret, k')) :
    Past p.pid (p.nextMmap + pagesOf tf.a1 * pageSize) k' := by
  have hlt := (ht.pid_lt _ p hp).2
  rcases sysMmap_ends hrun hp with ⟨h0, -, rfl⟩ | ⟨-, res, m1, -, -, -, rfl⟩
  · refine ⟨hlt, fun i p' hp' hid => ?_⟩
    obtain rfl := ht.pid_inj i _ p' p hp' hp hid
    obtain rfl := Option.some.inj (hp.symm.trans hp')
    rw [h0]
    exact le_rfl
  · refine ⟨hlt, fun i p' hp' hid => ?_⟩
    by_cases hi : i = k.current
    · have hs : (some _ : Option Process) = some p' := (if_pos hi).symm.trans hp'
      obtain rfl := Option.some.inj hs
      exact le_rfl
    · exact absurd (ht.pid_inj i _ p' p ((if_neg hi).symm.trans hp') hp hid) hi

/-- After a call the pointer is past its pages. -/
theorem Mmaps.past {va pages : ℕ} (h : Mmaps pid va pages e k) (ht : Tree k) (hn : Next e k k') :
    Past pid (va + pages * pageSize) k' := by
  obtain ⟨t, io, p, k1, hc, hp, rfl, rfl, rfl, hrun⟩ := h
  have hcur := ht.current_ne hp
  have ha : ((trapState t k).frames k.current).a1 = t.arg 11 := by
    rw [TrapFrame.a1, trapState_frame, trapFrame_reg hc.cause _ (by decide)]
  have htrap : Tree (trapState t k) := ht.congr rfl rfl rfl rfl
  have hpast := sysMmap_past htrap hp hrun
  rw [ha] at hpast
  obtain ⟨-, r, k1', hcall, hend⟩ := step_call hc hcur hn
  obtain ⟨ret, k1'', hrun', hpair⟩ := Prog.map_ok.mp hcall
  rw [hrun] at hrun'
  obtain ⟨rfl, rfl⟩ := Prod.mk.inj (Except.ok.inj hrun')
  obtain ⟨rfl, rfl⟩ := Prod.mk.inj hpair
  have hprocs := resumeCurrent_procs hend
  refine ⟨?_, fun i p' hp' hid => ?_⟩
  · rw [hprocs]
    exact hpast.1
  · rw [hprocs] at hp'
    exact hpast.2 i p' hp' hid

/-- A range that the process mapped earlier ends below its pointer. -/
theorem MmappedSince.le {va pages : ℕ} {p : Process} (hs : Started k0)
    (h : MmappedSince pid va pages k0 k) (hp : k.procs.slots k.current = some p) (hid : p.pid = pid) :
    va + pages * pageSize ≤ p.nextMmap := by
  obtain ⟨e, k1, k2, k3, t, hr, he, hmm, hn, hrun, rfl⟩ := h
  have ht1 := hr.tree hs
  have hkeeps : Tree k3 ∧ Past pid (va + pages * pageSize) k3 := by
    refine hrun.invariant (I := fun k => Tree k ∧ Past pid (va + pages * pageSize) k)
      ⟨ht1.step he hn, hmm.past ht1 hn⟩ ?_
    rintro e' a b hc hn' ⟨ht, hpast⟩
    exact ⟨ht.step hc.1 hn', hpast.forward (hn'.forward ht hc.1 hc.2)⟩
  exact hkeeps.2.2 _ p hp hid

end Pointer

/-! ### The calls -/

section Calls

variable {role : ℕ → Role} {k k' : Kernel} {p : Process} {tf : TrapFrame} {ret : ℤ}

theorem FreshTables.account {r va pages a : ℕ} {m m' : Machine}
    (h : FreshTables r va pages { m with account := a } m') : FreshTables r va pages m m' :=
  ⟨h.before, h.after, h.other⟩

theorem pagesOf_pos {len : ℕ} (h : len ≠ 0) : 0 < pagesOf len := by
  simp only [pagesOf, pageSize]
  omega

/-- The memory after a call whose page loop completes. -/
theorem sysMmap_fresh (hm : Memory role k) (hp : k.procs.slots k.current = some p)
    (hrun : sysMmap tf k = .ok (ret, k')) (hne : ret ≠ einval) (hne' : ret ≠ enomem) :
    ret = toIsize p.nextMmap ∧ 0 < pagesOf tf.a1 ∧
    p.nextMmap + pagesOf tf.a1 * pageSize ≤ usizeBound ∧
    (∃ role', Good role' k'.machine ∧ role' p.rootPa = .root) ∧
    FreshTables p.rootPa p.nextMmap (pagesOf tf.a1) k.machine k'.machine := by
  have hroot := hm.root _ p hp
  rcases sysMmap_ends hrun hp with ⟨-, h0, -⟩ | ⟨hlen, res, m1, hlt, hpages, hret, rfl⟩
  · exact absurd h0 hne
  cases res with
  | error u => exact absurd hret hne'
  | ok u =>
    obtain ⟨role', n, hfill, hn⟩ := (mmapPages_filled (pagesOf tf.a1) (hm.good.account p.pid) hroot
      (hm.mmap_aligned _ p hp)).ok hpages
    rw [hn rfl, List.take_length] at hfill
    exact ⟨hret, pagesOf_pos hlen, hlt.le,
      ⟨role', hfill.grows.good, (hfill.grows.root_iff p.rootPa).mpr hroot⟩,
      (hfill.freshTables hroot).account⟩

/-- A successful mmap yields fresh zeroed memory if and only if the range at the bump
pointer is canonical. -/
theorem mmap_fresh_iff (hm : Memory role k) (hp : k.procs.slots k.current = some p)
    (hrun : sysMmap tf k = .ok (ret, k')) (hne : ret ≠ einval) (hne' : ret ≠ enomem) :
    (ret = toIsize p.nextMmap ∧
      FreshMapping p.rootPa p.nextMmap (pagesOf tf.a1) k.machine k'.machine ∧
      ∀ k0 va pages, Started k0 → MmappedSince p.pid va pages k0 k →
        Disjoint (Set.Ico va (va + pages * pageSize))
          (Set.Ico p.nextMmap (p.nextMmap + pagesOf tf.a1 * pageSize))) ↔
      p.nextMmap + pagesOf tf.a1 * pageSize ≤ 2 ^ 38 ∨ usizeBound - 2 ^ 38 ≤ p.nextMmap := by
  obtain ⟨hret, hpos, hfit, ⟨role', hg', hr'⟩, hfresh⟩ := sysMmap_fresh hm hp hrun hne hne'
  have hdisjoint : ∀ k0 va pages, Started k0 → MmappedSince p.pid va pages k0 k →
      Disjoint (Set.Ico va (va + pages * pageSize))
        (Set.Ico p.nextMmap (p.nextMmap + pagesOf tf.a1 * pageSize)) := by
    intro k0 va pages hs h
    have hle := h.le hs hp rfl
    rw [Set.disjoint_left]
    intro a h1 h2
    have h3 := h1.2
    have h4 := h2.1
    omega
  rw [← hfresh.mapping_iff hm.good (hm.root _ p hp) hg' hr' (hm.mmap_aligned _ p hp) hpos hfit]
  exact ⟨fun h => h.2.1, fun h => ⟨hret, h, hdisjoint⟩⟩

/-- What a call leaves as it was: the translations of the caller, its pointer and the
set of free frames. -/
structure MmapUndone (p : Process) (k k' : Kernel) : Prop where
  translations : ∀ va, translation k'.machine p.rootPa va = translation k.machine p.rootPa va
  pointer : ∀ p', k'.procs.slots k.current = some p' → p'.nextMmap = p.nextMmap
  frames : ∀ q, k'.machine.Held q ↔ k.machine.Held q

/-- A failed mmap changes nothing only where none fails: the length is zero, or the
frames suffice, no page of the range is mapped and the address reads as positive. -/
theorem mmap_undone_iff (hm : Memory role k) (hp : k.procs.slots k.current = some p)
    (hrun : sysMmap tf k = .ok (ret, k')) :
    (ret < 0 → MmapUndone p k k') ↔ tf.a1 = 0 ∨ p.nextMmap < 2 ^ 63 ∧
      ∃ left, (k.machine.view p.rootPa).plan k.machine.pages.freeFrames
        (rangeVas p.nextMmap (pagesOf tf.a1)) = .enough left := by
  rcases sysMmap_ends hrun hp with ⟨h0, -, rfl⟩ | ⟨h0, res, m1, hlt, hpages, hret, rfl⟩
  · refine ⟨fun _ => Or.inl h0, fun _ _ => ⟨fun _ => rfl, fun p' hp' => ?_, fun _ => Iff.rfl⟩⟩
    rw [Option.some.inj (hp.symm.trans hp')]
  have hmoved : ¬ MmapUndone p k { k.setSlot k.current
      (some { p with nextMmap := p.nextMmap + pagesOf tf.a1 * pageSize }) with machine := m1 } := by
    intro hu
    have := hu.pointer _ (if_pos rfl)
    have hpos := pagesOf_pos h0
    simp only [pageSize] at this
    omega
  obtain ⟨role', hran⟩ := (mmapPages_ran (pagesOf tf.a1) (hm.good.account p.pid) (hm.root _ p hp)
    (hm.mmap_aligned _ p hp)).ok hpages
  cases res with
  | error u =>
    refine ⟨fun h => absurd (h ?_) hmoved, fun h => ?_⟩
    · rw [hret]
      exact (by decide : enomem < 0)
    · rcases h with h | ⟨-, left, hplan⟩
      · exact absurd h h0
      · exact absurd hplan (hran.not_enough left)
  | ok u =>
    have hplan := hran.enough.1
    simp only [toIsize] at hret
    by_cases hhigh : p.nextMmap < 2 ^ 63
    · rw [if_pos hhigh] at hret
      exact ⟨fun _ => Or.inr ⟨hhigh, _, hplan⟩, fun _ hneg => absurd hneg (by omega)⟩
    · rw [if_neg hhigh] at hret
      simp only [usizeBound] at hlt
      refine ⟨fun h => absurd (h (by omega)) hmoved, fun h => ?_⟩
      rcases h with h | h
      · exact absurd h h0
      · exact absurd h.1 hhigh

/-- A call with a length always returns, unless the pointer overflows. -/
theorem sysMmap_returns (hm : Memory role k) (hp : k.procs.slots k.current = some p)
    (hcur : k.current < maxProcs) (h0 : tf.a1 ≠ 0)
    (hlt : p.nextMmap + pagesOf tf.a1 * pageSize < usizeBound) :
    ∃ ret k', sysMmap tf k = .ok (ret, k') := by
  obtain ⟨res, m1, hpages, -⟩ := (mmapPages_ran (pagesOf tf.a1) (hm.good.account p.pid)
    (hm.root _ p hp) (hm.mmap_aligned _ p hp)).returns
  obtain ⟨r, hend⟩ : ∃ r, ((match res with
      | .ok _ => return toIsize p.nextMmap
      | .error _ => return enomem) : KernelM ℤ) { k.setSlot k.current
        (some { p with nextMmap := p.nextMmap + pagesOf tf.a1 * pageSize }) with machine := m1 } =
          .ok r := by
    cases res with
    | ok u => exact ⟨_, rfl⟩
    | error u => exact ⟨_, rfl⟩
  refine ⟨r.1, r.2, ?_⟩
  unfold sysMmap
  dsimp only
  rw [if_neg h0, Prog.get_bind_ok, procAt_bind]
  refine ⟨p, hcur, hp, Prog.bind_ok.mpr ⟨pagesOf tf.a1 * pageSize, k, ?_, ?_⟩⟩
  · exact Prog.ofExcept_ok.mpr ⟨checkedMul_ok.mpr ⟨by omega, rfl⟩, rfl⟩
  refine Prog.bind_ok.mpr ⟨_, k, Prog.ofExcept_ok.mpr ⟨checkedAdd_ok.mpr ⟨hlt, rfl⟩, rfl⟩, ?_⟩
  rw [setProc_bind]
  exact Prog.bind_ok.mpr ⟨res, _, onMachineFor_ok.mpr ⟨m1, hpages, rfl⟩, hend⟩

/-- One page at a free address, with frames for it. -/
theorem sysMmap_page (hm : Memory role k) (hp : k.procs.slots k.current = some p)
    (hcur : k.current < maxProcs) (ha : tf.a1 = 1) (hfree : 3 ≤ k.machine.pages.freeFrames)
    (hnone : translation k.machine p.rootPa p.nextMmap = none)
    (hlow : p.nextMmap + pageSize < usizeBound) :
    ∃ m1, sysMmap tf k = .ok (toIsize p.nextMmap, { k.setSlot k.current
        (some { p with nextMmap := p.nextMmap + pageSize }) with machine := m1 }) ∧
      k.machine.pages.freeFrames ≤ m1.pages.freeFrames + 3 := by
  have hpages1 : pagesOf tf.a1 = 1 := by rw [ha]; rfl
  obtain ⟨ret, k', hrun⟩ := sysMmap_returns hm hp hcur (ha ▸ Nat.one_ne_zero)
    (by rw [hpages1, Nat.one_mul]; exact hlow)
  have hroot := hm.root _ p hp
  rcases sysMmap_ends hrun hp with ⟨h0, -, -⟩ | ⟨-, res, m1, -, hpages, hret, hk'⟩
  · exact absurd (ha.symm.trans h0) Nat.one_ne_zero
  obtain ⟨role', hran⟩ := (mmapPages_ran (pagesOf tf.a1) (hm.good.account p.pid) hroot
    (hm.mmap_aligned _ p hp)).ok hpages
  rw [hpages1] at hran hk'
  have hsees := hm.good.sees (Or.inl hroot)
  have hpage : (k.machine.view p.rootPa).page p.nextMmap = false := by
    by_contra hc
    have hhas := (hsees.page p.nextMmap).mp (by simpa using hc)
    exact (hm.good.hasPage_iff (Or.inl hroot)).mp hhas hnone
  have hneed : (k.machine.view p.rootPa).need p.nextMmap ≤ 3 := by
    unfold Present.need
    split_ifs <;> omega
  have hplan : (k.machine.view p.rootPa).plan k.machine.pages.freeFrames [p.nextMmap + 0 * pageSize] =
      .enough (k.machine.pages.freeFrames - (k.machine.view p.rootPa).need p.nextMmap) := by
    rw [Nat.zero_mul, Nat.add_zero, Present.plan, if_neg (by omega), if_neg, Present.plan]
    rw [hpage, Bool.false_or, decide_eq_true_eq]
    omega
  cases res with
  | error u => exact absurd hplan (hran.not_enough _)
  | ok u =>
    have hleft := hran.enough.1
    change (k.machine.view p.rootPa).plan k.machine.pages.freeFrames [p.nextMmap + 0 * pageSize] = _
      at hleft
    rw [hplan, Outcome.enough.injEq] at hleft
    refine ⟨m1, ?_, by omega⟩
    rw [hrun, hret, hk', Nat.one_mul]

/-- Apart from the pages of its program and its stack the first process has nothing
mapped. -/
theorem FirstRunAt.unmapped {base va : ℕ} (h : FirstRunAt base k p) (hva : vpn va 2 = userRootSlot)
    (hne : ∀ b ∈ onePageVas base, ¬ SamePage (userVa (vpn va 1) (vpn va 0)) b) :
    translation k.machine p.rootPa va = none := by
  obtain ⟨role, hm⟩ := h.reached.memory
  have hr := hm.root _ p h.slot
  by_contra hc
  have hpage := (hm.good.hasPage_iff (Or.inl hr)).mpr hc
  obtain ⟨b, hb, hs⟩ := h.pages_of _ (hpage.mem_userPages hm.good.tables hva)
  exact hne b hb hs

/-- The page loop stops at once if the first page is mapped already, and only the frames
for that page are lost. -/
theorem mmapPages_stuck {r va n : ℕ} {m m' : Machine} {res : Except Unit Unit} (hg : Good role m)
    (hr : role r = .root) (hva : va % pageSize = 0) (hthere : translation m r va ≠ none)
    (hrun : mmapPages r va (n + 1) m = .ok (res, m')) :
    res.isOk = false ∧ m.pages.freeFrames ≤ m'.pages.freeFrames + 3 ∧
      ∀ a, translation m' r a = translation m r a := by
  obtain ⟨res1, m1, hone, role1, hran⟩ := (mmapPages_ran 1 hg hr hva).returns
  obtain ⟨role2, i, hfill, hi⟩ := (mmapPages_filled 1 hg hr hva).ok hone
  have hfirst : zeroPage va ∈ zeroPages va 1 := by simp [zeroPages]
  -- the page is not among those that are new
  have hnone : i = 0 := by
    by_contra hc
    rw [List.take_of_length_le (by simp [zeroPages]; omega)] at hfill
    have hnew : translation m r va = none := hfill.before (zeroPage va) hfirst
    exact hthere hnew
  subst hnone
  rw [List.take_zero] at hfill
  cases res1 with
  | ok u =>
    have := hi rfl
    simp [zeroPages] at this
  | error u =>
    have hlong : mmapPages r va (n + 1) m = .ok (.error u, m1) := by
      unfold mmapPages at hone ⊢
      rw [List.range_succ_eq_map]
      exact Prog.tryEach_append_error (l := [0]) hone
    obtain ⟨rfl, rfl⟩ := Prod.mk.inj (Except.ok.inj (hlong.symm.trans hrun))
    exact ⟨rfl, hran.pages.cost, fun a => hfill.other a fun b hb => absurd hb List.not_mem_nil⟩

/-- A process fails to map anything in a step, and its pointer moves. -/
theorem Reached.mmap_stuck {t : UserTrap} {io : Io} {n : ℕ} (h : Reached k) (hc : Calls t io .mmap)
    (hp : k.procs.slots k.current = some p) (hcur : k.current < maxProcs)
    (h0 : t.arg 11 ≠ 0) (hn : pagesOf (t.arg 11) = n + 1)
    (hthere : translation k.machine p.rootPa p.nextMmap ≠ none)
    (hlow : p.nextMmap + (n + 1) * pageSize < usizeBound) :
    ∃ k', Reached k' ∧ k'.current = k.current ∧
      k'.procs.slots k.current = some { p with nextMmap := p.nextMmap + (n + 1) * pageSize } ∧
      k.machine.pages.freeFrames ≤ k'.machine.pages.freeFrames + 3 ∧
      ∀ a, translation k'.machine p.rootPa a = translation k.machine p.rootPa a := by
  obtain ⟨role, hm⟩ := h.memory
  have hms : Memory role (trapState t k) := hm.congr rfl rfl rfl
  have ha : ((trapState t k).frames k.current).a1 = t.arg 11 := by
    rw [TrapFrame.a1, trapState_frame, trapFrame_reg hc.cause _ (by decide)]
  have hlen : ((trapState t k).frames k.current).a1 ≠ 0 := by rw [ha]; exact h0
  obtain ⟨ret, k1, hrun⟩ := sysMmap_returns hms hp hcur hlen (by rw [ha, hn]; exact hlow)
  rcases sysMmap_ends hrun hp with ⟨hz, -, -⟩ | ⟨-, res, m1, -, hpages, hret, rfl⟩
  · exact absurd (ha.symm.trans hz) h0
  rw [ha, hn] at hpages
  obtain ⟨-, hcost, hsame⟩ := mmapPages_stuck (hm.good.account p.pid) (hm.root _ p hp)
    (hm.mmap_aligned _ p hp) hthere hpages
  have hnext := Next.of_answered hc hcur (Prog.map_ok.mpr ⟨_, _, hrun, rfl⟩) rfl (if_pos rfl)
  refine ⟨_, h.call hc (by simp) hnext, rfl, ?_, hcost, hsame⟩
  rw [← hn, ← ha]
  exact if_pos rfl

/-- mmap of one page. -/
def mmapTrap : UserTrap := callTrap 222 0 1 0

theorem mmapTrap_calls : Calls mmapTrap noIo .mmap := ⟨rfl, rfl, show 0 + 4 < usizeBound by decide⟩

theorem mmapTrap_length {k : Kernel} : ((trapState mmapTrap k).frames k.current).a1 = 1 := by
  rw [TrapFrame.a1, trapState_frame, trapFrame_reg mmapTrap_calls.cause _ (by decide)]
  rfl

/-- A process maps one page in a step. -/
theorem Reached.mmap_page (h : Reached k) (hp : k.procs.slots k.current = some p)
    (hcur : k.current < maxProcs) (hfree : 3 ≤ k.machine.pages.freeFrames)
    (hnone : translation k.machine p.rootPa p.nextMmap = none)
    (hlow : p.nextMmap + pageSize < usizeBound) :
    ∃ k', Next (.trap mmapTrap) k k' ∧ Reached k' ∧ Mmaps p.pid p.nextMmap 1 (.trap mmapTrap) k ∧
      k'.current = k.current ∧
      k'.procs.slots k.current = some { p with nextMmap := p.nextMmap + pageSize } ∧
      k.machine.pages.freeFrames ≤ k'.machine.pages.freeFrames + 3 ∧
      FreshTables p.rootPa p.nextMmap 1 k.machine k'.machine := by
  obtain ⟨role, hm⟩ := h.memory
  have hms : Memory role (trapState mmapTrap k) := hm.congr rfl rfl rfl
  obtain ⟨m1, hrun, hleft⟩ := sysMmap_page (k := trapState mmapTrap k) hms hp hcur mmapTrap_length
    hfree hnone hlow
  obtain ⟨hne, hne'⟩ := toIsize_ne_error (hm.mmap_aligned _ p hp)
  obtain ⟨-, -, -, -, hfresh⟩ := sysMmap_fresh hms hp hrun hne hne'
  rw [mmapTrap_length] at hfresh
  have hn := Next.of_answered mmapTrap_calls hcur (Prog.map_ok.mpr ⟨_, _, hrun, rfl⟩) rfl
    (if_pos rfl)
  refine ⟨_, hn, h.call mmapTrap_calls (by simp) hn, ?_, rfl, if_pos rfl, hleft, hfresh⟩
  exact ⟨mmapTrap, noIo, p, _, ⟨rfl, rfl, rfl⟩, hp, rfl, rfl, rfl, hrun⟩

/-- The first process maps a page, and then another one. -/
theorem mmap_fresh_iff_second : ∃ (k0 k k' : Kernel) (p : Process) (tf : TrapFrame), Started k0 ∧
    MmappedSince p.pid 0x50000000 1 k0 k ∧ sysMmap tf k = .ok (0x50001000, k') ∧
    FreshMapping p.rootPa 0x50001000 1 k.machine k'.machine ∧
    Disjoint (Set.Ico 0x50000000 0x50001000) (Set.Ico 0x50001000 0x50002000) := by
  obtain ⟨k, p, h⟩ := exists_firstRun
  have hcur : k.current = 0 := h.shows_.current
  have hp : k.procs.slots k.current = some p := hcur ▸ h.slot
  have hlt : k.current < maxProcs := by rw [hcur]; decide
  have hfree := h.room.free
  have hbase : translation k.machine p.rootPa 0x50000000 = none :=
    h.unmapped (by decide) (by decide)
  obtain ⟨k1, hn, hr1, hmm, hcur1, hp1, hfree1, hfresh1⟩ :=
    h.reached.mmap_page hp hlt (by omega) (h.mmap ▸ hbase) (h.mmap ▸ by decide)
  rw [h.mmap] at hmm hp1 hfresh1
  -- the second page was free at first and the first call left it alone
  have hnext : translation k1.machine p.rootPa 0x50001000 = none := by
    rw [hfresh1.other 0x50001000]
    · exact h.unmapped (by decide) (by decide)
    · intro i hi
      obtain rfl : i = 0 := by omega
      decide
  obtain ⟨p1, hp1', hroot1, hpid1, hmmap1⟩ : ∃ p1, k1.procs.slots k1.current = some p1 ∧
      p1.rootPa = p.rootPa ∧ p1.pid = p.pid ∧ p1.nextMmap = 0x50001000 :=
    ⟨{ p with nextMmap := mmapBase + pageSize }, hcur1 ▸ hp1, rfl, rfl, rfl⟩
  obtain ⟨role1, hm1⟩ := hr1.memory
  have hms : Memory role1 (trapState mmapTrap k1) := hm1.congr rfl rfl rfl
  obtain ⟨m2, hrun, -⟩ := sysMmap_page (k := trapState mmapTrap k1) hms hp1' (hcur1 ▸ hlt)
    (mmapTrap_length (k := k1)) (by change 3 ≤ k1.machine.pages.freeFrames; omega)
    (by rw [hroot1, hmmap1]; exact hnext) (by rw [hmmap1]; decide)
  rw [hmmap1] at hrun
  obtain ⟨-, hfresh, hdis⟩ := (mmap_fresh_iff hms hp1' hrun (by decide) (by decide)).mpr
    (.inl (by rw [mmapTrap_length, hmmap1]; decide))
  rw [mmapTrap_length, hmmap1] at hfresh hdis
  obtain ⟨k0, hs, hreach⟩ := h.reached
  have hsince : MmappedSince p1.pid 0x50000000 1 k0 (trapState mmapTrap k1) := by
    rw [hpid1]
    exact ⟨.trap mmapTrap, k, k1, k1, mmapTrap, hreach.mono fun _ _ h => h.1, trivial, hmm, hn,
      .refl _, rfl⟩
  exact ⟨k0, _, _, p1, _, hs, hsince, hrun, hfresh, hdis k0 _ 1 hs hsince⟩

/-- An endless loop, linked where the anonymous mappings of a process start. -/
def mmapImage : List UInt8 :=
  [0x7f, 0x45, 0x4c, 0x46, 2, 1, 1, 0, 0, 0, 0, 0, 0, 0, 0, 0,
   2, 0, 0xf3, 0, 1, 0, 0, 0, 0, 0, 0, 0x50, 0, 0, 0, 0,
   64, 0, 0, 0, 0, 0, 0, 0, 0, 0, 0, 0, 0, 0, 0, 0,
   0, 0, 0, 0, 64, 0, 56, 0, 1, 0, 0, 0, 0, 0, 0, 0,
   1, 0, 0, 0, 5, 0, 0, 0, 120, 0, 0, 0, 0, 0, 0, 0,
   0, 0, 0, 0x50, 0, 0, 0, 0, 0, 0, 0, 0x50, 0, 0, 0, 0,
   4, 0, 0, 0, 0, 0, 0, 0, 4, 0, 0, 0, 0, 0, 0, 0,
   0, 16, 0, 0, 0, 0, 0, 0, 0x6f, 0, 0, 0]

set_option maxRecDepth 4000 in
theorem mmapImage_onePage : OnePage mmapImage 0x50000000 0x50000000 :=
  ⟨⟨64, 56, ⟨5, 120, 0x50000000, 4, 4⟩, by rfl, by rfl, by rfl, by rfl⟩, by decide, by decide,
    by decide⟩

/-- The frame of a call with this length in a1. -/
def lengthFrame (len : UInt64) : TrapFrame := { TrapFrame.zeroed with regs := fun _ => len }

/-- The first process gets a page, as there are frames for it. -/
theorem mmap_undone_first : ∃ (k k' : Kernel) (p : Process) (left : ℕ),
    sysMmap (lengthFrame 1) k = .ok (0x50000000, k') ∧
    (k.machine.view p.rootPa).plan k.machine.pages.freeFrames (rangeVas p.nextMmap 1) =
      .enough left := by
  obtain ⟨k, p, h⟩ := exists_firstRun
  have hcur : k.current = 0 := h.shows_.current
  have hp : k.procs.slots k.current = some p := hcur ▸ h.slot
  have hfree := h.room.free
  have hbase : translation k.machine p.rootPa 0x50000000 = none :=
    h.unmapped (by decide) (by decide)
  obtain ⟨role, hm⟩ := h.reached.memory
  have hlen : (lengthFrame 1).a1 = 1 := rfl
  obtain ⟨m1, hrun, -⟩ := sysMmap_page hm hp (by rw [hcur]; decide) hlen (by omega)
    (h.mmap ▸ hbase) (by rw [h.mmap]; decide)
  rw [h.mmap] at hrun
  rcases (mmap_undone_iff hm hp hrun).mp (fun hneg => absurd hneg (by decide)) with h0 | ⟨-, left, hl⟩
  · exact absurd (hlen.symm.trans h0) Nat.one_ne_zero
  · exact ⟨k, _, p, left, hrun, hl⟩

/-- A call for more pages than there are addresses fails and moves the pointer. -/
theorem mmap_pointer_moved : ∃ (k k' : Kernel) (p : Process) (ret : ℤ), Reached k ∧
    k.procs.slots k.current = some p ∧ sysMmap (lengthFrame 0x10000000000) k = .ok (ret, k') ∧
    ret < 0 ∧ ¬ MmapUndone p k k' := by
  obtain ⟨k, p, h⟩ := exists_firstRun
  have hcur : k.current = 0 := h.shows_.current
  have hp : k.procs.slots k.current = some p := hcur ▸ h.slot
  obtain ⟨role, hm⟩ := h.reached.memory
  have hlen : (lengthFrame 0x10000000000).a1 = 2 ^ 40 := rfl
  have hpages : pagesOf (2 ^ 40) = 2 ^ 28 := by decide
  obtain ⟨ret, k', hrun⟩ : ∃ ret k', sysMmap (lengthFrame 0x10000000000) k = .ok (ret, k') :=
    sysMmap_returns hm hp (by rw [hcur]; decide) (by rw [hlen]; decide)
      (by rw [hlen, hpages, h.mmap]; decide)
  rcases sysMmap_ends hrun hp with ⟨h0, -, -⟩ | ⟨-, res, m1, -, hloop, hret, rfl⟩
  · rw [hlen] at h0
    exact absurd h0 (by decide)
  rw [hlen, hpages] at hloop
  cases res with
  | error u =>
    refine ⟨k, _, p, ret, h.reached, hp, hrun, ?_, fun hu => ?_⟩
    · rw [hret]
      exact (by decide : enomem < 0)
    · have := hu.pointer _ (if_pos rfl)
      rw [hlen, hpages] at this
      simp only [pageSize] at this
      omega
  | ok u =>
    obtain ⟨role', n, hfill, hn⟩ := (mmapPages_filled (2 ^ 28) (hm.good.account p.pid)
      (hm.root _ p hp) (hm.mmap_aligned _ p hp)).ok hloop
    rw [hn rfl, List.take_length] at hfill
    -- a page and the one 2 ^ 39 bytes after it have the same entry
    have hapart := hfill.zeroPages_apart (i := 0) (j := 2 ^ 27) (by decide) (by decide)
    rw [h.mmap] at hapart
    exact absurd (by decide) hapart

/-- A call for 2^40 bytes and a page fails and moves the pointer past 2^38; the next call
returns an address that nobody can use, and a page that was free below is gone. -/
theorem mmap_fresh_high : ∃ (k k' : Kernel) (p : Process), Reached k ∧
    k.procs.slots k.current = some p ∧ sysMmap (lengthFrame 1) k = .ok (0x10050001000, k') ∧
    hardware k'.machine p.rootPa 0x10050001000 = none ∧
    hardware k.machine p.rootPa 0x50001000 = none ∧
    hardware k'.machine p.rootPa 0x50001000 ≠ none ∧
    ¬ FreshMapping p.rootPa 0x10050001000 1 k.machine k'.machine := by
  obtain ⟨k, p, h⟩ := exists_firstRunAt mmapImage_onePage
  have hcur : k.current = 0 := h.shows_.current
  have hp : k.procs.slots k.current = some p := hcur ▸ h.slot
  have hlt : k.current < maxProcs := by rw [hcur]; decide
  have hfree := h.room.free
  obtain ⟨role, hm⟩ := h.reached.memory
  have hr := hm.root _ p hp
  -- the page of the program is where the first mapping would go
  have hthere : translation k.machine p.rootPa 0x50000000 ≠ none := by
    have hpage := userPages_hasPage hm.good.tables hr h.own_page
    exact (hm.good.hasPage_iff (Or.inl hr)).mp hpage
  have hnone : translation k.machine p.rootPa 0x50001000 = none :=
    h.unmapped (by decide) (by decide)
  obtain ⟨k1, hr1, hcur1, hp1, hfree1, hsame⟩ := h.reached.mmap_stuck
    (callTrap_calls 222 0 0x10000001000 0 rfl) hp hlt (n := 2 ^ 28) (by decide) (by decide)
    (h.mmap ▸ hthere) (by rw [h.mmap]; decide)
  obtain ⟨p1, hp1', hroot1, hmmap1⟩ : ∃ p1, k1.procs.slots k1.current = some p1 ∧
      p1.rootPa = p.rootPa ∧ p1.nextMmap = 0x10050001000 :=
    ⟨{ p with nextMmap := p.nextMmap + (2 ^ 28 + 1) * pageSize }, hcur1 ▸ hp1, rfl,
      by rw [h.mmap]; exact (show mmapBase + (2 ^ 28 + 1) * pageSize = 0x10050001000 by decide)⟩
  obtain ⟨role1, hm1⟩ := hr1.memory
  have halias : SamePage 0x10050001000 0x50001000 := by decide
  have hlow : Canonical 0x50001000 := by decide
  have hone : (lengthFrame 1).a1 = 1 := rfl
  obtain ⟨m2, hrun, -⟩ := sysMmap_page hm1 hp1' (hcur1 ▸ hlt) hone (by omega)
    (by rw [hroot1, hmmap1, halias.translation, hsame]; exact hnone) (by rw [hmmap1]; decide)
  rw [hmmap1] at hrun
  obtain ⟨-, -, -, ⟨role2, hg2, hr2⟩, hfresh⟩ := sysMmap_fresh hm1 hp1' hrun (by decide) (by decide)
  rw [hmmap1, hone, show pagesOf 1 = 1 from rfl] at hfresh
  have hgap : ¬ Canonical 0x10050001000 := by decide
  refine ⟨k1, _, p1, hr1, hp1', hrun, hardware_gap hgap, ?_, ?_, fun hf => ?_⟩
  · rw [hm1.good.hardware_eq (hm1.root _ p1 hp1') hlow, hroot1, hsame]
    exact hnone
  · obtain ⟨frame, hframe, -⟩ := hfresh.after
    have hnew := hframe 0 (by decide)
    rw [Nat.zero_mul, Nat.add_zero, halias.translation] at hnew
    rw [hg2.hardware_eq hr2 hlow, hnew]
    simp
  · obtain ⟨frame, hframe, -⟩ := hf.after
    have hnew := hframe 0 (by decide)
    rw [Nat.zero_mul, Nat.add_zero, hardware_gap hgap] at hnew
    cases hnew

end Calls

end LightOS
