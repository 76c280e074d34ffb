import LightOS.Asking
import LightOS.Descriptors
import LightOS.Fairness

/-!
# The active address space is never recycled

While the kernel runs, `satp` still points at the root of the process that trapped,
or of one that has exited since. Exec and exit return frames of that very tree to the
allocator. What keeps the hart safe is that nothing is allocated between such a return
and the next switch of `satp`: every allocation on record, of every step of every run,
found all page tables reachable from `satp` in use.
-/
namespace LightOS
open Lib PageAllocator

/-- The events in which the kernel may ask for frames. -/
def Event.asks (e : Event) : Prop :=
  (∃ t io no, Call e t io no ∧ (no = .mmap ∨ no = .clone ∨ no = .execve)) ∨ e.isHeapGrow

section Steps

variable {e : Event} {role : ℕ → Role} {k0 k k' : Kernel} {p : Process} {s : ℕ}

theorem Exit.asks {code : ℤ} {m1 : Machine} (h : Exit code p m1 k k') (hm : Memory role k) :
    k'.machine.asks = k.machine.asks := by
  obtain ⟨role', hs, -⟩ := hm.exit h
  rw [h.state]
  exact hs.asks

theorem Reap.asks {par child : ℕ} {c : Process} {m1 m2 : Machine}
    (h : Reap par child c p m1 m2 k k') (hm : Memory role k) :
    k'.machine.asks = k.machine.asks := by
  obtain ⟨hdata, hrel, -⟩ := hm.reap h
  rw [h.state]
  exact hrel.freed.asks.trans hdata.asks

/-- All other moves hand out no frame. -/
theorem Move.asks (h : Move e k0 k k') (hm : Memory role k) (hw : e.unmapsWindow)
    (ho : e.ordinary) (hno : ¬ e.asks) : k'.machine.asks = k.machine.asks := by
  have hcall : ∀ {t io no}, Call e t io no → no = .mmap ∨ no = .clone ∨ no = .execve → False :=
    fun hc hor => hno (.inl ⟨_, _, _, hc, hor⟩)
  cases h with
  | quiet hq => rw [hq.machine]
  | trap _ _ => rfl
  | store _ _ _ => rfl
  | @memory _ p m' _ hp hop =>
    change m'.asks = _
    generalize hkm : k.machine = m at hop
    cases hop with
    | copyOut hc =>
      rw [← hkm] at hc ⊢
      exact (hm.copyOut_effect hp hc).asks
    | mmap hc _ _ _ _ _ => exact (hcall hc (by simp)).elim
    | munmap hc hva hlen hu =>
      rw [← hkm] at hu ⊢
      obtain ⟨h1, h2⟩ := hw _ _ hc hva hlen
      have hroot := hm.root _ p hp
      obtain ⟨role', hs⟩ := hm.munmap_effect hp
        (fun a ha => ownLeaf_of_window hm.good.tables hroot (rangeVas_window h1 h2 ha)) hu
      exact hs.asks
    | forkNone hc _ => exact (hcall hc (by simp)).elim
    | forkUndo hc _ _ _ _ => exact (hcall hc (by simp)).elim
    | execFail hc _ _ _ => exact (hcall hc (by simp)).elim
  | result _ _ _ => rfl
  | resume _ => rfl
  | own _ _ _ => rfl
  | socket _ _ _ => rfl
  | close _ _ _ _ _ => rfl
  | fork hc _ _ _ _ _ => exact (hcall hc (by simp)).elim
  | exec hc _ _ _ _ _ _ => exact (hcall hc (by simp)).elim
  | exit _ _ hx _ => exact hx.asks hm
  | exitReap _ _ hx _ hr =>
    obtain ⟨role', -, hm1⟩ := hm.exit hx
    exact (hr.asks hm1).trans (hx.asks hm)
  | @waitReap t io p c q child m1 m2 k1 _ hp _ hr =>
    have hs : Memory role ((trapState t k0).setSlot k0.current (some (asleep p (t.arg 11)))) :=
      hm.setSlot hp rfl rfl (fun h => h) rfl rfl
    exact hr.asks hs
  | waitBlock _ _ _ => rfl
  | waitNone _ _ _ => rfl
  | block _ _ _ => rfl
  | yield _ _ _ => rfl
  | wake _ hp _ hcopy => exact (hm.copyOut_effect hp hcopy).asks
  | schedule _ _ _ => rfl
  | heapGrow he _ => exact (hno (.inr (by rw [he]; trivial))).elim
  | spawnFail he _ _ _ => exact absurd he ho.ne_spawn
  | spawn he _ _ _ _ _ => exact absurd he ho.ne_spawn

/-- Every step asks for frames only while the tables of `s` are in use. -/
theorem Next.asks (hn : Next e k k') (hm : Memory role k) (hs : Rooted role s)
    (hw : e.unmapsWindow) (ho : e.ordinary) : KernelAllocsUnder s (step e) k := by
  by_cases hask : e.asks
  · rcases hask with ⟨t, io, no, hc, hno⟩ | hgrow
    · obtain rfl := hc.event
      have hm1 : Memory role (trapState t k) := hm.congr rfl rfl rfl
      refine step_asks hc.cause hc.nr fun tf => ?_
      rcases hno with rfl | rfl | rfl
      · exact .map _ (sysMmap_asks hm1 hs)
      · exact .map _ (forkCurrent_asks hm1 hs)
      · exact .map _ (sysExecve_asks hm1 hs)
    · cases e with
      | heapGrow size align => exact .get_bind (heapGrow_asks hm hs)
      | idle i => exact hgrow.elim
      | store va b => exact hgrow.elim
      | trap t => exact hgrow.elim
      | spawn disk name => exact hgrow.elim
  · refine .none hn ?_
    have hkeep : (∃ role, Memory role k') ∧ k'.machine.asks = k.machine.asks := by
      refine hn.keeps (I := fun a => (∃ role, Memory role a) ∧
        a.machine.asks = k.machine.asks) ⟨⟨role, hm⟩, rfl⟩ ?_
      rintro a b ⟨⟨role', hma⟩, hcount⟩ hmove
      exact ⟨hma.move hw hm.mmap_aligned hmove,
        (hmove.asks hma hw ho hask).trans hcount⟩
    exact hkeep.2

end Steps

/-! ### Where `satp` points -/

/-- The kernel and the root table that `satp` designates. -/
structure Hart where
  kernel : Kernel
  satp : ℕ

/-- `__user_ret` writes `satp` on every way back to user mode, and only there; an idle hart
keeps the old value. -/
def satpAfter (k : Kernel) (s : ℕ) : ℕ :=
  if k.current = noProc then s else (k.procs.slots k.current).elim s (·.rootPa)

/-- One step of the hart. -/
def Hart.Step (e : Event) (h h' : Hart) : Prop :=
  Next e h.kernel h'.kernel ∧ h'.satp = satpAfter h'.kernel h.satp

/-- What `satp` designates is the root of a process, dead or alive, or of the kernel; in user
mode it is the root of the running process. -/
structure Active (k : Kernel) (s : ℕ) : Prop where
  running : k.current ≠ noProc → ∃ p, k.procs.slots k.current = some p ∧ p.rootPa = s
  owned : s = k.machine.kernelRootPa ∨ ∃ i p, k.procs.slots i = some p ∧ p.rootPa = s

theorem Active.rooted {role : ℕ → Role} {k : Kernel} {s : ℕ} (h : Active k s)
    (hm : Memory role k) : Rooted role s := by
  rcases h.owned with rfl | ⟨i, p, hp, rfl⟩
  · exact .inr ((hm.good.tables.kroot _).mpr rfl)
  · exact .inl (hm.root i p hp)

/-- All roots stay where they are. -/
structure KeepsRoots (k k' : Kernel) : Prop where
  slot : ∀ i p, k.procs.slots i = some p → ∃ q, k'.procs.slots i = some q ∧ q.rootPa = p.rootPa
  kernel : k'.machine.kernelRootPa = k.machine.kernelRootPa

namespace KeepsRoots

variable {k k' k'' : Kernel} {s : ℕ}

theorem refl (k : Kernel) : KeepsRoots k k := ⟨fun _ p hp => ⟨p, hp, rfl⟩, rfl⟩

theorem trans (h : KeepsRoots k k') (h' : KeepsRoots k' k'') : KeepsRoots k k'' := by
  refine ⟨fun i p hp => ?_, h'.kernel.trans h.kernel⟩
  obtain ⟨q, hq, he⟩ := h.slot i p hp
  obtain ⟨q', hq', he'⟩ := h'.slot i q hq
  exact ⟨q', hq', he'.trans he⟩

theorem congr (hp : k'.procs.slots = k.procs.slots)
    (hr : k'.machine.kernelRootPa = k.machine.kernelRootPa) : KeepsRoots k k' :=
  ⟨fun i p h => ⟨p, by rw [hp]; exact h, rfl⟩, hr⟩

theorem setSlot {i : ℕ} {p p' : Process} (hp : k.procs.slots i = some p)
    (hslots : k'.procs.slots = (k.setSlot i (some p')).procs.slots) (hroot : p'.rootPa = p.rootPa)
    (hr : k'.machine.kernelRootPa = k.machine.kernelRootPa) : KeepsRoots k k' := by
  refine ⟨fun j q hq => ?_, hr⟩
  rw [hslots, Kernel.setSlot_slots]
  split_ifs with hj
  · subst hj
    obtain rfl := Option.some.inj (hp.symm.trans hq)
    exact ⟨p', rfl, hroot⟩
  · exact ⟨q, hq, rfl⟩

theorem newSlot {i : ℕ} {p' : Process} (hi : k.procs.slots i = none)
    (hslots : k'.procs.slots = (k.setSlot i (some p')).procs.slots)
    (hr : k'.machine.kernelRootPa = k.machine.kernelRootPa) : KeepsRoots k k' := by
  refine ⟨fun j q hq => ?_, hr⟩
  rw [hslots, Kernel.setSlot_slots]
  split_ifs with hj
  · subst hj
    simp [hi] at hq
  · exact ⟨q, hq, rfl⟩

theorem owned (h : KeepsRoots k k')
    (ho : s = k.machine.kernelRootPa ∨ ∃ i p, k.procs.slots i = some p ∧ p.rootPa = s) :
    s = k'.machine.kernelRootPa ∨ ∃ i p, k'.procs.slots i = some p ∧ p.rootPa = s := by
  rcases ho with rfl | ⟨i, p, hp, rfl⟩
  · exact .inl h.kernel.symm
  · obtain ⟨q, hq, he⟩ := h.slot i p hp
    exact .inr ⟨i, q, hq, he⟩

end KeepsRoots

section Roots

variable {e : Event} {role : ℕ → Role} {k0 k k' : Kernel} {p : Process} {s : ℕ}

/-- The memory operations of a system call leave the kernel root in place. -/
theorem MemOp.kernelRootPa {m' : Machine} (h : MemOp e k0 p k.machine m') (hm : Memory role k)
    (hp : k.procs.slots k.current = some p) (hw : e.unmapsWindow)
    (ha : ∀ i p, k0.procs.slots i = some p → p.nextMmap % pageSize = 0) :
    m'.kernelRootPa = k.machine.kernelRootPa := by
  have hroot := hm.root _ p hp
  generalize hkm : k.machine = m at h
  cases h with
  | copyOut hc =>
    rw [← hkm] at hc ⊢
    exact (hm.copyOut_effect hp hc).kernelRootPa
  | @mmap t io p0 _ res hc hlen hp0 hr hend h =>
    rw [← hkm, ← hr] at h
    obtain ⟨role', hn⟩ := (mmapPages_spec _ (hm.good.account p0.pid) hroot (ha _ p0 hp0)).ok h
    rw [← hkm]
    exact hn.grows.kernelRootPa
  | munmap hc hva hlen hu =>
    rw [← hkm] at hu ⊢
    obtain ⟨h1, h2⟩ := hw _ _ hc hva hlen
    obtain ⟨role', hs⟩ := hm.munmap_effect hp
      (fun a ha => ownLeaf_of_window hm.good.tables hroot (rangeVas_window h1 h2 ha)) hu
    exact hs.kernelRootPa
  | forkNone hc h1 =>
    rw [← hkm] at h1 ⊢
    obtain ⟨rfl, -⟩ := (newUserRoot_spec (hm.good.account k0.procs.nextPid)).ok h1
    rfl
  | @forkUndo t io r err m1 m2 m3 _ hc h1 h2 h3 h4 =>
    rw [← hkm] at h1 ⊢
    obtain ⟨role1, hn⟩ := hm.fork_effect hp h1 h2
    have hm2 := hm.newSpace hn
    obtain ⟨role2, hs, -⟩ := hm2.free_effect hn.adds.root h3
    have hrel := (hm2.shrinks hs).release_effect ((hs.root_iff r).mpr hn.adds.root) h4
    exact hrel.freed.kernelRootPa.trans (hs.kernelRootPa.trans hn.adds.kernelRootPa)
  | execFail hc hname himage hb =>
    rw [← hkm] at hb ⊢
    rcases hm.build_effect hb with ⟨rfl, -⟩ | ⟨q, vas, ok, role1, hn, -⟩
    · rfl
    · exact hn.adds.kernelRootPa

/-- Only exec, exit and wait4 return a root. -/
theorem Move.keepsRoots (h : Move e k0 k k') (hm : Memory role k) (hw : e.unmapsWindow)
    (ho : e.ordinary) (ha : ∀ i p, k0.procs.slots i = some p → p.nextMmap % pageSize = 0)
    (hexec : ∀ t io, ¬ Call e t io .execve) (hwait : ∀ t io, ¬ Call e t io .wait4)
    (hexit : ¬ Exits e) : KeepsRoots k k' := by
  cases h with
  | quiet hq => exact .congr (by rw [hq.procs]) (by rw [hq.machine])
  | trap _ _ => exact .congr rfl rfl
  | store _ _ _ => exact .congr rfl rfl
  | memory _ hp hop => exact .congr rfl (hop.kernelRootPa hm hp hw ha)
  | result _ _ _ => exact .congr rfl rfl
  | resume _ => exact .congr rfl rfl
  | own _ hp hown => exact .setSlot hp rfl (by rw [hown.eq]) rfl
  | socket _ hp _ => exact .setSlot hp rfl rfl rfl
  | close _ _ _ hp _ => exact .setSlot hp rfl rfl rfl
  | fork _ hslot hp h1 h2 _ =>
    obtain ⟨role', hn⟩ := hm.fork_effect hp h1 h2
    refine .newSlot ?_ rfl hn.adds.kernelRootPa
    simpa using (position_some hslot).2
  | exec hc _ _ _ _ _ _ => exact absurd hc (hexec _ _)
  | exit he hcode _ _ => exact absurd (exits_of_code he hcode) hexit
  | exitReap he hcode _ _ _ => exact absurd (exits_of_code he hcode) hexit
  | waitReap hc _ _ _ => exact absurd hc (hwait _ _)
  | waitBlock hc _ _ => exact absurd hc (hwait _ _)
  | waitNone hc _ _ => exact absurd hc (hwait _ _)
  | block _ _ hp => exact .setSlot hp rfl rfl rfl
  | yield _ _ _ =>
    cases hs : k.procs.slots k.current with
    | none =>
      rw [Option.map_none, ← hs, Kernel.setSlot_same]
      exact .congr rfl rfl
    | some p =>
      refine .setSlot hs rfl ?_ rfl
      dsimp only
      split_ifs <;> rfl
  | wake _ hp _ hcopy => exact .setSlot hp rfl rfl (hm.copyOut_effect hp hcopy).kernelRootPa
  | schedule _ _ hp => exact .setSlot hp rfl rfl rfl
  | heapGrow he h =>
    have hh := (pageAlloc_spec _ (hm.good.account 0).pages).ok h
    exact .congr rfl hh.kernelRootPa
  | spawnFail he _ _ _ => exact absurd he ho.ne_spawn
  | spawn he _ _ _ _ _ => exact absurd he ho.ne_spawn

/-- Somebody is ready, so the scheduler finds somebody. -/
theorem exists_picked {t : ProcTable} {i : ℕ} {p : Process} (hi : i < maxProcs)
    (hp : t.slots i = some p) (hr : p.state = .ready) : ∃ slot, Picked t slot := by
  refine Option.isSome_iff_exists.mp (List.find?_isSome.mpr ⟨i, ?_, by simp [hp, hr]⟩)
  refine List.mem_map.mpr ⟨gap t.lastRun i, List.mem_range.mpr (gap_lt _ _), gap_spec hi⟩

/-- A reaped child leaves its parent ready, so the hart does not go idle. -/
theorem Reap.not_idle {par child : ℕ} {c : Process} {m1 m2 : Machine}
    (h : Reap par child c p m1 m2 k k') (hpar : par < maxProcs) (hne : par ≠ child) {k'' : Kernel}
    (hs : Scheduled k'.idle k'') : k''.current ≠ noProc := by
  have hslot : k'.procs.slots par = some { p with state := .ready } := by
    rw [h.state, Kernel.log_procs, Kernel.setSlot_slots, if_neg hne]
    exact Kernel.setSlot_self ..
  rcases hs with ⟨-, hnone⟩ | ⟨slot, q, hpick, hq, rfl⟩
  · obtain ⟨slot, hpick⟩ := exists_picked (t := k'.procs) hpar hslot rfl
    exact absurd hpick (hnone slot)
  · exact ne_noProc (picked_order hpick).1

theorem Scheduled.idle_eq (h : Scheduled k k') (hidle : k'.current = noProc) : k' = k := by
  rcases h with ⟨rfl, -⟩ | ⟨slot, q, hpick, hq, rfl⟩
  · rfl
  · exact absurd hidle (ne_noProc (picked_order hpick).1)

/-- A process that ends and leaves the hart idle keeps its root as a zombie. -/
theorem exitCurrent_owned {code : ℤ} (hx : exitCurrent code k = .ok ((), k')) (ht : Tree k)
    (hp : k.procs.slots k.current = some p) (hidle : k'.current = noProc) :
    ∃ i q, k'.procs.slots i = some q ∧ q.rootPa = p.rootPa := by
  obtain ⟨q, m1, k1, hexit, ⟨-, hs⟩ | ⟨⟨-, par, hpslot, hsl⟩, c, r, m2, m3, k2, hr, hs⟩⟩ :=
    exitCurrent_ok hx
  all_goals
    obtain rfl := Option.some.inj (hp.symm.trans hexit.proc)
    have hslot := Tree.exit_slots hexit k.current
    rw [if_pos rfl] at hslot
  · refine ⟨k.current, { adopt k.current (initSlot k.procs) p with
      state := .zombie, exitCode := code }, ?_, Memory.adopt_rootPa ..⟩
    rw [hs.idle_eq hidle]
    exact hslot
  · have hne : p.parent ≠ k.current := by
      intro he
      rw [← he, hpslot] at hslot
      rw [Option.some.inj hslot] at hsl
      simp at hsl
    obtain ⟨pp, hpp, -⟩ := ht.parent _ p hp hexit.pid
    exact absurd hidle (hr.not_idle (ht.bound _ pp hpp) hne hs)

/-- A wait4 that leaves the hart idle has reaped nobody. -/
theorem waitCurrent_owned {uva : ℕ} (hx : waitCurrent uva k = .ok ((), k')) (ht : Tree k)
    (hcur : k.current ≠ noProc) (hp : k.procs.slots k.current = some p)
    (hidle : k'.current = noProc) : ∃ i q, k'.procs.slots i = some q ∧ q.rootPa = p.rootPa := by
  obtain ⟨q, hq, hcases⟩ := waitCurrent_ok hx
  obtain rfl := Option.some.inj (hp.symm.trans hq)
  obtain ⟨child, c, r, m1, m2, k1, hz, hr, hs⟩ | ⟨-, hs⟩ | ⟨-, hs⟩ := hcases
  · obtain ⟨z, hzs, -, hzz⟩ := waitScan_zombie hz
    have hne : k.current ≠ child := by
      intro he
      obtain ⟨p', hp', hrun⟩ := ht.current hcur
      obtain rfl := Option.some.inj (hzs.symm.trans (he ▸ hp'))
      rw [hrun] at hzz
      simp at hzz
    exact absurd hidle (hr.not_idle (ht.bound _ p hp) hne hs)
  · exact ⟨k.current, asleep p uva, by rw [hs.idle_eq hidle]; exact Kernel.setSlot_self .., rfl⟩
  · refine ⟨k.current, { p with waitStatusUva := uva, state := .ready }, ?_, rfl⟩
    rw [hs.idle_eq hidle]
    exact Kernel.setSlot_self ..

/-- An execve comes back to its caller. -/
theorem Next.exec_current {t : UserTrap} {io : Io} (hn : Next e k k') (hc : Call e t io .execve)
    (hcur : k.current ≠ noProc) : k'.current ≠ noProc := by
  suffices h : k'.current = k.current by rwa [h]
  have hno : ∀ {t' io' no}, Call e t' io' no → no = .execve := by
    intro t' io' no hc'
    obtain rfl : t' = t := by
      have := hc'.event.symm.trans hc.event
      simpa using this
    exact hc'.nr.symm.trans hc.nr
  have hcode : ∀ {t' : UserTrap} {code : ℤ}, e = .trap t' →
      ((∃ io, Call e t' io .exit ∧ code = toI32 (t'.arg 10)) ∨
        ∃ sc, t'.cause = .fault sc ∧ code = -1) → False := by
    rintro t' code he (⟨io', hc', -⟩ | ⟨sc, hsc, -⟩)
    · exact absurd (hno hc') (by simp)
    · obtain rfl : t' = t := by
        have := he.symm.trans hc.event
        simpa using this
      exact absurd (hsc.symm.trans hc.cause) (by simp)
  refine hn.keeps (I := fun a => a.current = k.current) rfl fun a b ha hm => ?_
  cases hm with
  | quiet hq => exact hq.current.trans ha
  | trap _ _ => exact ha
  | store _ _ _ => exact ha
  | memory _ _ _ => exact ha
  | result _ _ _ => exact ha
  | resume _ => exact ha
  | own _ _ _ => exact ha
  | socket _ _ _ => exact ha
  | close _ _ _ _ _ => exact ha
  | fork _ _ _ _ _ _ => exact ha
  | exec _ _ _ _ _ _ _ => exact ha
  | exit he hx _ _ => exact (hcode he hx).elim
  | exitReap he hx _ _ _ => exact (hcode he hx).elim
  | waitReap hc' _ _ _ => exact absurd (hno hc') (by simp)
  | waitBlock hc' _ _ => exact absurd (hno hc') (by simp)
  | waitNone hc' _ _ => exact absurd (hno hc') (by simp)
  | block hc' _ _ => exact absurd (hno hc') (by simp)
  | yield he ht _ =>
    obtain rfl := Event.trap.inj (he.symm.trans hc.event)
    exact absurd (ht.symm.trans hc.cause) (by simp)
  | wake _ _ _ _ => exact ha
  | schedule hcur' _ _ => exact absurd (ha.symm.trans hcur') hcur
  | heapGrow _ _ => exact ha
  | spawnFail _ _ _ _ => exact ha
  | spawn _ _ _ _ _ _ => exact ha

/-- The root in `satp` is still somebody's when the hart goes idle. -/
theorem Active.idle (h : Active k s) (ht : Tree k) (hm : Memory role k) (hw : e.unmapsWindow)
    (ho : e.ordinary) (hn : Next e k k') (hidle : k'.current = noProc) :
    s = k'.machine.kernelRootPa ∨ ∃ i p, k'.procs.slots i = some p ∧ p.rootPa = s := by
  by_cases hkeep : (∀ t io, ¬ Call e t io .execve) ∧ (∀ t io, ¬ Call e t io .wait4) ∧ ¬ Exits e
  · obtain ⟨hexec, hwait, hexit⟩ := hkeep
    have hroots : (∃ role, Memory role k') ∧ KeepsRoots k k' := by
      refine hn.keeps (I := fun a => (∃ role, Memory role a) ∧ KeepsRoots k a)
        ⟨⟨role, hm⟩, .refl k⟩ ?_
      rintro a b ⟨⟨role', hma⟩, hr⟩ hmove
      exact ⟨hma.move hw hm.mmap_aligned hmove,
        hr.trans (hmove.keepsRoots hma hw ho hm.mmap_aligned hexec hwait hexit)⟩
    exact hroots.2.owned h.owned
  · -- the event is a trap, so the hart was in user mode or nothing has happened
    obtain ⟨t, rfl⟩ : ∃ t, e = .trap t := by
      by_contra hne
      push Not at hne
      exact hkeep ⟨fun t _ hc => hne t hc.event, fun t _ hc => hne t hc.event,
        fun ⟨t, he, _⟩ => hne t he⟩
    by_cases hcur : k.current = noProc
    · unfold Next step at hn
      rw [Prog.get_bind_ok] at hn
      dsimp only at hn
      rw [if_pos hcur] at hn
      obtain rfl := Prog.pure_state hn
      exact h.owned
    · obtain ⟨p, hp, rfl⟩ := h.running hcur
      have ht' : Tree (trapState t k) := ht.congr rfl rfl rfl rfl
      refine .inr ?_
      by_cases hexec : ∃ t' io, Call (.trap t) t' io .execve
      · obtain ⟨t', io, hc⟩ := hexec
        exact absurd hidle (hn.exec_current hc hcur)
      by_cases hwait : ∃ t' io, Call (.trap t) t' io .wait4
      · obtain ⟨t', io, hc⟩ := hwait
        obtain rfl := Event.trap.inj hc.event
        obtain ⟨-, r, k1, hcall, hr⟩ := step_call hc hcur hn
        change sysWait4 _ _ = _ at hcall
        unfold sysWait4 at hcall
        obtain ⟨_, k2, hwait, hret⟩ := Prog.bind_ok.mp hcall
        obtain ⟨rfl, rfl⟩ := Prod.mk.inj (Prog.pure_ok.mp hret)
        obtain rfl := hr
        exact waitCurrent_owned hwait ht' hcur hp hidle
      · obtain ⟨t', he, ⟨sc, hsc⟩ | ⟨io, hc⟩⟩ : Exits (.trap t) := by
          by_contra hno
          exact hkeep ⟨fun t' io hc => hexec ⟨t', io, hc⟩, fun t' io hc => hwait ⟨t', io, hc⟩, hno⟩
        · obtain rfl := Event.trap.inj he
          have hx := step_trap rfl hcur (by simp [hsc]) hn
          rw [hsc] at hx
          obtain ⟨_, k2, hinfo, hx⟩ := Prog.bind_ok.mp hx
          obtain ⟨-, -, -, -, rfl⟩ := currentInfo_ok.mp hinfo
          exact exitCurrent_owned hx ht' hp hidle
        · obtain rfl := Event.trap.inj he
          obtain ⟨-, r, k1, hcall, hr⟩ := step_call hc hcur hn
          change sysExit _ _ = _ at hcall
          unfold sysExit at hcall
          obtain ⟨_, k2, hx, hret⟩ := Prog.bind_ok.mp hcall
          obtain ⟨rfl, rfl⟩ := Prod.mk.inj (Prog.pure_ok.mp hret)
          obtain rfl := hr
          exact exitCurrent_owned hx ht' hp hidle

theorem Active.step (h : Active k s) (ht : Tree k) (hm : Memory role k) (hw : e.unmapsWindow)
    (ho : e.ordinary) (hn : Next e k k') : Active k' (satpAfter k' s) := by
  unfold satpAfter
  split_ifs with hidle
  · exact ⟨fun hne => absurd hidle hne, h.idle ht hm hw ho hn hidle⟩
  · obtain ⟨p, hp, -⟩ := (ht.step ho hn).current hidle
    rw [hp]
    exact ⟨fun _ => ⟨p, hp, rfl⟩, .inr ⟨_, p, hp, rfl⟩⟩

end Roots

/-- Runs of the hart from the start of the scheduler, when `satp` designates the kernel root,
in which processes unmap only their own window. -/
abbrev HartReaches (k0 : Kernel) (h : Hart) : Prop :=
  Runs Hart.Step (fun e _ => e.ordinary ∧ e.unmapsWindow) ⟨k0, k0.machine.kernelRootPa⟩ h

theorem HartReaches.active {k0 : Kernel} {h : Hart} (hs : Started k0) (hr : HartReaches k0 h) :
    Tree h.kernel ∧ (∃ role, Memory role h.kernel) ∧ Active h.kernel h.satp := by
  refine hr.invariant (I := fun h => Tree h.kernel ∧ (∃ role, Memory role h.kernel) ∧
    Active h.kernel h.satp) ⟨hs.tree, hs.memory, fun hne => ?_, .inl rfl⟩ ?_
  · exact absurd hs.rest.2.1 hne
  · rintro e h h' ⟨ho, hw⟩ ⟨hn, hsatp⟩ ⟨ht, ⟨role, hm⟩, ha⟩
    rw [hsatp]
    exact ⟨ht.step ho hn, hm.step hw hn, ha.step ht hm hw ho hn⟩

/-- A single frame is refused only when no frame is free. -/
theorem pageAlloc_refused {m m' : Machine} (hc : m.pages.Consistent)
    (h : pageAlloc 1 m = .ok (none, m')) : ∀ q, m.IsFrame q → m.Held q := by
  obtain ⟨-, hzero⟩ : m' = m ∧ (1 = 1 → m.pages.freeFrames = 0) := (pageAlloc_spec 1 hc).ok h
  intro q hq
  obtain ⟨hfirst, hmax⟩ := hq.frame_lt
  refine ⟨hq, ?_⟩
  by_contra hfree
  have hempty := Finset.card_eq_zero.mp (hc.count.symm.trans (hzero rfl))
  have hmem : frameOf q ∈ (Finset.Ico m.pages.firstFrame maxFrames).filter fun f =>
      m.pages.bitmap f = false :=
    Finset.mem_filter.mpr ⟨Finset.mem_Ico.mpr ⟨hfirst, hmax⟩, by simpa using hfree⟩
  rw [hempty] at hmem
  simp at hmem

/-- In every run: no page table reachable from `satp` is free when a step begins, where the
heap grows, nor at any allocation of the step, as the machine recorded it; and where a single
frame is refused, nothing is free. -/
theorem active_space_kept {k0 k' : Kernel} {h : Hart} {e : Event} (hs : Started k0)
    (hr : HartReaches k0 h) (ho : e.ordinary) (hw : e.unmapsWindow) (hn : Next e h.kernel k') :
    TablesInUse h.satp h.kernel.machine ∧
    (∃ l, k'.machine.asks = h.kernel.machine.asks ++ l ∧ ∀ c ∈ l, TablesInUse h.satp c.machine) ∧
    ∀ m m', m.pages.Consistent → pageAlloc 1 m = .ok (none, m') → ∀ q, m.IsFrame q → m.Held q := by
  obtain ⟨-, ⟨role, hm⟩, ha⟩ := hr.active hs
  have hroot := ha.rooted hm
  refine ⟨hm.good.tablesInUse hroot, ?_, fun m m' hc hno => pageAlloc_refused hc hno⟩
  exact hn.asks hm hroot hw ho _ _ hn

/-- Every run of the kernel is a run of the hart. -/
theorem ReachesWindow.hart {k0 k : Kernel} (hr : ReachesWindow k0 k) :
    ∃ s, HartReaches k0 ⟨k, s⟩ := by
  induction hr with
  | refl => exact ⟨_, .refl _⟩
  | @tail _ k _ hlast ih =>
    obtain ⟨s, hs⟩ := ih
    obtain ⟨e, hc, hn⟩ := hlast
    exact ⟨satpAfter k s, hs.snoc hc ⟨hn, rfl⟩⟩

/-- The first process forks; frames are handed out while its root is in `satp`. -/
theorem active_space_kept_fork : ∃ (k0 k' : Kernel) (h : Hart) (t : UserTrap) (l : List Ask),
    Started k0 ∧ HartReaches k0 h ∧ Call (.trap t) t noIo .clone ∧ Next (.trap t) h.kernel k' ∧
    l ≠ [] ∧ k'.machine.asks = h.kernel.machine.asks ++ l ∧
    ∀ c ∈ l, TablesInUse h.satp c.machine := by
  obtain ⟨k, p, hf⟩ := exists_firstRun
  obtain ⟨k0, hs, hr⟩ := hf.reached
  obtain ⟨s, hh⟩ := ReachesWindow.hart hr
  obtain ⟨role, hm⟩ := hf.reached.memory
  have hcalls : Calls (callTrap 220 0 0 0) noIo .clone := callTrap_calls 220 0 0 0 rfl
  have hcall : Call (.trap (callTrap 220 0 0 0)) (callTrap 220 0 0 0) noIo .clone :=
    ⟨rfl, hcalls.cause, hcalls.number⟩
  have hslot : k.procs.slots k.current = some p := by
    rw [hf.shows_.slots, hf.shows_.current]
    rfl
  have hpages := hf.room.pages
  have hfree := hf.room.free
  obtain ⟨k', r, hn, -, -, -, -, -, -, -, hmore, -⟩ := fork_next hm hcalls (hf.shows_.lt hslot) hslot
    hf.shows_.position (by rw [hf.shows_.nextPid]; simp [usizeBound]) (by omega)
  have hw : (Event.trap (callTrap 220 0 0 0)).unmapsWindow := by
    intro t io hc
    obtain rfl := Event.trap.inj hc.event
    exact absurd (hc.nr.symm.trans hcall.nr) (by simp)
  have hord : (Event.trap (callTrap 220 0 0 0)).ordinary := trivial
  obtain ⟨-, ⟨l, hl, huse⟩, -⟩ := active_space_kept hs hh hord hw hn
  refine ⟨k0, k', ⟨k, s⟩, _, l, hs, hh, hcall, hn, ?_, hl, huse⟩
  rintro rfl
  rw [List.append_nil] at hl
  rw [hl] at hmore
  exact lt_irrefl _ hmore

end LightOS
