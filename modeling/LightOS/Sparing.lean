import LightOS.Anonymous

/-!
# Runs that leave the kernel mapped

`munmap` takes any address. A range with a mapping of the kernel in it takes that away
from every process and from the kernel itself, whose next access to the page faults.
The machine here does not translate the kernel's own accesses, so it follows the runs
in which no such mapping has been removed; whatever else a process unmaps is its own.
-/
namespace LightOS
open Lib

/-- What the event unmaps, if it is a munmap, are pages of user memory. -/
def Event.sparesKernel (e : Event) (k : Kernel) : Prop :=
  ∀ t io p, Call e t io .munmap → k.procs.slots k.current = some p → t.arg 10 % pageSize = 0 →
    ∀ va ∈ rangeVas (t.arg 10) (pagesOf (t.arg 11)), ∀ q flags,
      translation k.machine p.rootPa va = some (q, flags) → flags.testBit 4 = true

/-- Runs in which the kernel stays mapped. -/
abbrev ReachesSparing (k k' : Kernel) : Prop := ReachesIf (fun e k => e.sparesKernel k) k k'

section Munmap

variable {role : ℕ → Role} {e : Event} {k k' : Kernel} {p : Process} {t : UserTrap} {io : Io}

theorem sysMunmap_ok {tf : TrapFrame} {ret : ℤ} (hrun : sysMunmap tf k = .ok (ret, k'))
    (hp : k.procs.slots k.current = some p) : k' = k ∨ tf.a0 % pageSize = 0 ∧ ∃ m1,
      munmapPages p.rootPa tf.a0 (pagesOf tf.a1) k.machine = .ok ((), m1) ∧
      k' = { k with machine := m1 } := by
  unfold sysMunmap at hrun
  dsimp only at hrun
  split_ifs at hrun with hbad
  · exact .inl (Prog.pure_state hrun)
  · obtain ⟨r, k1, h1, hrun⟩ := Prog.bind_ok.mp hrun
    obtain ⟨p', -, hp', rfl, rfl⟩ := currentInfo_ok.mp h1
    obtain rfl := Option.some.inj (hp.symm.trans hp')
    obtain ⟨_, k2, h2, hrun⟩ := Prog.bind_ok.mp hrun
    obtain ⟨m1, hm1, rfl⟩ := onMachine_ok.mp h2
    exact .inr ⟨by omega, m1, hm1, Prog.pure_state hrun⟩

theorem Call.inj {no no' : Sysno} {t' : UserTrap} {io' : Io} (h : Call e t io no)
    (h' : Call e t' io' no') : t = t' ∧ no = no' := by
  obtain rfl := Event.trap.inj (h.event.symm.trans h'.event)
  exact ⟨rfl, h.nr.symm.trans h'.nr⟩

/-- A step with a system call that returns, as the effect of the call and of the return. -/
theorem Next.returned {no : Sysno} {f : TrapFrame → KernelM ℤ} (hc : Call e t io no)
    (hcur : k.current ≠ noProc) (hf : ∀ tf, syscall io tf no = some <$> f tf) (hn : Next e k k') :
    ∃ ret k1, f ((trapState t k).frames k.current) (trapState t k) = .ok (ret, k1) ∧
      resumeCurrent (k1.withFrame k.current ((k1.frames k.current).setA0 (ofIsize ret))) =
        .ok ((), k') := by
  obtain ⟨-, r, k1, hcall, hend⟩ := step_call hc hcur hn
  rw [hf] at hcall
  obtain ⟨ret, k1', hrun, hpair⟩ := Prog.map_ok.mp hcall
  obtain ⟨rfl, rfl⟩ := Prod.mk.inj hpair
  exact ⟨ret, k1, hrun, hend⟩

/-- An execve leaves all but memory as it was, or has replaced the image. -/
theorem sysExecve_ends {tf : TrapFrame} {ret : ℤ} (hrun : sysExecve io tf k = .ok (ret, k'))
    (hp : k.procs.slots k.current = some p) : (ret < 0 ∧ ∃ m, k' = { k with machine := m }) ∨
    ret = 0 ∧ ∃ name image q entry brk m1 m2 m3,
      copyInCstr p.rootPa tf.a0 128 k.machine = .ok (.ok name, k.machine) ∧
      k.fs.loadProgram io.disk name = .ok (some image) ∧
      buildAddressSpace image { k.machine with account := p.pid } = .ok (.ok (q, entry, brk), m1) ∧
      freeUserSpace p.rootPa m1 = .ok ((), m2) ∧ pageFree p.rootPa 1 m2 = .ok ((), m3) ∧
      k' = execState k p name q entry brk m3 := by
  unfold sysExecve at hrun
  obtain ⟨r, k1, h1, hrun⟩ := Prog.bind_ok.mp hrun
  obtain ⟨p', -, hp', rfl, rfl⟩ := currentInfo_ok.mp h1
  obtain rfl := Option.some.inj (hp.symm.trans hp')
  obtain ⟨res, k2, h2, hrun⟩ := Prog.bind_ok.mp hrun
  obtain ⟨m, hname, rfl⟩ := onMachine_ok.mp h2
  obtain rfl := copyInCstr_read hname
  cases res with
  | error err =>
    obtain ⟨rfl, rfl⟩ := Prod.mk.inj (Prog.pure_ok.mp hrun)
    exact .inl ⟨by decide, _, rfl⟩
  | ok name =>
    dsimp only at hrun
    unfold execCurrent at hrun
    rw [Prog.get_bind_ok] at hrun
    obtain ⟨o, k2, h2, hrun⟩ := Prog.bind_ok.mp hrun
    obtain ⟨himage, rfl⟩ := Prog.ofExcept_ok.mp h2
    cases o with
    | none =>
      obtain ⟨rfl, rfl⟩ := Prod.mk.inj (Prog.pure_ok.mp hrun)
      exact .inl ⟨by decide, _, rfl⟩
    | some image =>
      dsimp only at hrun
      rw [Prog.get_bind_ok] at hrun
      obtain ⟨p', k2, h2, hrun⟩ := Prog.bind_ok.mp hrun
      obtain ⟨-, hp', rfl⟩ := procAt_ok.mp h2
      obtain rfl := Option.some.inj (hp.symm.trans hp')
      obtain ⟨res, k2, h1, hrun⟩ := Prog.bind_ok.mp hrun
      obtain ⟨m1, hbuild, rfl⟩ := onMachineFor_ok.mp h1
      rcases res with err | ⟨q, entry, brk⟩
      · obtain ⟨rfl, rfl⟩ := Prod.mk.inj (Prog.pure_ok.mp hrun)
        exact .inl ⟨by decide, _, rfl⟩
      · obtain ⟨q', k2, h2, hrun⟩ := Prog.bind_ok.mp hrun
        obtain ⟨-, hq', rfl⟩ := procAt_ok.mp h2
        obtain rfl := Option.some.inj (hp.symm.trans hq')
        obtain ⟨_, k2, h3, hrun⟩ := Prog.bind_ok.mp hrun
        obtain ⟨m2, hfree, rfl⟩ := onMachine_ok.mp h3
        obtain ⟨_, k2, h4, hrun⟩ := Prog.bind_ok.mp hrun
        obtain ⟨m3, hdrop, rfl⟩ := onMachine_ok.mp h4
        obtain ⟨_, k2, h5, hrun⟩ := Prog.bind_ok.mp hrun
        obtain rfl := setProc_ok.mp h5
        obtain ⟨_, k2, h6, hrun⟩ := Prog.bind_ok.mp hrun
        obtain rfl := setFrame_ok.mp h6
        obtain ⟨rfl, rfl⟩ := Prod.mk.inj (Prog.pure_ok.mp hrun)
        exact .inr ⟨rfl, name, image, q, entry, brk, m1, m2, m3, hname, himage, hbuild, hfree, hdrop, rfl⟩

/-- A successful execve has replaced the image. -/
theorem sysExecve_ok {tf : TrapFrame} {ret : ℤ} (hrun : sysExecve io tf k = .ok (ret, k'))
    (hp : k.procs.slots k.current = some p) (hret : 0 ≤ ret) :
    ∃ name image q entry brk m1 m2 m3,
      copyInCstr p.rootPa tf.a0 128 k.machine = .ok (.ok name, k.machine) ∧
      k.fs.loadProgram io.disk name = .ok (some image) ∧
      buildAddressSpace image { k.machine with account := p.pid } = .ok (.ok (q, entry, brk), m1) ∧
      freeUserSpace p.rootPa m1 = .ok ((), m2) ∧ pageFree p.rootPa 1 m2 = .ok ((), m3) ∧
      k' = execState k p name q entry brk m3 := by
  rcases sysExecve_ends hrun hp with ⟨hneg, -⟩ | ⟨-, h⟩
  · exact absurd hret (not_le.mpr hneg)
  · exact h

/-- A fork that leaves a record has made a child. -/
theorem forkCurrent_ok {tf : TrapFrame} {ret : ℤ} (hrun : forkCurrent tf k = .ok (ret, k'))
    (hp : k.procs.slots k.current = some p) :
    k'.history = k.history ∧ k'.procs = k.procs ∨ ∃ slot r m1 m2, k.procs.position (·.isNone) = some slot ∧
      newUserRoot { k.machine with account := k.procs.nextPid } = .ok (some r, m1) ∧
      cloneUserSpace p.rootPa r m1 = .ok (.ok (), m2) ∧ k'.machine = m2 ∧ k'.regions = k.regions ∧
      k'.procs = (forkState k p slot r m2).procs ∧
      k'.history = k.history ++ [.forked p.pid k.procs.nextPid] ∧
      ∀ i, k'.frames i = if i = slot then { tf.setA0 0 with kernelSp := k.kernelStackTop }
        else k.frames i := by
  unfold forkCurrent at hrun
  rw [Prog.get_bind_ok] at hrun
  dsimp only at hrun
  cases hslot : k.procs.position (·.isNone) with
  | none =>
    rw [hslot] at hrun
    exact .inl (by rw [Prog.pure_state hrun]; exact ⟨rfl, rfl⟩)
  | some slot =>
    rw [hslot] at hrun
    dsimp only at hrun
    obtain ⟨p', k1, h1, hrun⟩ := Prog.bind_ok.mp hrun
    obtain ⟨-, hp', rfl⟩ := procAt_ok.mp h1
    obtain rfl := Option.some.inj (hp.symm.trans hp')
    obtain ⟨o, k2, h1, hrun⟩ := Prog.bind_ok.mp hrun
    obtain ⟨m1, hroot, rfl⟩ := onMachineFor_ok.mp h1
    cases o with
    | none => exact .inl (by rw [Prog.pure_state hrun]; exact ⟨rfl, rfl⟩)
    | some r =>
      obtain ⟨res, k2, h2, hrun⟩ := Prog.bind_ok.mp hrun
      obtain ⟨m2, hclone, rfl⟩ := onMachine_ok.mp h2
      cases res with
      | error err =>
        obtain ⟨_, k2, h3, hrun⟩ := Prog.bind_ok.mp hrun
        obtain ⟨m3, -, rfl⟩ := onMachine_ok.mp h3
        obtain ⟨_, k2, h4, hrun⟩ := Prog.bind_ok.mp hrun
        obtain ⟨m4, -, rfl⟩ := onMachine_ok.mp h4
        exact .inl (by rw [Prog.pure_state hrun]; exact ⟨rfl, rfl⟩)
      | ok u =>
        obtain ⟨next, k2, h3, hrun⟩ := Prog.bind_ok.mp hrun
        obtain ⟨hadd, rfl⟩ := Prog.ofExcept_ok.mp h3
        obtain ⟨-, rfl⟩ := checkedAdd_ok.mp hadd
        obtain ⟨_, k2, h4, hrun⟩ := Prog.bind_ok.mp hrun
        obtain rfl := Prog.modify_ok.mp h4
        obtain ⟨_, k2, h5, hrun⟩ := Prog.bind_ok.mp hrun
        obtain rfl := setFrame_ok.mp h5
        obtain ⟨_, k2, h6, hrun⟩ := Prog.bind_ok.mp hrun
        obtain rfl := setProc_ok.mp h6
        obtain ⟨_, k2, h7, hrun⟩ := Prog.bind_ok.mp hrun
        obtain rfl := record_ok.mp h7
        obtain rfl := Prog.pure_state hrun
        exact .inr ⟨slot, r, m1, m2, rfl, hroot, hclone, rfl, rfl, rfl, rfl, fun _ => rfl⟩

/-- The return to user mode touches the frame only. -/
theorem resumed_rest (h : resumeCurrent k = .ok ((), k')) : k'.machine = k.machine ∧
    k'.regions = k.regions ∧ k'.procs = k.procs ∧ k'.history = k.history ∧ k'.current = k.current := by
  unfold resumeCurrent at h
  rw [Prog.get_bind_ok, procAt_bind] at h
  obtain ⟨p, -, -, h⟩ := h
  unfold enterUser at h
  rw [Prog.get_bind_ok] at h
  obtain rfl := setFrame_ok.mp h
  exact ⟨rfl, rfl, rfl, rfl, rfl⟩

theorem trapState_args (hc : t.cause = .ecall io) :
    ((trapState t k).frames k.current).a0 = t.arg 10 ∧
      ((trapState t k).frames k.current).a1 = t.arg 11 := by
  rw [TrapFrame.a0, TrapFrame.a1, trapState_frame, trapFrame_reg hc _ (by decide),
    trapFrame_reg hc _ (by decide)]
  exact ⟨rfl, rfl⟩

/-- A successful mmap, as the step leaves the kernel. -/
theorem Next.mmapped (hn : Next e k k') (hc : Call e t io .mmap) (hcur : k.current ≠ noProc)
    (hp : k.procs.slots k.current = some p)
    (hok : ∃ ret k1, sysMmap ((trapState t k).frames k.current) (trapState t k) = .ok (ret, k1) ∧
      0 ≤ ret) :
    ∃ u m1, mmapPages p.rootPa p.nextMmap (pagesOf (t.arg 11)) { k.machine with account := p.pid } =
        .ok (.ok u, m1) ∧ k'.machine = m1 ∧ k'.regions = k.regions ∧
      k'.procs = (k.setSlot k.current
        (some { p with nextMmap := p.nextMmap + pagesOf (t.arg 11) * pageSize })).procs ∧
      k'.history = k.history := by
  obtain ⟨ret, k1, hrun, hend⟩ := hn.returned hc hcur fun _ => rfl
  obtain ⟨ret', k1', hrun', hret⟩ := hok
  obtain ⟨rfl, rfl⟩ := Prod.mk.inj (Except.ok.inj (hrun'.symm.trans hrun))
  obtain ⟨e1, e2, e3, e4, -⟩ := resumed_rest hend
  have ha1 := (trapState_args (k := k) hc.cause).2
  rcases sysMmap_ends hrun hp with ⟨-, rfl, -⟩ | ⟨-, res, m1, -, hpages, hres, rfl⟩
  · exact absurd hret (by decide)
  rw [ha1] at hpages e3
  cases res with
  | error u =>
    obtain rfl : ret' = enomem := hres
    exact absurd hret (by decide)
  | ok u => exact ⟨u, m1, hpages, e1, e2, e3, e4⟩

/-- A successful execve, as the step leaves the kernel. -/
theorem Next.execed (hn : Next e k k') (hc : Call e t io .execve) (hcur : k.current ≠ noProc)
    (hp : k.procs.slots k.current = some p)
    (hok : ∃ ret k1, sysExecve io ((trapState t k).frames k.current) (trapState t k) = .ok (ret, k1) ∧
      0 ≤ ret) :
    ∃ name image q entry brk m1 m2 m3,
      copyInCstr p.rootPa (t.arg 10) 128 k.machine = .ok (.ok name, k.machine) ∧
      k.fs.loadProgram io.disk name = .ok (some image) ∧
      buildAddressSpace image { k.machine with account := p.pid } = .ok (.ok (q, entry, brk), m1) ∧
      freeUserSpace p.rootPa m1 = .ok ((), m2) ∧ pageFree p.rootPa 1 m2 = .ok ((), m3) ∧
      k'.machine = m3 ∧ k'.regions = k.regions ∧
      k'.procs = (execState k p name q entry brk m3).procs ∧ k'.history = k.history := by
  obtain ⟨ret, k1, hrun, hend⟩ := hn.returned hc hcur fun _ => rfl
  obtain ⟨ret', k1', hrun', hret⟩ := hok
  obtain ⟨rfl, rfl⟩ := Prod.mk.inj (Except.ok.inj (hrun'.symm.trans hrun))
  obtain ⟨e1, e2, e3, e4, -⟩ := resumed_rest hend
  obtain ⟨name, image, q, entry, brk, m1, m2, m3, hname, himage, h1, h2, h3, rfl⟩ :=
    sysExecve_ok hrun hp hret
  rw [(trapState_args hc.cause).1] at hname
  exact ⟨name, image, q, entry, brk, m1, m2, m3, hname, himage, h1, h2, h3, e1, e2, e3, e4⟩

/-- The pages of a range without kernel mappings are the caller's own. -/
theorem Event.sparesKernel.ownLeaf (h : e.sparesKernel k) (hm : Memory role k)
    (hc : Call e t io .munmap) (hp : k.procs.slots k.current = some p)
    (hal : t.arg 10 % pageSize = 0) :
    ∀ va ∈ rangeVas (t.arg 10) (pagesOf (t.arg 11)), OwnLeaf role k.machine p.rootPa va := by
  intro va hva l0 hchain hv
  have htr := (hm.good.translation_iff (.inl (hm.root _ p hp))).mpr ⟨l0, hchain, hv, rfl, rfl⟩
  exact pteFlags_user.mp (h t io p hc hp hal va hva _ _ htr)

theorem Event.unmapsWindow.sparesKernel (h : e.unmapsWindow) (hm : Memory role k) :
    e.sparesKernel k := by
  intro t io p hc hp hal va hva q flags ht
  have hroot := hm.root _ p hp
  obtain ⟨l0, hchain, hv, -, rfl⟩ := (hm.good.translation_iff (.inl hroot)).mp ht
  have hlen : t.arg 11 ≠ 0 := by
    intro h0
    rw [h0] at hva
    simp [rangeVas, pagesOf, pageSize] at hva
  obtain ⟨h1, h2⟩ := h t io hc hal hlen
  exact pteFlags_user.mpr
    (ownLeaf_of_window hm.good.tables hroot (rangeVas_window h1 h2 hva) l0 hchain hv)

/-- A munmap of user memory: nothing happens but that the pages are returned. -/
theorem Memory.munmap_next (hm : Memory role k) (hs : e.sparesKernel k) (hc : Call e t io .munmap)
    (hcur : k.current ≠ noProc) (hp : k.procs.slots k.current = some p) (hn : Next e k k') :
    ∃ role' m1 P, Shrinks P role k.machine role' m1 ∧ k'.machine = m1 ∧ k'.regions = k.regions ∧
      k'.procs = k.procs ∧ k'.history = k.history := by
  obtain ⟨ret, k1, hrun, hend⟩ := hn.returned hc hcur fun _ => rfl
  obtain ⟨h1, h2, h3, h4, -⟩ := resumed_rest hend
  obtain ⟨ha0, ha1⟩ := trapState_args (k := k) hc.cause
  rcases sysMunmap_ok hrun hp with rfl | ⟨hal, m1, hpages, rfl⟩
  · exact ⟨role, k.machine, fun _ _ => False, .refl hm.good, h1, h2, h3, h4⟩
  · rw [ha0] at hal
    rw [ha0, ha1] at hpages
    obtain ⟨role', hsh⟩ := hm.munmap_effect hp (hs.ownLeaf hm hc hp hal) hpages
    exact ⟨role', m1, _, hsh, h1, h2, h3, h4⟩

/-- Nobody is there to trap. -/
theorem Next.idle_trap (hn : Next e k k') (he : e = .trap t) (hcur : k.current = noProc) : k' = k := by
  subst he
  unfold Next LightOS.step at hn
  rw [Prog.get_bind_ok] at hn
  dsimp only at hn
  rw [if_pos hcur] at hn
  exact Prog.pure_state hn

/-- A step that spares the kernel keeps the memory in order. -/
theorem Memory.step_sparing (hm : Memory role k) (ht : Tree k) (hs : e.sparesKernel k)
    (hn : Next e k k') : ∃ role', Memory role' k' := by
  by_cases hc : ∃ t io, Call e t io .munmap
  · obtain ⟨t, io, hc⟩ := hc
    by_cases hcur : k.current = noProc
    · exact ⟨role, hn.idle_trap hc.event hcur ▸ hm⟩
    · obtain ⟨p, hp, -⟩ := ht.current hcur
      obtain ⟨role', m1, P, hsh, h1, h2, h3, -⟩ := hm.munmap_next hs hc hcur hp hn
      exact ⟨role', (hm.shrinks hsh).congr h1 h2 (by rw [h3])⟩
  · exact hm.step (fun t io hc' => absurd ⟨t, io, hc'⟩ hc) hn

theorem ReachesSparing.memory {k0 : Kernel} (hs : Started k0) (hr : ReachesSparing k0 k) :
    ∃ role, Memory role k := by
  refine (hr.invariant (I := fun k => Tree k ∧ ∃ role, Memory role k) ⟨hs.tree, hs.memory⟩ ?_).2
  rintro e k k' ⟨he, hspare⟩ hn ⟨ht, role, hm⟩
  exact ⟨ht.step he hn, hm.step_sparing ht hspare hn⟩

/-- Runs that unmap user memory only leave the kernel mapped. -/
theorem ReachesWindow.sparing {k0 : Kernel} (hs : Started k0) (hr : ReachesWindow k0 k) :
    ReachesSparing k0 k := by
  refine (hr.invariant (I := fun k => ReachesSparing k0 k ∧ ∃ role, Memory role k)
    ⟨.refl _, hs.memory⟩ ?_).1
  rintro e k k' ⟨he, hw⟩ hn ⟨hr, role, hm⟩
  exact ⟨hr.snoc ⟨he, hw.sparesKernel hm⟩ hn, hm.step hw hn⟩

end Munmap

end LightOS
