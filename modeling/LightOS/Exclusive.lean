import LightOS.Careful
import LightOS.Copies

/-!
# One use for every frame

In every state of a run in which processes unmap only their own window, a frame is
free, or kept by the kernel, or has exactly one place in the page tables. For the
allocator this means that no frame is ever returned twice.
-/
namespace LightOS
open Lib

/-! ### Returning frames -/

section Returns

variable {role : ℕ → Role} {k k' : Kernel} {p : Process} {e : Event}

/-- The run of the program does not return a free frame. -/
abbrev ReturnsOnce {σ α : Type} (x : Prog σ Fault α) (s : σ) : Prop :=
  Prog.Wp x s (fun _ _ => True) (· ≠ doubleFree)

/-- A memory operation that cannot stop, and what is done after it. -/
theorem returnsOnce_total {α β : Type} {x : MachineM α} {g : α → KernelM β} {R : α → Machine → Prop}
    (hx : Prog.Wp x k.machine R Prog.Never)
    (hg : ∀ a m, x k.machine = .ok (a, m) → R a m → ReturnsOnce (g a) { k with machine := m }) :
    ReturnsOnce (onMachine x >>= g) k := by
  obtain ⟨a, m, hok, hR⟩ := hx.returns
  refine Prog.Wp.bind (R := fun b k' => b = a ∧ k' = { k with machine := m }) ?_ ?_
  · exact .of_ok (onMachine_ok.mpr ⟨m, hok, rfl⟩) ⟨rfl, rfl⟩
  · rintro b k' ⟨rfl, rfl⟩
    exact hg _ _ hok hR

theorem completeWait_once (h : Memory role k) (par child : ℕ) : ReturnsOnce (completeWait par child) k := by
  unfold completeWait
  refine (procAt_careful child).andThen fun c k₁ h1 => ?_
  obtain ⟨-, hc, rfl⟩ := procAt_ok.mp h1
  refine (procAt_careful par).andThen fun p k₂ h2 => ?_
  obtain ⟨-, hp, rfl⟩ := procAt_ok.mp h2
  refine (setProc_careful _ _).andThen fun _ k₃ h3 => ?_
  obtain rfl := setProc_ok.mp h3
  have hset : Memory role (k₂.setSlot par (some { p with state := .ready })) :=
    h.setSlot hp rfl rfl (fun h => h) rfl rfl
  have hroot := h.root _ c hc
  -- what follows the status store
  have hrest : ∀ k' : Kernel, Memory role k' → ReturnsOnce (do
      setFrame par (((← get).frames par).setA0 c.pid)
      onMachine (pageFree c.rootPa 1)
      setProc child none
      record (.reaped p.pid c.pid)) k' := by
    intro k' hk'
    refine Avoids.get.andThen fun _ k₄ h4 => (setFrame_careful _ _).andThen fun _ k₅ h5 => ?_
    obtain rfl := (Prod.mk.inj (Prog.get_ok.mp h4)).2
    obtain rfl := setFrame_ok.mp h5
    exact returnsOnce_total (pageFree_root_spec hk'.good hroot) fun _ m _ _ =>
      ((setProc_careful _ _).bind fun _ => Avoids.modify _).wp _
  split_ifs with hst
  · refine (onMachine_careful (copyOut_careful _ _ _)).andThen fun res k₄ h4 => ?_
    obtain ⟨m, hcopy, rfl⟩ := onMachine_ok.mp h4
    have hp' : (k₂.setSlot par (some { p with state := .ready })).procs.slots par =
      some { p with state := .ready } := Kernel.setSlot_self ..
    exact hrest _ (hset.dataOnly (hset.copyOut_effect hp' hcopy))
  · exact hrest _ hset

theorem exitCurrent_once (h : Memory role k) (code : ℤ) : ReturnsOnce (exitCurrent code) k := by
  unfold exitCurrent
  refine Avoids.get.andThen fun _ k₀ h0 => ?_
  obtain ⟨rfl, rfl⟩ := Prod.mk.inj (Prog.get_ok.mp h0)
  refine (procAt_careful _).andThen fun p k₁ h1 => ?_
  obtain ⟨-, hp, rfl⟩ := procAt_ok.mp h1
  dsimp only
  by_cases hpid : p.pid = 1
  · rw [if_pos hpid]
    exact (Avoids.stop (by simp)).andThen fun _ _ h2 => (Prog.stop_ok.mp h2).elim
  rw [if_neg hpid]
  refine returnsOnce_total (freeUserSpace_spec h.good (h.root _ p hp)) fun _ m1 hfree _ => ?_
  refine Avoids.get.andThen fun _ k₂ h2 => (Avoids.modify _).andThen fun _ k₃ h3 => ?_
  obtain ⟨rfl, rfl⟩ := Prod.mk.inj (Prog.get_ok.mp h2)
  obtain rfl := Prog.modify_ok.mp h3
  refine (procAt_careful _).andThen fun q k₄ h4 => ?_
  obtain ⟨-, hq, rfl⟩ := procAt_ok.mp h4
  obtain rfl : q = adopt k₁.current (initSlot k₁.procs) p := by
    have hq' : (k₁.procs.slots k₁.current).map (adopt k₁.current (initSlot k₁.procs)) = some q := hq
    rw [hp] at hq'
    exact (Option.some.inj hq').symm
  refine (setProc_careful _ _).andThen fun _ k₅ h5 => ?_
  obtain rfl := setProc_ok.mp h5
  refine Avoids.andThen (x := record _) (.modify _) fun _ k₆ h6 => ?_
  obtain rfl := record_ok.mp h6
  -- the process is a zombie now, and a parent that waits may free its root
  obtain ⟨role', -, hm⟩ := h.exit ⟨hp, hpid, hfree, rfl⟩
  split_ifs
  · refine (slotAt_careful _).andThen fun o k₇ h7 => ?_
    obtain ⟨-, rfl, rfl⟩ := slotAt_ok.mp h7
    split
    · split_ifs
      · exact (completeWait_once hm _ _).bind fun _ k' _ => park_careful.wp k'
      · exact park_careful.wp _
    · exact park_careful.wp _
  · exact park_careful.wp _

theorem waitCurrent_once (h : Memory role k) (uva : ℕ) : ReturnsOnce (waitCurrent uva) k := by
  unfold waitCurrent
  refine Avoids.get.andThen fun _ k₀ h0 => ?_
  obtain ⟨rfl, rfl⟩ := Prod.mk.inj (Prog.get_ok.mp h0)
  dsimp only
  refine (procAt_careful _).andThen fun p k₁ h1 => ?_
  obtain ⟨-, hp, rfl⟩ := procAt_ok.mp h1
  cases (waitScan k₁.procs k₁.current).2 with
  | some child =>
    refine (setProc_careful _ _).andThen fun _ k₂ h2 => ?_
    obtain rfl := setProc_ok.mp h2
    have hset : Memory role (k₁.setSlot k₁.current (some (asleep p uva))) :=
      h.setSlot hp rfl rfl (fun h => h) rfl rfl
    exact (completeWait_once hset _ _).bind fun _ k' _ => park_careful.wp k'
  | none =>
    dsimp only
    split_ifs
    · exact ((setProc_careful _ _).bind fun _ => park_careful).wp _
    · exact ((setProc_careful _ _).bind fun _ => (setFrame_careful _ _).bind fun _ =>
        (Avoids.modify _).bind fun _ => park_careful).wp _

theorem forkCurrent_once (h : Memory role k) (tf : TrapFrame) : ReturnsOnce (forkCurrent tf) k := by
  unfold forkCurrent
  refine Avoids.get.andThen fun _ k₀ h0 => ?_
  obtain ⟨rfl, rfl⟩ := Prod.mk.inj (Prog.get_ok.mp h0)
  cases k₀.procs.position (·.isNone) with
  | none => exact (Avoids.pure _).wp _
  | some slot =>
    refine (procAt_careful _).andThen fun p k₁ h1 => ?_
    obtain ⟨-, hp, rfl⟩ := procAt_ok.mp h1
    refine (onMachineFor_careful _ newUserRoot_careful).andThen fun o k₂ h2 => ?_
    obtain ⟨m1, hroot, rfl⟩ := onMachineFor_ok.mp h2
    cases o with
    | none => exact (Avoids.pure _).wp _
    | some r =>
      refine (onMachine_careful (cloneUserSpace_careful _ _)).andThen fun res k₃ h3 => ?_
      obtain ⟨m2, hclone, rfl⟩ := onMachine_ok.mp h3
      obtain ⟨role1, hn⟩ := h.fork_effect hp hroot hclone
      have hm2 := h.newSpace hn
      have hr1 : role1 r = .root := hn.adds.root
      cases res with
      | error err =>
        refine returnsOnce_total (freeUserSpace_spec hm2.good hr1) fun _ m3 _ hR => ?_
        obtain ⟨role2, hs, -⟩ := hR
        have hm3 := hm2.shrinks hs
        have hr2 : role2 r = .root := (hs.root_iff r).mpr hr1
        exact returnsOnce_total (pageFree_root_spec hm3.good hr2) fun _ _ _ _ => (Avoids.pure _).wp _
      | ok u =>
        exact ((Avoids.ofExcept (checkedAdd_clear _ _)).bind fun _ => (Avoids.modify _).bind fun _ =>
          (setFrame_careful _ _).bind fun _ => (setProc_careful _ _).bind fun _ =>
            (Avoids.modify _).bind fun _ => .pure _).wp _

theorem execCurrent_once (h : Memory role k) (disk : Disk) (name : List UInt8) :
    ReturnsOnce (execCurrent disk name) k := by
  unfold execCurrent
  refine Avoids.get.andThen fun _ k₀ h0 => ?_
  obtain ⟨rfl, rfl⟩ := Prod.mk.inj (Prog.get_ok.mp h0)
  refine (Avoids.ofExcept (Fs.loadProgram_clear _)).andThen fun o k₁ h1 => ?_
  obtain ⟨-, rfl⟩ := Prog.ofExcept_ok.mp h1
  cases o with
  | none => exact (Avoids.pure _).wp _
  | some image =>
    refine Avoids.get.andThen fun _ k₁ h1 => ?_
    obtain ⟨rfl, rfl⟩ := Prod.mk.inj (Prog.get_ok.mp h1)
    refine (procAt_careful _).andThen fun p k₂ h2 => ?_
    obtain ⟨-, hp, rfl⟩ := procAt_ok.mp h2
    refine (onMachineFor_careful _ (buildAddressSpace_careful _)).andThen fun res k₃ h3 => ?_
    obtain ⟨m1, hbuild, rfl⟩ := onMachineFor_ok.mp h3
    rcases res with e | ⟨q, entry, brk⟩
    · exact (Avoids.pure _).wp _
    refine (procAt_careful _).andThen fun p' k₄ h4 => ?_
    obtain ⟨-, hp', rfl⟩ := procAt_ok.mp h4
    obtain rfl := Option.some.inj (hp.symm.trans hp')
    -- the new space is there, the old one goes
    rcases h.build_effect hbuild with ⟨-, hf⟩ | ⟨q', vas, ok, role1, hn, -, -⟩
    · simp [isOk_ok] at hf
    have hm1 := h.newSpace hn
    refine returnsOnce_total (freeUserSpace_spec hm1.good (hm1.root _ p hp)) fun _ m2 _ hR => ?_
    obtain ⟨role2, hs, -⟩ := hR
    have hm2 := hm1.shrinks hs
    exact returnsOnce_total (pageFree_root_spec hm2.good (hm2.root _ p hp)) fun _ _ _ _ =>
      ((setProc_careful _ _).bind fun _ => (setFrame_careful _ _).bind fun _ => .pure _).wp _

theorem sysMunmap_once (h : Memory role k) {tf : TrapFrame} (hw : tf.a0 % pageSize = 0 → tf.a1 ≠ 0 →
    userVaStart ≤ tf.a0 ∧ tf.a0 + pagesOf tf.a1 * pageSize ≤ userVaEnd) :
    ReturnsOnce (sysMunmap tf) k := by
  unfold sysMunmap
  dsimp only
  split_ifs with hbad
  · exact (Avoids.pure _).wp _
  obtain ⟨h1, h2⟩ := hw (by omega) (by omega)
  refine currentInfo_careful.andThen fun r k₁ hinfo => ?_
  obtain ⟨p, -, hp, rfl, rfl⟩ := currentInfo_ok.mp hinfo
  have hroot := h.root _ p hp
  have hspec := munmapPages_spec (pagesOf tf.a1) h.good hroot fun a ha =>
    ownLeaf_of_window h.good.tables hroot (rangeVas_window h1 h2 ha)
  refine Prog.Wp.bind (R := fun _ _ => True) (Prog.wp_zoom.mpr (hspec.mono (fun _ _ _ => trivial) ?_))
    fun _ k' _ => (Avoids.pure _).wp k'
  rintro f ⟨rfl, -⟩
  decide

theorem syscall_once (h : Memory role k) {io : Io} {tf : TrapFrame} {no : Sysno}
    (hw : no = .munmap → tf.a0 % pageSize = 0 → tf.a1 ≠ 0 →
      userVaStart ≤ tf.a0 ∧ tf.a0 + pagesOf tf.a1 * pageSize ≤ userVaEnd) :
    ReturnsOnce (syscall io tf no) k := by
  by_cases hno : no.frees = false
  · exact (syscall_careful hno).wp k
  cases no with
  | exit => exact (exitCurrent_once h _).bind fun _ k' _ => (Avoids.pure _).wp k'
  | wait4 => exact (waitCurrent_once h _).bind fun _ k' _ => (Avoids.pure _).wp k'
  | clone =>
    change ReturnsOnce (some <$> forkCurrent tf) k
    rw [map_eq_pure_bind]
    exact (forkCurrent_once h tf).bind fun _ k' _ => (Avoids.pure _).wp k'
  | munmap =>
    change ReturnsOnce (some <$> sysMunmap tf) k
    rw [map_eq_pure_bind]
    exact (sysMunmap_once h (hw rfl)).bind fun _ k' _ => (Avoids.pure _).wp k'
  | execve =>
    change ReturnsOnce (some <$> sysExecve io tf) k
    rw [map_eq_pure_bind]
    have hcall : ReturnsOnce (sysExecve io tf) k := by
      unfold sysExecve
      refine currentInfo_careful.andThen fun r k₁ hinfo => ?_
      obtain ⟨p, -, hp, rfl, rfl⟩ := currentInfo_ok.mp hinfo
      refine (onMachine_careful (copyInCstr_careful _ _ _)).andThen fun res k₂ h2 => ?_
      obtain ⟨m, hcopy, rfl⟩ := onMachine_ok.mp h2
      obtain rfl : m = k₁.machine := copyInCstr_read hcopy
      cases res with
      | error e => exact (Avoids.pure _).wp _
      | ok name => exact execCurrent_once h _ _
    exact hcall.bind fun _ k' _ => (Avoids.pure _).wp k'
  | _ => exact absurd rfl hno

theorem wakeConsoleReader_careful : Careful wakeConsoleReader := by
  unfold wakeConsoleReader
  refine Avoids.get.bind fun k => ?_
  dsimp only
  split
  · exact .pure _
  · refine (procAt_careful _).bind fun p => (Avoids.modify _).bind fun _ => ?_
    split
    · exact .pure _
    · exact (onMachine_careful (copyOut_careful _ _ _)).bind fun _ => Avoids.get.bind fun _ =>
        (setFrame_careful _ _).bind fun _ => setProc_careful _ _

theorem timerTick_careful : Careful timerTick :=
  Avoids.get.bind fun _ => (Avoids.ofExcept (checkedAdd_clear _ _)).bind fun _ => .set _

theorem externalInterrupt_careful (irq : ℕ) (input : List UInt8) :
    Careful (externalInterrupt irq input) := by
  unfold externalInterrupt handleInterrupt
  split
  · refine Avoids.get.bind fun k => (Avoids.set _).bind fun _ => ?_
    split
    · exact wakeConsoleReader_careful
    · exact .pure _
  · exact .pure _

theorem yieldCurrent_careful : Careful yieldCurrent := by
  unfold yieldCurrent
  refine Avoids.get.bind fun k => (slotAt_careful _).bind fun o => ?_
  split
  · split
    · exact (setProc_careful _ _).bind fun _ => park_careful
    · exact park_careful
  · exact park_careful

theorem spawn_careful (disk : Disk) (name : List UInt8) : Careful (spawn disk name) := by
  unfold spawn
  refine Avoids.get.bind fun k => (Avoids.ofExcept (Fs.loadProgram_clear _)).bind fun o => ?_
  cases o with
  | none => exact .pure _
  | some image =>
    refine Avoids.get.bind fun k => (onMachineFor_careful _ (buildAddressSpace_careful _)).bind fun r => ?_
    rcases r with e | ⟨root, entry, brk⟩
    · exact .pure _
    refine Avoids.get.bind fun k => ?_
    dsimp only
    split
    · exact .pure _
    · exact (Avoids.ofExcept (checkedAdd_clear _ _)).bind fun _ => (Avoids.modify _).bind fun _ =>
        (setFrame_careful _ _).bind fun _ => (setProc_careful _ _).bind fun _ => .pure _

/-- A step that unmaps only in the user window returns no free frame. -/
theorem step_once (h : Memory role k) (he : e.unmapsWindow) : ReturnsOnce (step e) k := by
  unfold step
  refine Avoids.get.andThen fun _ k₀ h0 => ?_
  obtain ⟨rfl, rfl⟩ := Prod.mk.inj (Prog.get_ok.mp h0)
  cases e with
  | spawn disk name =>
    dsimp only
    split_ifs
    · exact ((spawn_careful _ _).bind fun _ => .pure _).wp _
    · exact (Avoids.pure _).wp _
  | heapGrow size align =>
    dsimp only
    unfold heapGrow
    refine Avoids.wp ((onMachineFor_careful _ (pageAlloc_careful _)).bind fun o => ?_) _
    cases o with
    | none => exact .stop (by decide)
    | some addr => exact .modify _
  | store va b =>
    dsimp only
    split_ifs
    · exact (Avoids.pure _).wp _
    refine Avoids.wp ((procAt_careful _).bind fun p => ?_) _
    split
    · exact onMachine_careful (.modify _)
    · exact .pure _
  | idle i =>
    dsimp only
    split_ifs
    · refine Avoids.wp ?_ _
      cases i with
      | none => exact schedule_careful
      | some i =>
        cases i with
        | timer => exact timerTick_careful.bind fun _ => schedule_careful
        | external irq input => exact (externalInterrupt_careful _ _).bind fun _ => schedule_careful
        | other code => exact schedule_careful
    · exact (Avoids.pure _).wp _
  | trap t =>
    dsimp only
    split_ifs with hcur
    · exact (Avoids.pure _).wp _
    have hm : ∀ k₂ : Kernel, k₂.machine = k₀.machine → k₂.regions = k₀.regions →
      k₂.procs.slots = k₀.procs.slots → Memory role k₂ := fun _ h1 h2 h3 => h.congr h1 h2 h3
    have hvec : Careful (userVec t) := Avoids.get.bind fun _ => (Avoids.set _).bind fun _ =>
      setFrame_careful _ _
    refine hvec.andThen fun _ k₁ h1 => ?_
    unfold userVec at h1
    rw [Prog.get_bind_ok] at h1
    obtain ⟨_, k₂, h2, h3⟩ := Prog.bind_ok.mp h1
    obtain rfl := Prog.set_ok.mp h2
    obtain rfl := setFrame_ok.mp h3
    cases hcause : t.cause with
    | interrupt i =>
      refine Avoids.wp ?_ _
      cases i with
      | timer => exact timerTick_careful.bind fun _ => yieldCurrent_careful
      | external irq input => exact (externalInterrupt_careful _ _).bind fun _ => resumeCurrent_careful
      | other code => exact resumeCurrent_careful
    | fault sc =>
      refine currentInfo_careful.andThen fun r k₁ hinfo => ?_
      obtain ⟨p, -, -, -, rfl⟩ := currentInfo_ok.mp hinfo
      refine exitCurrent_once (hm _ ?_ ?_ ?_) _
      · rfl
      · rfl
      · rfl
    | ecall io =>
      refine Avoids.get.andThen fun _ k₁ h1 => ?_
      obtain ⟨rfl, rfl⟩ := Prod.mk.inj (Prog.get_ok.mp h1)
      refine (Avoids.ofExcept (checkedAdd_clear _ _)).andThen fun sepc k₂ h2 => ?_
      obtain ⟨-, rfl⟩ := Prog.ofExcept_ok.mp h2
      refine (setFrame_careful _ _).andThen fun _ k₃ h3 => ?_
      obtain rfl := setFrame_ok.mp h3
      refine Avoids.get.andThen fun _ k₄ h4 => ?_
      obtain ⟨rfl, rfl⟩ := Prod.mk.inj (Prog.get_ok.mp h4)
      generalize htf : Kernel.frames _ _ = tf
      have hreg : ∀ i : Fin 32, i ≠ 0 → tf.reg i = t.arg i := by
        intro i hi
        rw [← htf]
        simp [Kernel.withFrame, saveFrame, TrapFrame.reg, UserTrap.arg, hi]
      have ha0 : tf.a0 = t.arg 10 := hreg 10 (by decide)
      have ha1 : tf.a1 = t.arg 11 := hreg 11 (by decide)
      have ha7 : tf.a7 = t.arg 17 := hreg 17 (by decide)
      refine Prog.Wp.bind (syscall_once (hm _ ?_ ?_ ?_) fun hno => ?_) fun r k' _ => ?_
      · rfl
      · rfl
      · rfl
      · rw [ha0, ha1]
        exact he t io ⟨rfl, hcause, by rw [← hno, ha7]; rfl⟩
      · refine Avoids.wp ?_ k'
        cases r with
        | none => exact .pure _
        | some ret => exact Avoids.get.bind fun _ => (setFrame_careful _ _).bind fun _ =>
            resumeCurrent_careful

end Returns

/-! ### The uses of a frame -/

/-- What a frame serves for. Tables and pages are named by the entry that leads to them. -/
inductive Use where
  | free
  /-- Kernel heap, or a queue or buffer of a device. -/
  | kept (r : Region)
  | kernelRoot
  /-- The root table of the process in a slot. -/
  | root (slot : ℕ)
  /-- A table of this level, under entry `i` of the table at `t`. -/
  | table (level t i : ℕ)
  /-- Target of the user leaf in entry `i` of the table at `t`. -/
  | page (t i : ℕ)

/-- The root of a process shares the valid entries of the kernel root. -/
def Machine.Inherits (m : Machine) (level t i : ℕ) : Prop :=
  level = 2 ∧ t ≠ m.kernelRootPa ∧ pteValid (m.pte m.kernelRootPa i) = true

/-- The tables that some root leads to, with their levels. -/
inductive LiveTable (k : Kernel) : ℕ → ℕ → Prop
  | kernel : LiveTable k 2 k.machine.kernelRootPa
  | root {s : ℕ} {p : Process} (hp : k.procs.slots s = some p) : LiveTable k 2 p.rootPa
  | under {l t i : ℕ} (ht : LiveTable k (l + 1) t) (hi : i < 512)
      (hown : ¬ k.machine.Inherits (l + 1) t i) (hv : pteValid (k.machine.pte t i) = true) :
      LiveTable k l (pteAddr (k.machine.pte t i))

/-- The uses that frames have in a state of the kernel. -/
inductive Uses (k : Kernel) : ℕ → Use → Prop
  | free {q : ℕ} (hf : k.machine.IsFrame q) (hb : k.machine.pages.bitmap (frameOf q) = false) :
      Uses k q .free
  | kept {r : Region} {q : ℕ} (hr : r ∈ k.regions) (hq : r.Has q) : Uses k q (.kept r)
  | kernelRoot : Uses k k.machine.kernelRootPa .kernelRoot
  | root {s : ℕ} {p : Process} (hp : k.procs.slots s = some p) : Uses k p.rootPa (.root s)
  | table {l t i : ℕ} (ht : LiveTable k (l + 1) t) (hi : i < 512)
      (hown : ¬ k.machine.Inherits (l + 1) t i) (hv : pteValid (k.machine.pte t i) = true) :
      Uses k (pteAddr (k.machine.pte t i)) (.table l t i)
  | page {t i : ℕ} (ht : LiveTable k 0 t) (hi : i < 512)
      (hv : pteValid (k.machine.pte t i) = true) (hu : pteUser (k.machine.pte t i) = true) :
      Uses k (pteAddr (k.machine.pte t i)) (.page t i)

section Uses

variable {role : ℕ → Role} {k : Kernel} {q t l i : ℕ} {u u' : Use}

/-- The level that a root leads to is the level of the role. -/
theorem LiveTable.level (h : Memory role k) (ht : LiveTable k l t) : (role t).level = some l := by
  induction ht with
  | kernel => exact h.good.tables.kroot_level
  | root hp =>
    rw [h.root _ _ hp]
    rfl
  | @under l t i _ hi hown hv ih =>
    have hns : ¬ Shared role k.machine t i := by
      rintro ⟨hr, -, hk⟩
      refine hown ⟨?_, h.good.root_ne hr, hk⟩
      rw [hr] at ih
      exact (Option.some.inj ih).symm
    have hrole := ((h.good.tables.down t (l + 1) i ih hi hv hns).1 (Nat.succ_pos l)).2
    rw [hrole]
    rfl

/-- Each use is a role of the forest, or none of its roles. -/
inductive Plays (role : ℕ → Role) (k : Kernel) (q : ℕ) : Use → Prop
  | free (h : ¬ k.machine.Held q) : Plays role k q .free
  | kept {r : Region} (hr : r ∈ k.regions) (hq : r.Has q) : Plays role k q (.kept r)
  | kernelRoot (h : role q = .kroot) : Plays role k q .kernelRoot
  | root {s : ℕ} {p : Process} (hp : k.procs.slots s = some p) (hq : q = p.rootPa) :
      Plays role k q (.root s)
  | table {l t i : ℕ} (h : role q = .table l t i) : Plays role k q (.table l t i)
  | page {t i : ℕ} (h : role q = .page t i) : Plays role k q (.page t i)

theorem Uses.plays (h : Memory role k) (hu : Uses k q u) : Plays role k q u := by
  cases hu with
  | free hf hb => exact .free fun hheld => Bool.false_ne_true (hb.symm.trans hheld.2)
  | kept hr hq => exact .kept hr hq
  | kernelRoot => exact .kernelRoot ((h.good.tables.kroot _).mpr rfl)
  | root hp => exact .root hp rfl
  | @table l t i ht hi hown hv =>
    have hlevel := ht.level h
    have hns : ¬ Shared role k.machine t i := by
      rintro ⟨hr, -, hk⟩
      refine hown ⟨?_, h.good.root_ne hr, hk⟩
      rw [hr] at hlevel
      exact (Option.some.inj hlevel).symm
    exact .table ((h.good.tables.down t (l + 1) i hlevel hi hv hns).1 (Nat.succ_pos l)).2
  | @page t i ht hi hv hu =>
    have hlevel := ht.level h
    have hns : ¬ Shared role k.machine t i := by
      rintro ⟨hr, -, -⟩
      rw [hr] at hlevel
      cases hlevel
    exact .page (((h.good.tables.down t 0 i hlevel hi hv hns).2 rfl).1 hu)

theorem Plays.held (h : Memory role k) (hp : Plays role k q u) (hne : u ≠ .free) :
    k.machine.Held q := by
  have hheld : role q ≠ .other → k.machine.Held q := h.good.tables.held q
  cases hp with
  | free hq => exact absurd rfl hne
  | kept hr hq => exact (h.region _ hr _ hq).1
  | kernelRoot hq => exact hheld (by simp [hq])
  | root hp hq => exact hheld (by simp [hq, h.root _ _ hp])
  | table hq => exact hheld (by simp [hq])
  | page hq => exact hheld (by simp [hq])

/-- A frame plays one part. -/
theorem Plays.unique (h : Memory role k) (hp : Plays role k q u) (hp' : Plays role k q u') : u = u' := by
  by_cases hfree : u = .free
  · subst hfree
    by_contra hne
    cases hp with
    | free hq => exact hq (hp'.held h (Ne.symm hne))
  by_cases hfree' : u' = .free
  · subst hfree'
    cases hp' with
    | free hq => exact absurd (hp.held h hfree) hq
  cases hp with
  | free hq => exact absurd rfl hfree
  | @kept r hr hq =>
    have hother := (h.region _ hr _ hq).2
    cases hp' with
    | free hq' => exact absurd rfl hfree'
    | @kept r' hr' hq' =>
      by_contra hne
      have hsymm : Std.Symm fun r r' : Region => ∀ q, r.Has q → ¬ r'.Has q :=
        ⟨fun a b hab q hb ha => hab q ha hb⟩
      exact h.apart.forall hr hr' (fun he => hne (he ▸ rfl)) q hq hq'
    | kernelRoot hq' => simp [hother] at hq'
    | root hp' hq' => simp [hq', h.root _ _ hp'] at hother
    | table hq' => simp [hother] at hq'
    | page hq' => simp [hother] at hq'
  | kernelRoot hq =>
    cases hp' with
    | free hq' => exact absurd rfl hfree'
    | kept hr' hq' => simp [(h.region _ hr' _ hq').2] at hq
    | kernelRoot hq' => rfl
    | root hp' hq' => simp [hq', h.root _ _ hp'] at hq
    | table hq' => simp [hq] at hq'
    | page hq' => simp [hq] at hq'
  | root hp hq =>
    have hroot := h.root _ _ hp
    rw [← hq] at hroot
    cases hp' with
    | free hq' => exact absurd rfl hfree'
    | kept hr' hq' => simp [(h.region _ hr' _ hq').2] at hroot
    | kernelRoot hq' => simp [hroot] at hq'
    | root hp' hq' => rw [h.root_inj _ _ _ _ hp hp' (hq.symm.trans hq')]
    | table hq' => simp [hroot] at hq'
    | page hq' => simp [hroot] at hq'
  | table hq =>
    cases hp' with
    | free hq' => exact absurd rfl hfree'
    | kept hr' hq' => simp [(h.region _ hr' _ hq').2] at hq
    | kernelRoot hq' => simp [hq] at hq'
    | root hp' hq' => simp [hq', h.root _ _ hp'] at hq
    | table hq' =>
      rw [hq] at hq'
      obtain ⟨rfl, rfl, rfl⟩ := Role.table.inj hq'
      rfl
    | page hq' => simp [hq] at hq'
  | page hq =>
    cases hp' with
    | free hq' => exact absurd rfl hfree'
    | kept hr' hq' => simp [(h.region _ hr' _ hq').2] at hq
    | kernelRoot hq' => simp [hq] at hq'
    | root hp' hq' => simp [hq', h.root _ _ hp'] at hq
    | table hq' => simp [hq] at hq'
    | page hq' =>
      rw [hq] at hq'
      obtain ⟨rfl, rfl⟩ := Role.page.inj hq'
      rfl

/-- Windows of processes do not share frames. -/
theorem Memory.window_inj (h : Memory role k) {s s' va va' q f f' : ℕ} {p p' : Process}
    (hp : k.procs.slots s = some p) (hp' : k.procs.slots s' = some p') (hw : InWindow va)
    (hw' : InWindow va') (ht : translation k.machine p.rootPa va = some (q, f))
    (ht' : translation k.machine p'.rootPa va' = some (q, f')) :
    s = s' ∧ va / pageSize = va' / pageSize := by
  have hfind : ∀ {s va f p}, k.procs.slots s = some p → InWindow va →
      translation k.machine p.rootPa va = some (q, f) → ∃ l1 l0, role l1 = .table 1 p.rootPa userRootSlot ∧
        role l0 = .table 0 l1 (vpn va 1) ∧ role q = .page l0 (vpn va 0) := by
    intro s va f p hp hw ht
    have hroot := h.root s p hp
    obtain ⟨l0, ⟨l1, h1, h0⟩, hv, rfl, -⟩ := (h.good.translation_iff (.inl hroot)).mp ht
    rw [vpn_window hw.1 hw.2, home_user] at h1
    exact ⟨l1, l0, h1, h0, (h.good.tables.user_leaf hroot h1 h0 (vpn_lt va 0) hv).2⟩
  obtain ⟨l1, l0, h1, h0, hq⟩ := hfind hp hw ht
  obtain ⟨l1', l0', h1', h0', hq'⟩ := hfind hp' hw' ht'
  rw [hq] at hq'
  obtain ⟨rfl, hv0⟩ := Role.page.inj hq'
  rw [h0] at h0'
  obtain ⟨-, rfl, hv1⟩ := Role.table.inj h0'
  rw [h1] at h1'
  obtain ⟨-, hroot, -⟩ := Role.table.inj h1'
  refine ⟨h.root_inj _ _ _ _ hp hp' hroot, ?_⟩
  have hlt : ∀ {va}, InWindow va → va < 2 ^ 39 := fun hw => by
    have := hw.2
    simp only [userVaEnd] at this
    omega
  exact vpn_inj (hlt hw) (hlt hw') hv0 hv1 (by rw [vpn_window hw.1 hw.2, vpn_window hw'.1 hw'.2])

end Uses

/-! ### Whole runs -/

/-- Every frame has at most one use, what is in use is marked so, no two windows share a
frame, and no free frame is returned. -/
theorem frames_exclusive {kb k : Kernel} (hb : Booted kb)
    (hr : Runs Next (fun e _ => e.unmapsWindow) kb k) :
    (∀ q u u', Uses k q u → Uses k q u' → u = u') ∧
      (∀ q u, Uses k q u → u ≠ .free → k.machine.Held q) ∧
      (∀ s s' p p' va va' q f f', k.procs.slots s = some p → k.procs.slots s' = some p' →
        InWindow va → InWindow va' → translation k.machine p.rootPa va = some (q, f) →
        translation k.machine p'.rootPa va' = some (q, f') →
        s = s' ∧ va / pageSize = va' / pageSize) ∧
      ∀ e, e.unmapsWindow → step e k ≠ .error doubleFree := by
  obtain ⟨role, h⟩ : ∃ role, Memory role k :=
    hr.invariant (I := fun k => ∃ role, Memory role k) hb.memory
      fun e s t he hn ⟨role, hm⟩ => hm.step he hn
  refine ⟨fun q u u' hu hu' => (hu.plays h).unique h (hu'.plays h),
    fun q u hu hne => (hu.plays h).held h hne,
    fun s s' p p' va va' q f f' hp hp' hw hw' ht ht' => h.window_inj hp hp' hw hw' ht ht',
    fun e he herr => ?_⟩
  exact (step_once h he).error herr rfl

/-- The frame of a page that init maps has no second use. -/
theorem frames_exclusive_init : ∃ k p va q f, k.procs.slots 0 = some p ∧ InWindow va ∧
    translation k.machine p.rootPa va = some (q, f) ∧ ∀ u u', Uses k q u → Uses k q u' → u = u' := by
  obtain ⟨k, p, hf⟩ := exists_firstRun
  obtain ⟨va, hready⟩ := hf.mappedPage
  have hone := hready 1 (by decide)
  obtain ⟨⟨q, f⟩, ht⟩ := Option.isSome_iff_exists.mp (hone.mapped va le_rfl (Nat.lt_succ_self va))
  obtain ⟨k0, ⟨kb, disk, hb, hn, -⟩, hr⟩ := hf.reached
  have hrun : Runs Next (fun e _ => e.unmapsWindow) kb k :=
    (Runs.snoc (.refl kb) (Event.unmapsWindow_of_not_trap (by simp)) hn).trans
      (hr.mono fun _ _ h => h.2)
  have hstop := hone.stop
  exact ⟨k, p, va, q, f, hf.slot, ⟨hone.start, by omega⟩, ht, (frames_exclusive hb hrun).1 q⟩

end LightOS
