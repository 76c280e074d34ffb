import LightOS.Scheduling

/-!
# What a call leaves alone

Most system calls deal with their caller only. Whatever they do to its slot, to the
memory and to the network, the other processes and the bytes waiting in the console
ring stay as they are. The few calls that give up the hart are not among them.
-/
namespace LightOS
open Lib

/-- The other processes and the console ring are as they were; a slot that was free
may have been taken by a new process. -/
structure CallerOnly (k k' : Kernel) : Prop where
  rx : k'.rx = k.rx
  current : k'.current = k.current
  slots : ∀ i, i ≠ k.current → k'.procs.slots i = k.procs.slots i ∨
    k.procs.slots i = none ∧ ∃ p, k'.procs.slots i = some p ∧ p.state = .ready

namespace CallerOnly

variable {k k₁ k' : Kernel}

theorem refl (k : Kernel) : CallerOnly k k := ⟨rfl, rfl, fun _ _ => .inl rfl⟩

theorem trans (h : CallerOnly k k₁) (h' : CallerOnly k₁ k') : CallerOnly k k' := by
  refine ⟨h'.rx.trans h.rx, h'.current.trans h.current, fun i hi => ?_⟩
  rcases h'.slots i (by rwa [h.current]) with he' | ⟨hnone', hnew'⟩
  · rw [he']
    exact h.slots i hi
  · rcases h.slots i hi with he | ⟨hnone, p, hp, -⟩
    · exact .inr ⟨he ▸ hnone', hnew'⟩
    · exact absurd (hp.symm.trans hnone') (Option.some_ne_none p)

theorem congr (hrx : k'.rx = k.rx) (hcur : k'.current = k.current) (hprocs : k'.procs = k.procs) :
    CallerOnly k k' := ⟨hrx, hcur, fun i _ => .inl (by rw [hprocs])⟩

end CallerOnly

/-- With `cur` in the current slot the program deals with the caller only. -/
def Private {α : Type} (cur : ℕ) (x : KernelM α) : Prop :=
  ∀ k : Kernel, k.current = cur → Prog.Wp x k (fun _ k' => CallerOnly k k') fun _ => True

namespace Private

variable {α β : Type} {cur : ℕ}

theorem pure (a : α) : Private cur (Pure.pure a) := fun k _ => Prog.wp_pure.mpr (.refl k)

theorem stop (f : Fault) : Private cur (Prog.stop f : KernelM α) := fun _ _ =>
  Prog.wp_stop.mpr trivial

theorem bind {x : KernelM α} {f : α → KernelM β} (hx : Private cur x)
    (hf : ∀ a, Private cur (f a)) : Private cur (x >>= f) := fun k hk =>
  (hx k hk).bind fun a k₁ h => (hf a k₁ (h.current.trans hk)).mono (fun _ _ h' => h.trans h')
    fun _ h' => h'

theorem map {x : KernelM α} (f : α → β) (hx : Private cur x) : Private cur (f <$> x) := by
  rw [map_eq_pure_bind]
  exact hx.bind fun a => .pure (f a)

theorem get {f : Kernel → KernelM β} (hf : ∀ k : Kernel, k.current = cur → Private cur (f k)) :
    Private cur (MonadState.get >>= f) := by
  intro k hk
  rw [Prog.wp_bind, Prog.wp_get]
  exact hf k hk k hk

theorem ofExcept (x : Except Fault α) : Private cur (Prog.ofExcept x : KernelM α) := by
  intro k _
  rw [Prog.wp_ofExcept]
  cases x with
  | ok a => exact .refl k
  | error e => trivial

theorem modify {g : Kernel → Kernel} (h : ∀ k, CallerOnly k (g k)) : Private cur (modify g) :=
  fun k _ => Prog.wp_modify.mpr (h k)

/-- A change of devices, counters or sockets. -/
theorem modify_bind {g : Kernel → Kernel} {f : Unit → KernelM β} (hrx : ∀ k, (g k).rx = k.rx)
    (hcur : ∀ k, (g k).current = k.current) (hprocs : ∀ k, (g k).procs = k.procs)
    (hf : Private cur (f ())) : Private cur (MonadState.modifyGet (fun s => ((), g s)) >>= f) :=
  bind (modify fun k => .congr (hrx k) (hcur k) (hprocs k)) fun _ => hf

theorem onMachine (x : MachineM α) : Private cur (LightOS.onMachine x) := fun _ _ =>
  Prog.wp_zoom.mpr (.of_returns fun _ _ _ => .congr rfl rfl rfl)

theorem onMachineFor (pid : ℕ) (x : MachineM α) : Private cur (LightOS.onMachineFor pid x) :=
  (onMachine _).bind fun _ => onMachine x

theorem onNet (x : NetM α) : Private cur (LightOS.onNet x) := fun _ _ =>
  Prog.wp_zoom.mpr (.of_returns fun _ _ _ => .congr rfl rfl rfl)

theorem slotAt (i : ℕ) : Private cur (LightOS.slotAt i) := fun k _ =>
  .of_returns fun o k' h => by
    obtain ⟨-, -, rfl⟩ := slotAt_ok.mp h
    exact .refl _

theorem procAt (i : ℕ) : Private cur (LightOS.procAt i) := fun k _ =>
  .of_returns fun p k' h => by
    obtain ⟨-, -, rfl⟩ := procAt_ok.mp h
    exact .refl _

theorem currentInfo : Private cur LightOS.currentInfo := .get fun _ _ => (procAt _).bind fun _ => .pure _

theorem setProc (p : Option Process) : Private cur (LightOS.setProc cur p) := fun _ hk =>
  Prog.wp_modify.mpr ⟨rfl, rfl, fun _ hi => .inl (if_neg (hk ▸ hi))⟩

theorem setFrame (i : ℕ) (tf : TrapFrame) : Private cur (LightOS.setFrame i tf) :=
  modify fun _ => .congr rfl rfl rfl

theorem record (e : ProcEvent) : Private cur (LightOS.record e) := modify fun _ => .congr rfl rfl rfl

/-- Nothing is asked of a program that the state before shows to return. -/
theorem of_ok {x : KernelM α} (h : ∀ k a k', k.current = cur → x k = .ok (a, k') → CallerOnly k k') :
    Private cur x := fun k hk => .of_returns fun a k' hx => h k a k' hk hx

end Private

section Calls

variable {cur : ℕ} {io : Io} {tf : TrapFrame}

theorem setPos_private (fd pos : ℕ) : Private cur (setPos cur fd pos) := by
  unfold setPos
  refine (Private.procAt _).bind fun p => ?_
  cases p.file fd with
  | none => exact .pure _
  | some f => exact .setProc _

theorem writeConsole_private (root uva len : ℕ) : Private cur (writeConsole root uva len) := by
  unfold writeConsole
  refine (Private.onMachine _).bind fun r => ?_
  cases r with
  | ok u => exact .pure _
  | error e => exact .pure _

theorem nceWrite_private (fd uva len : ℕ) : Private cur (nceWrite fd uva len) := by
  unfold nceWrite
  refine .get fun k hk => (Private.procAt _).bind fun p => ?_
  cases p.file fd with
  | none => exact .pure _
  | some f =>
    obtain ⟨kind, pos⟩ := f
    cases kind with
    | file ino => exact .pure _
    | socket idx serial => exact .pure _
    | nce slot =>
      refine Private.currentInfo.bind fun r => (Private.onMachine _).bind fun text => ?_
      cases text with
      | error e => exact .pure _
      | ok text =>
        dsimp only
        split_ifs
        · exact .pure _
        · cases PowerState.parse text with
          | none => exact .pure _
          | some state =>
            dsimp only
            cases Nce.setPower k.nces slot state with
            | error e => exact .pure _
            | ok nces => exact .modify_bind (fun _ => rfl) (fun _ => rfl) (fun _ => rfl) (.pure _)

theorem sysWrite_private : Private cur (sysWrite tf) := by
  unfold sysWrite
  dsimp only
  split_ifs
  · exact Private.currentInfo.bind fun r => writeConsole_private _ _ _
  · exact nceWrite_private _ _ _
  · exact .pure _

theorem nceRead_private (fd slot pos uva len : ℕ) : Private cur (nceRead fd slot pos uva len) := by
  unfold nceRead
  refine .get fun k hk => ?_
  subst hk
  cases Nce.describe k.nces slot with
  | none => exact .pure _
  | some bytes =>
    dsimp only
    split_ifs
    · exact .pure _
    · refine Private.currentInfo.bind fun r => (Private.onMachine _).bind fun res => ?_
      cases res with
      | error e => exact .pure _
      | ok u => exact (Private.ofExcept _).bind fun _ => (setPos_private _ _).bind fun _ => .pure _

theorem fileRead_private (fd uva len : ℕ) : Private cur (fileRead io fd uva len) := by
  unfold fileRead
  refine .get fun k hk => (Private.procAt _).bind fun p => ?_
  subst hk
  cases p.file fd with
  | none => exact .pure _
  | some f =>
    obtain ⟨kind, pos⟩ := f
    cases kind with
    | socket idx serial => exact .pure _
    | nce slot => exact nceRead_private _ _ _ _ _
    | file ino =>
      refine (Private.ofExcept _).bind fun res => ?_
      cases res with
      | error e => exact .pure _
      | ok inode =>
        dsimp only
        split_ifs
        · exact .pure _
        · refine Private.currentInfo.bind fun r => (Private.onMachine _).bind fun res => ?_
          cases res with
          | error e => exact .pure _
          | ok done =>
            exact (Private.ofExcept _).bind fun _ => (setPos_private _ _).bind fun _ => .pure _

theorem sysOpenat_private : Private cur (sysOpenat io tf) := by
  unfold sysOpenat
  refine Private.currentInfo.bind fun r => (Private.onMachine _).bind fun path => ?_
  cases path with
  | error e => exact .pure _
  | ok path =>
    refine .get fun k hk => (Private.ofExcept _).bind fun kind => ?_
    subst hk
    cases kind with
    | error e => exact .pure _
    | ok kind => exact (Private.procAt _).bind fun p => (Private.setProc _).bind fun _ => .pure _

theorem sysClose_private : Private cur (sysClose tf) := by
  unfold sysClose
  dsimp only
  split_ifs
  · exact .pure _
  · refine .get fun k hk => (Private.procAt _).bind fun p => ?_
    subst hk
    cases p.file (toIsize tf.a0).toNat with
    | none => exact .pure _
    | some f =>
      obtain ⟨kind, pos⟩ := f
      cases kind with
      | socket idx serial =>
        exact .modify_bind (fun _ => rfl) (fun _ => rfl) (fun _ => rfl)
          ((Private.setProc _).bind fun _ => .pure _)
      | file ino => exact (Private.pure _).bind fun _ => (Private.setProc _).bind fun _ => .pure _
      | nce slot => exact (Private.pure _).bind fun _ => (Private.setProc _).bind fun _ => .pure _

theorem sysGetdents64_private : Private cur (sysGetdents64 io tf) := by
  unfold sysGetdents64
  dsimp only
  split_ifs
  · exact .pure _
  · refine .get fun k hk => (Private.procAt _).bind fun p => ?_
    subst hk
    cases p.file tf.a0 with
    | none => exact .pure _
    | some f =>
      obtain ⟨kind, pos⟩ := f
      cases kind with
      | nce slot => exact .pure _
      | socket idx serial => exact .pure _
      | file ino =>
        refine (Private.ofExcept _).bind fun res => ?_
        cases res with
        | error e => exact .pure _
        | ok dir =>
          dsimp only
          split_ifs
          · exact .pure _
          · refine (Private.ofExcept _).bind fun res => ?_
            cases res with
            | error e => exact .pure _
            | ok entries =>
              refine (Private.ofExcept _).bind fun filled => Private.currentInfo.bind fun r => ?_
              obtain ⟨out, consumed⟩ := filled
              dsimp only
              split_ifs
              · refine (Private.pure _).bind fun sent => ?_
                cases sent with
                | error e => exact .pure _
                | ok u => exact (setPos_private _ _).bind fun _ => .pure _
              · refine (Private.onMachine _).bind fun sent => ?_
                cases sent with
                | error e => exact .pure _
                | ok u => exact (setPos_private _ _).bind fun _ => .pure _

theorem sysGetpid_private : Private cur sysGetpid := Private.currentInfo.bind fun _ => .pure _

/-- A call that ends with a copy to its caller. -/
theorem copyOut_private {α : Type} (x : MachineM (Except String Unit)) (a b : α) :
    Private cur (do
      match ← onMachine x with
      | .error _ => return a
      | .ok _ => return b) := by
  refine (Private.onMachine x).bind fun r => ?_
  cases r with
  | error e => exact .pure _
  | ok u => exact .pure _

theorem sysSchedSetaffinity_private : Private cur (sysSchedSetaffinity tf) := by
  unfold sysSchedSetaffinity
  split_ifs
  · exact .pure _
  · refine Private.currentInfo.bind fun r => (Private.onMachine _).bind fun bytes => ?_
    cases bytes with
    | error e => exact .pure _
    | ok bytes =>
      refine .get fun k hk => (Private.slotAt _).bind fun o => ?_
      subst hk
      cases o with
      | none => exact .pure _
      | some p => exact (Private.setProc _).bind fun _ => .pure _

theorem sysSchedGetaffinity_private : Private cur (sysSchedGetaffinity tf) := by
  unfold sysSchedGetaffinity
  split_ifs
  · exact .pure _
  · exact .get fun k hk => (Private.slotAt _).bind fun o => Private.currentInfo.bind fun r =>
      copyOut_private _ _ _

theorem sysSysinfo_private : Private cur (sysSysinfo tf) :=
  .get fun _ _ => (Private.ofExcept _).bind fun _ => Private.currentInfo.bind fun _ =>
    copyOut_private _ _ _

theorem sysProclist_private : Private cur (sysProclist tf) :=
  .get fun _ _ => (Private.ofExcept _).bind fun _ => Private.currentInfo.bind fun _ =>
    copyOut_private _ _ _

theorem sysMmap_private : Private cur (sysMmap tf) := by
  unfold sysMmap
  dsimp only
  split_ifs
  · exact .pure _
  · refine .get fun k hk => (Private.procAt _).bind fun p => (Private.ofExcept _).bind fun size =>
      (Private.ofExcept _).bind fun next => ?_
    subst hk
    refine (Private.setProc _).bind fun _ => (Private.onMachineFor _ _).bind fun res => ?_
    cases res with
    | ok u => exact .pure _
    | error e => exact .pure _

theorem sysMunmap_private : Private cur (sysMunmap tf) := by
  unfold sysMunmap
  dsimp only
  split_ifs
  · exact .pure _
  · exact Private.currentInfo.bind fun _ => (Private.onMachine _).bind fun _ => .pure _

/-! Sockets. -/

theorem socketIdx_private (fd : ℕ) : Private cur (socketIdx fd) := by
  unfold socketIdx
  split_ifs
  · exact .pure _
  · refine .get fun k _ => (Private.slotAt _).bind fun o => ?_
    cases o with
    | none => exact .pure _
    | some p =>
      dsimp only
      split <;> exact .pure _

theorem sysSocket_private : Private cur (sysSocket tf) := by
  unfold sysSocket
  split_ifs
  · exact .pure _
  · refine .get fun k hk => ?_
    cases k.net.sockets.alloc with
    | none => exact .pure _
    | some r =>
      refine .modify_bind (fun _ => rfl) (fun _ => rfl) (fun _ => rfl) ?_
      unfold installFd
      refine .get fun k' hk' => (Private.slotAt _).bind fun o => ?_
      subst hk'
      cases o with
      | none => exact .pure _
      | some p => exact (Private.setProc _).bind fun _ => .pure _

theorem socketBind_private (idx port : ℕ) : Private cur (socketBind idx port) := by
  intro k hk
  unfold socketBind
  rw [Prog.wp_bind, Prog.wp_get, Prog.wp_bind, Prog.wp_set, Prog.wp_pure]
  exact .congr rfl rfl rfl

theorem sysBind_private : Private cur (sysBind tf) := by
  unfold sysBind
  refine (socketIdx_private _).bind fun o => ?_
  cases o with
  | none => exact .pure _
  | some idx =>
    dsimp only
    split_ifs
    · exact .pure _
    · refine Private.currentInfo.bind fun r => (Private.onMachine _).bind fun sa => ?_
      cases sa with
      | error e => exact .pure _
      | ok sa =>
        refine (socketBind_private _ _).bind fun o => ?_
        cases o with
        | none => exact .pure _
        | some port => exact .pure _

theorem autoBind_private (idx : ℕ) : Private cur (autoBind idx) := by
  unfold autoBind
  refine .get fun k _ => ?_
  dsimp only
  split_ifs
  · exact socketBind_private _ _
  · exact .pure _

theorem sysSendto_private : Private cur (sysSendto io tf) := by
  unfold sysSendto
  refine (socketIdx_private _).bind fun o => ?_
  cases o with
  | none => exact .pure _
  | some idx =>
    dsimp only
    split_ifs
    · exact .pure _
    · exact .pure _
    · refine Private.currentInfo.bind fun r => (Private.onMachine _).bind fun sa => ?_
      cases sa with
      | error e => exact .pure _
      | ok sa =>
        refine (autoBind_private idx).bind fun o => ?_
        cases o with
        | none => exact .pure _
        | some srcPort =>
          refine (Private.onMachine _).bind fun payload => ?_
          cases payload with
          | error e => exact .pure _
          | ok payload =>
            refine (Private.onNet _).bind fun res => ?_
            cases res with
            | error e => exact .pure _
            | ok u => exact .pure _

theorem sysRecvfrom_private : Private cur (sysRecvfrom io tf) := by
  unfold sysRecvfrom
  refine (socketIdx_private _).bind fun o => ?_
  cases o with
  | none => exact .pure _
  | some idx =>
    refine (Private.onNet _).bind fun o => ?_
    cases o with
    | none => exact .pure _
    | some d =>
      refine Private.currentInfo.bind fun r => (Private.onMachine _).bind fun res => ?_
      cases res with
      | error e => exact .pure _
      | ok u =>
        dsimp only
        split_ifs
        · exact (Private.onMachine _).bind fun _ => .pure _
        · exact (Private.pure _).bind fun _ => .pure _

/-! Processes. -/

theorem execCurrent_private (disk : Disk) (name : List UInt8) : Private cur (execCurrent disk name) := by
  unfold execCurrent
  refine .get fun _ _ => (Private.ofExcept _).bind fun o => ?_
  cases o with
  | none => exact .pure _
  | some image =>
    refine .get fun k hk => (Private.procAt _).bind fun caller => ?_
    subst hk
    refine (Private.onMachineFor _ _).bind fun res => ?_
    cases res with
    | error e => exact .pure _
    | ok built =>
      exact (Private.procAt _).bind fun p => (Private.onMachine _).bind fun _ =>
        (Private.onMachine _).bind fun _ => (Private.setProc _).bind fun _ =>
          (Private.setFrame _ _).bind fun _ => .pure _

theorem sysExecve_private : Private cur (sysExecve io tf) := by
  unfold sysExecve
  refine Private.currentInfo.bind fun r => (Private.onMachine _).bind fun name => ?_
  cases name with
  | error e => exact .pure _
  | ok name => exact execCurrent_private _ _

/-- The slot of the child was free. -/
theorem sysFork_private : Private cur (sysFork tf) := by
  unfold sysFork forkCurrent
  refine .of_ok fun k r k' hcur h => ?_
  rw [Prog.get_bind_ok] at h
  dsimp only at h
  cases hslot : k.procs.position (·.isNone) with
  | none =>
    rw [hslot] at h
    obtain rfl := Prog.pure_state h
    exact .refl _
  | some slot =>
    have hfree : k.procs.slots slot = none := by simpa using (position_some hslot).2
    rw [hslot] at h
    dsimp only at h
    rw [procAt_bind] at h
    obtain ⟨p, -, hp, h⟩ := h
    obtain ⟨o, k₁, h1, h⟩ := Prog.bind_ok.mp h
    obtain ⟨m1, -, rfl⟩ := onMachineFor_ok.mp h1
    cases o with
    | none =>
      obtain rfl := Prog.pure_state h
      exact .congr rfl rfl rfl
    | some root =>
      obtain ⟨res, k₁, h2, h⟩ := Prog.bind_ok.mp h
      obtain ⟨m2, -, rfl⟩ := onMachine_ok.mp h2
      cases res with
      | error err =>
        obtain ⟨_, k₁, h3, h⟩ := Prog.bind_ok.mp h
        obtain ⟨m3, -, rfl⟩ := onMachine_ok.mp h3
        obtain ⟨_, k₁, h4, h⟩ := Prog.bind_ok.mp h
        obtain ⟨m4, -, rfl⟩ := onMachine_ok.mp h4
        obtain rfl := Prog.pure_state h
        exact .congr rfl rfl rfl
      | ok u =>
        obtain ⟨next, k₁, h3, h⟩ := Prog.bind_ok.mp h
        obtain ⟨-, rfl⟩ := Prog.ofExcept_ok.mp h3
        rw [Prog.modify_bind_ok, setFrame_bind, setProc_bind, record_bind] at h
        obtain rfl := Prog.pure_state h
        refine ⟨rfl, rfl, fun i hi => ?_⟩
        by_cases he : i = slot
        · subst he
          exact .inr ⟨hfree, _, if_pos rfl, rfl⟩
        · exact .inl (if_neg he)

/-- The calls that always come back to their caller, and a read of anything but the
console. -/
theorem syscall_private {no : Sysno} (hexit : no ≠ .exit) (hwait : no ≠ .wait4)
    (hread : no = .read → toIsize tf.a0 ≠ 0) : Private cur (syscall io tf no) := by
  cases no with
  | write => exact sysWrite_private.map some
  | read =>
    change Private cur (sysRead io tf)
    unfold sysRead
    dsimp only
    split_ifs with h1 h2 h3
    · exact (fileRead_private _ _ _).bind fun _ => .pure _
    · exact .pure _
    · exact absurd (not_not.mp h2) (hread rfl)
    · exact absurd (not_not.mp h2) (hread rfl)
  | openat => exact sysOpenat_private.map some
  | close => exact sysClose_private.map some
  | getdents64 => exact sysGetdents64_private.map some
  | schedSetaffinity => exact sysSchedSetaffinity_private.map some
  | schedGetaffinity => exact sysSchedGetaffinity_private.map some
  | exit => exact absurd rfl hexit
  | getpid => exact sysGetpid_private.map some
  | clone => exact sysFork_private.map some
  | execve => exact sysExecve_private.map some
  | wait4 => exact absurd rfl hwait
  | mmap => exact sysMmap_private.map some
  | munmap => exact sysMunmap_private.map some
  | sysinfo => exact sysSysinfo_private.map some
  | reboot => exact (Private.stop _).map some
  | proclist => exact sysProclist_private.map some
  | socket => exact sysSocket_private.map some
  | bind => exact sysBind_private.map some
  | sendto => exact sysSendto_private.map some
  | recvfrom => exact sysRecvfrom_private.map some
  | unknown => exact .pure _

end Calls

end LightOS
