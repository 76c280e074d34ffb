import LightOS.Recycled
import LightOS.Shapes

/-!
# Kernels that differ only in free frames

Two kernels that differ only in the contents of free frames take the same steps: every
system call and every trap gives the same results, the same faults and again two such
kernels.
-/
namespace LightOS
open Lib

/-- The kernels differ only in the contents of free frames. -/
def Twin (k k' : Kernel) : Prop := ∃ m', SameInUse k.machine m' ∧ k' = { k with machine := m' }

/-- The program cannot tell the kernel from its twin. -/
abbrev Same {α : Type} (x : KernelM α) (k k' : Kernel) : Prop := Prog.Alike Twin (x k) (x k')

section Primitives

variable {α : Type} {role : ℕ → Role} {k k' k1 : Kernel} {p : Process} {r : ℕ}

theorem Twin.procs (h : Twin k k') : k'.procs = k.procs := by
  obtain ⟨m', -, rfl⟩ := h
  rfl

theorem Twin.current (h : Twin k k') : k'.current = k.current := by
  obtain ⟨m', -, rfl⟩ := h
  rfl

theorem Twin.frames (h : Twin k k') : k'.frames = k.frames := by
  obtain ⟨m', -, rfl⟩ := h
  rfl

/-- A change that does not concern the machine. -/
theorem modify_same {f : Kernel → Kernel} (hf : ∀ k m, f { k with machine := m } = { f k with machine := m })
    (h : Twin k k') : Same (modify f) k k' := by
  obtain ⟨m', hs, rfl⟩ := h
  refine .update ⟨m', ?_, hf k m'⟩
  have hm := congrArg Kernel.machine (hf k k.machine)
  change (f k).machine = k.machine at hm
  rw [hm]
  exact hs

theorem onMachine_same {x : MachineM α}
    (hx : ∀ m', SameInUse k.machine m' → Prog.Alike SameInUse (x k.machine) (x m'))
    (h : Twin k k') : Same (onMachine x) k k' := by
  obtain ⟨m', hs, rfl⟩ := h
  exact .zoom (hx m' hs) fun m1 m1' h1 => ⟨m1', h1, rfl⟩

theorem onMachineFor_same {x : MachineM α} {pid : ℕ}
    (hx : ∀ m', SameInUse { k.machine with account := pid } m' →
      Prog.Alike SameInUse (x { k.machine with account := pid }) (x m'))
    (h : Twin k k') : Same (onMachineFor pid x) k k' := by
  unfold onMachineFor
  refine Prog.Alike.bind (onMachine_same (fun m' hs => .update (hs.setAccount pid)) h) ?_
  intro _ k1 k1' hk1 h1
  obtain ⟨m1, hm1, rfl⟩ := onMachine_ok.mp hk1
  obtain rfl : m1 = { k.machine with account := pid } := Prog.modify_ok.mp hm1
  exact onMachine_same hx h1

theorem onNet_same (x : NetM α) (h : Twin k k') : Same (onNet x) k k' := by
  obtain ⟨m', hs, rfl⟩ := h
  unfold Same onNet Prog.zoom
  dsimp only
  cases x k.net with
  | ok a => exact .ok _ ⟨m', hs, rfl⟩
  | error e => exact .error e

theorem slotAt_same (i : ℕ) (h : Twin k k') : Same (slotAt i) k k' := by
  unfold Same slotAt
  split_ifs
  · refine .get_bind ?_
    rw [h.procs]
    exact .pure _ h
  · exact .stop _

theorem procAt_same (i : ℕ) (h : Twin k k') : Same (procAt i) k k' := by
  refine (slotAt_same i h).bind fun o k1 k1' _ h1 => ?_
  cases o with
  | none => exact .stop _
  | some p => exact .pure _ h1

theorem setProc_same (i : ℕ) (p : Option Process) (h : Twin k k') : Same (setProc i p) k k' :=
  modify_same (fun _ _ => rfl) h

theorem setFrame_same (i : ℕ) (tf : TrapFrame) (h : Twin k k') : Same (setFrame i tf) k k' :=
  modify_same (fun _ _ => rfl) h

theorem record_same (e : ProcEvent) (h : Twin k k') : Same (record e) k k' :=
  modify_same (fun _ _ => rfl) h

theorem currentInfo_same (h : Twin k k') : Same currentInfo k k' := by
  refine .get_bind ?_
  rw [h.current]
  exact (procAt_same _ h).bind fun p k1 k1' _ h1 => .pure _ h1

/-- The current process has a root. -/
theorem currentInfo_root {r : ℕ × ℕ} (hm : Memory role k) (h : currentInfo k = .ok (r, k1)) :
    k1 = k ∧ role r.1 = .root := by
  obtain ⟨p, -, hp, rfl, rfl⟩ := currentInfo_ok.mp h
  exact ⟨rfl, hm.root _ p hp⟩

theorem copyOut_same (uva : ℕ) (bs : List UInt8) (hm : Memory role k) (hr : role r = .root)
    (h : Twin k k') : Same (onMachine (copyOut r uva bs)) k k' :=
  onMachine_same (fun _ hs => copyOut_alike uva bs hm.good hr hs) h

theorem copyIn_same (uva len : ℕ) (hm : Memory role k) (hr : role r = .root) (h : Twin k k') :
    Same (onMachine (copyIn r uva len)) k k' :=
  onMachine_same (fun _ hs => copyIn_alike uva len hm.good hr hs) h

theorem copyInCstr_same (uva len : ℕ) (hm : Memory role k) (hr : role r = .root) (h : Twin k k') :
    Same (onMachine (copyInCstr r uva len)) k k' :=
  onMachine_same (fun _ hs => copyInCstr_alike uva len hm.good hr hs) h

end Primitives

/-! ### Scheduling -/

section Scheduling

variable {k k' : Kernel}

theorem enterUser_same (slot : ℕ) (h : Twin k k') : Same (enterUser slot) k k' := by
  obtain ⟨m', hs, rfl⟩ := h
  exact .get_bind (setFrame_same _ _ ⟨m', hs, rfl⟩)

theorem pickNext_same (h : Twin k k') : Same pickNext k k' := by
  unfold Same pickNext
  refine .get_bind ?_
  rw [h.procs]
  cases (pickOrder k.procs.lastRun).find? fun i => (k.procs.slots i).any (·.state = .ready) with
  | none => exact .pure _ h
  | some slot =>
    refine (procAt_same slot h).bind fun p k1 k1' _ h1 => ?_
    refine (setProc_same _ _ h1).bind fun _ k2 k2' _ h2 => ?_
    exact (modify_same (fun _ _ => rfl) h2).bind fun _ k3 k3' _ h3 => .pure _ h3

theorem schedule_same (h : Twin k k') : Same schedule k k' := by
  refine (pickNext_same h).bind fun o k1 k1' _ h1 => ?_
  cases o with
  | none => exact .pure _ h1
  | some slot =>
    exact (modify_same (fun _ _ => rfl) h1).bind fun _ k2 k2' _ h2 => enterUser_same slot h2

theorem park_same (h : Twin k k') : Same park k k' :=
  (modify_same (fun _ _ => rfl) h).bind fun _ _ _ _ h1 => schedule_same h1

theorem yieldCurrent_same (h : Twin k k') : Same yieldCurrent k k' := by
  unfold Same yieldCurrent
  refine .get_bind ?_
  rw [h.current]
  refine (slotAt_same _ h).bind fun o k1 k1' _ h1 => ?_
  cases o with
  | none => exact park_same h1
  | some p =>
    dsimp only
    split_ifs
    · exact (setProc_same _ _ h1).bind fun _ k2 k2' _ h2 => park_same h2
    · exact park_same h1

theorem resumeCurrent_same (h : Twin k k') : Same resumeCurrent k k' := by
  refine .get_bind ?_
  rw [h.current]
  exact (procAt_same _ h).bind fun p k1 k1' _ h1 => enterUser_same _ h1

end Scheduling

/-! ### System calls -/

section Calls

variable {role : ℕ → Role} {k k' k1 : Kernel} {p : Process} {r : ℕ} {io : Io} {tf : TrapFrame}

theorem setPos_same (cur fd pos : ℕ) (h : Twin k k') : Same (setPos cur fd pos) k k' := by
  refine (procAt_same cur h).bind fun p k1 k1' _ h1 => ?_
  cases p.file fd with
  | none => exact .pure _ h1
  | some f => exact setProc_same _ _ h1

theorem writeConsole_same {uva len : ℕ} (hm : Memory role k) (hr : role r = .root) (h : Twin k k') :
    Same (writeConsole r uva len) k k' := by
  refine Prog.Alike.bind (onMachine_same (fun m' hs => ?_) h) fun res k1 k1' _ h1 => ?_
  · refine .tryEach (fun _ m => Good role m) ?_ ?_ _ hm.good hs
    · intro i is m m' hg hs
      refine .ofExcept_bind fun va _ => ?_
      refine (copyIn_alike va _ hg hr hs).bind fun res m1 m1' _ h1 => ?_
      cases res with
      | error e => exact .pure _ h1
      | ok bs => exact .pure _ h1
    · intro i is m m1 hg hi
      obtain ⟨va, m2, hva, hrest⟩ := Prog.bind_ok.mp hi
      obtain ⟨-, rfl⟩ := Prog.ofExcept_ok.mp hva
      obtain ⟨res, m3, hc, hpure⟩ := Prog.bind_ok.mp hrest
      obtain ⟨rfl, -⟩ := (copyIn_spec va _ hg hr).ok hc
      obtain rfl : m1 = m3 := by
        cases res with
        | error e => exact Prog.pure_state hpure
        | ok bs => exact Prog.pure_state hpure
      exact hg
  · cases res with
    | error e => exact .pure _ h1
    | ok u => exact .pure _ h1

theorem nceWrite_same {fd uva len : ℕ} (hm : Memory role k) (h : Twin k k') :
    Same (nceWrite fd uva len) k k' := by
  obtain ⟨m', hs, rfl⟩ := h
  refine .get_bind ?_
  refine (procAt_same _ ⟨m', hs, rfl⟩).bind fun p k1 k1' hp h1 => ?_
  obtain ⟨-, hp, rfl⟩ := procAt_ok.mp hp
  cases p.file fd with
  | none => exact .pure _ h1
  | some f =>
    dsimp only
    cases f.kind with
    | file ino => exact .pure _ h1
    | socket idx serial => exact .pure _ h1
    | nce slot =>
      refine (currentInfo_same h1).bind fun c k2 k2' hc h2 => ?_
      obtain ⟨rfl, hr⟩ := currentInfo_root hm hc
      refine (copyIn_same uva _ hm hr h2).bind fun res k3 k3' _ h3 => ?_
      cases res with
      | error e => exact .pure _ h3
      | ok text =>
        dsimp only
        split_ifs
        · exact .pure _ h3
        · cases PowerState.parse text with
          | none => exact .pure _ h3
          | some state =>
            dsimp only
            cases Nce.setPower k2.nces slot state with
            | error e => exact .pure _ h3
            | ok nces =>
              exact (modify_same (fun _ _ => rfl) h3).bind fun _ k4 k4' _ h4 => .pure _ h4

theorem sysWrite_same (hm : Memory role k) (h : Twin k k') : Same (sysWrite tf) k k' := by
  unfold Same sysWrite
  dsimp only
  split_ifs
  · refine (currentInfo_same h).bind fun c k1 k1' hc h1 => ?_
    obtain ⟨rfl, hr⟩ := currentInfo_root hm hc
    exact writeConsole_same hm hr h1
  · exact nceWrite_same hm h
  · exact .pure _ h

theorem nceRead_same {fd slot pos uva len : ℕ} (hm : Memory role k) (h : Twin k k') :
    Same (nceRead fd slot pos uva len) k k' := by
  obtain ⟨m', hs, rfl⟩ := h
  have h : Twin k { k with machine := m' } := ⟨m', hs, rfl⟩
  refine .get_bind ?_
  dsimp only
  cases Nce.describe k.nces slot with
  | none => exact .pure _ h
  | some bytes =>
    dsimp only
    split_ifs
    · exact .pure _ h
    · refine (currentInfo_same h).bind fun c k1 k1' hc h1 => ?_
      obtain ⟨rfl, hr⟩ := currentInfo_root hm hc
      refine (copyOut_same uva _ hm hr h1).bind fun res k2 k2' _ h2 => ?_
      cases res with
      | error e => exact .pure _ h2
      | ok u =>
        refine .ofExcept_bind fun newPos _ => ?_
        exact (setPos_same _ _ _ h2).bind fun _ k3 k3' _ h3 => .pure _ h3

theorem fileRead_same {fd uva len : ℕ} (hm : Memory role k) (h : Twin k k') :
    Same (fileRead io fd uva len) k k' := by
  obtain ⟨m', hs, rfl⟩ := h
  refine .get_bind ?_
  refine (procAt_same _ ⟨m', hs, rfl⟩).bind fun p k1 k1' hp h1 => ?_
  obtain ⟨-, hp, rfl⟩ := procAt_ok.mp hp
  cases p.file fd with
  | none => exact .pure _ h1
  | some f =>
    dsimp only
    cases f.kind with
    | socket idx serial => exact .pure _ h1
    | nce slot => exact nceRead_same hm h1
    | file ino =>
      refine .ofExcept_bind fun res _ => ?_
      cases res with
      | error e => exact .pure _ h1
      | ok inode =>
        dsimp only
        split_ifs
        · exact .pure _ h1
        · refine (currentInfo_same h1).bind fun c k2 k2' hc h2 => ?_
          obtain ⟨rfl, hr⟩ := currentInfo_root hm hc
          refine Prog.Alike.bind (onMachine_same
            (fun _ hs => fileReadLoop_alike _ _ _ hm.good hr hs) h2) fun res k3 k3' _ h3 => ?_
          cases res with
          | error e => exact .pure _ h3
          | ok done =>
            refine .ofExcept_bind fun newPos _ => ?_
            exact (setPos_same _ _ _ h3).bind fun _ k4 k4' _ h4 => .pure _ h4

theorem blockOnConsole_same {uva len : ℕ} (h : Twin k k') : Same (blockOnConsole uva len) k k' := by
  refine .get_bind ?_
  rw [h.current]
  refine (procAt_same _ h).bind fun p k1 k1' _ h1 => ?_
  exact (setProc_same _ _ h1).bind fun _ k2 k2' _ h2 => park_same h2

theorem sysRead_same (hm : Memory role k) (h : Twin k k') : Same (sysRead io tf) k k' := by
  unfold Same sysRead
  dsimp only
  split_ifs
  · exact (fileRead_same hm h).bind fun res k1 k1' _ h1 => .pure _ h1
  · exact .pure _ h
  · exact .pure _ h
  · obtain ⟨m', hs, rfl⟩ := h
    refine .get_bind ?_
    dsimp only
    refine (modify_same (fun _ _ => rfl) ⟨m', hs, rfl⟩).bind fun _ k1 k1' hk1 h1 => ?_
    have hk1 : k1 = _ := Prog.modify_ok.mp hk1
    split_ifs
    · exact (blockOnConsole_same h1).bind fun _ k2 k2' _ h2 => .pure _ h2
    · have hm1 : Memory role k1 := hm.congr (by rw [hk1]) (by rw [hk1]) (by rw [hk1])
      refine (currentInfo_same h1).bind fun c k2 k2' hc h2 => ?_
      obtain ⟨rfl, hr⟩ := currentInfo_root hm1 hc
      refine (copyOut_same _ _ hm1 hr h2).bind fun res k3 k3' _ h3 => ?_
      cases res with
      | error e => exact .pure _ h3
      | ok u => exact .pure _ h3

theorem sysOpenat_same (hm : Memory role k) (h : Twin k k') : Same (sysOpenat io tf) k k' := by
  refine (currentInfo_same h).bind fun c k1 k1' hc h1 => ?_
  obtain ⟨rfl, hr⟩ := currentInfo_root hm hc
  refine (copyInCstr_same _ _ hm hr h1).bind fun res k2 k2' _ h2 => ?_
  cases res with
  | error e => exact .pure _ h2
  | ok path =>
    obtain ⟨m', hs, rfl⟩ := h2
    have h2 : Twin k2 { k2 with machine := m' } := ⟨m', hs, rfl⟩
    refine .get_bind ?_
    dsimp only
    refine .ofExcept_bind fun kind _ => ?_
    cases kind with
    | error e => exact .pure _ h2
    | ok kind =>
      refine (procAt_same _ h2).bind fun p k3 k3' _ h3 => ?_
      exact (setProc_same _ _ h3).bind fun _ k4 k4' _ h4 => .pure _ h4

theorem sysClose_same (h : Twin k k') : Same (sysClose tf) k k' := by
  unfold Same sysClose
  dsimp only
  split_ifs
  · exact .pure _ h
  · refine .get_bind ?_
    rw [h.current]
    refine (procAt_same _ h).bind fun p k1 k1' _ h1 => ?_
    cases p.file (toIsize tf.a0).toNat with
    | none => exact .pure _ h1
    | some f =>
      dsimp only
      cases f.kind with
      | file ino => exact (setProc_same _ _ h1).bind fun _ k2 k2' _ h2 => .pure _ h2
      | nce slot => exact (setProc_same _ _ h1).bind fun _ k2 k2' _ h2 => .pure _ h2
      | socket idx serial =>
        refine (modify_same (fun _ _ => rfl) h1).bind fun _ k2 k2' _ h2 => ?_
        exact (setProc_same _ _ h2).bind fun _ k3 k3' _ h3 => .pure _ h3

theorem sysGetdents64_same (hm : Memory role k) (h : Twin k k') :
    Same (sysGetdents64 io tf) k k' := by
  unfold Same sysGetdents64
  dsimp only
  split_ifs
  · exact .pure _ h
  · obtain ⟨m', hs, rfl⟩ := h
    refine .get_bind ?_
    refine (procAt_same _ ⟨m', hs, rfl⟩).bind fun p k1 k1' hp h1 => ?_
    obtain ⟨-, hp, rfl⟩ := procAt_ok.mp hp
    cases p.file tf.a0 with
    | none => exact .pure _ h1
    | some f =>
      dsimp only
      cases f.kind with
      | socket idx serial => exact .pure _ h1
      | nce slot => exact .pure _ h1
      | file ino =>
        refine .ofExcept_bind fun res _ => ?_
        cases res with
        | error e => exact .pure _ h1
        | ok dir =>
          dsimp only
          split_ifs
          · exact .pure _ h1
          · refine .ofExcept_bind fun res _ => ?_
            cases res with
            | error e => exact .pure _ h1
            | ok entries =>
              refine .ofExcept_bind fun out _ => ?_
              refine (currentInfo_same h1).bind fun c k2 k2' hc h2 => ?_
              obtain ⟨rfl, hr⟩ := currentInfo_root hm hc
              split_ifs
              · exact (setPos_same _ _ _ h2).bind fun _ k3 k3' _ h3 => .pure _ h3
              · refine (copyOut_same _ _ hm hr h2).bind fun sent k3 k3' _ h3 => ?_
                cases sent with
                | error e => exact .pure _ h3
                | ok u => exact (setPos_same _ _ _ h3).bind fun _ k4 k4' _ h4 => .pure _ h4

theorem sysGetpid_same (h : Twin k k') : Same sysGetpid k k' :=
  (currentInfo_same h).bind fun _ _ _ _ h1 => .pure _ h1

theorem sysSchedSetaffinity_same (hm : Memory role k) (h : Twin k k') :
    Same (sysSchedSetaffinity tf) k k' := by
  unfold Same sysSchedSetaffinity
  split_ifs
  · exact .pure _ h
  · refine (currentInfo_same h).bind fun c k1 k1' hc h1 => ?_
    obtain ⟨rfl, hr⟩ := currentInfo_root hm hc
    refine (copyIn_same _ _ hm hr h1).bind fun res k2 k2' _ h2 => ?_
    cases res with
    | error e => exact .pure _ h2
    | ok bytes =>
      refine .get_bind ?_
      rw [h2.current]
      refine (slotAt_same _ h2).bind fun o k3 k3' _ h3 => ?_
      cases o with
      | none => exact .pure _ h3
      | some p => exact (setProc_same _ _ h3).bind fun _ k4 k4' _ h4 => .pure _ h4

theorem sysSchedGetaffinity_same (hm : Memory role k) (h : Twin k k') :
    Same (sysSchedGetaffinity tf) k k' := by
  unfold Same sysSchedGetaffinity
  split_ifs
  · exact .pure _ h
  · refine .get_bind ?_
    rw [h.current]
    refine (slotAt_same _ h).bind fun o k1 k1' ho h1 => ?_
    obtain ⟨-, -, rfl⟩ := slotAt_ok.mp ho
    refine (currentInfo_same h1).bind fun c k2 k2' hc h2 => ?_
    obtain ⟨rfl, hr⟩ := currentInfo_root hm hc
    refine (copyOut_same _ _ hm hr h2).bind fun res k3 k3' _ h3 => ?_
    cases res with
    | error e => exact .pure _ h3
    | ok u => exact .pure _ h3

/-- The number of free frames is not a matter of their contents. -/
theorem sysSysinfo_same (hm : Memory role k) (h : Twin k k') : Same (sysSysinfo tf) k k' := by
  obtain ⟨m', hs, rfl⟩ := h
  refine .get_bind ?_
  dsimp only
  rw [hs.pages]
  refine .ofExcept_bind fun free _ => ?_
  refine (currentInfo_same ⟨m', hs, rfl⟩).bind fun c k1 k1' hc h1 => ?_
  obtain ⟨rfl, hr⟩ := currentInfo_root hm hc
  refine (copyOut_same _ _ hm hr h1).bind fun res k2 k2' _ h2 => ?_
  cases res with
  | error e => exact .pure _ h2
  | ok u => exact .pure _ h2

theorem sysProclist_same (hm : Memory role k) (h : Twin k k') : Same (sysProclist tf) k k' := by
  refine .get_bind ?_
  rw [h.procs]
  refine .ofExcept_bind fun bytes _ => ?_
  refine (currentInfo_same h).bind fun c k1 k1' hc h1 => ?_
  obtain ⟨rfl, hr⟩ := currentInfo_root hm hc
  refine (copyOut_same _ _ hm hr h1).bind fun res k2 k2' _ h2 => ?_
  cases res with
  | error e => exact .pure _ h2
  | ok u => exact .pure _ h2

theorem socketIdx_same (fd : ℕ) (h : Twin k k') : Same (socketIdx fd) k k' := by
  unfold Same socketIdx
  split_ifs
  · exact .pure _ h
  · refine .get_bind ?_
    rw [h.current]
    refine (slotAt_same _ h).bind fun o k1 k1' _ h1 => ?_
    cases o with
    | none => exact .pure _ h1
    | some p =>
      dsimp only
      rcases p.file fd with _ | ⟨kind, pos⟩
      · exact .pure _ h1
      · cases kind with
        | file ino => exact .pure _ h1
        | nce slot => exact .pure _ h1
        | socket idx serial => exact .pure _ h1

theorem sysSocket_same (h : Twin k k') : Same (sysSocket tf) k k' := by
  unfold Same sysSocket
  split_ifs
  · exact .pure _ h
  · obtain ⟨m', hs, rfl⟩ := h
    have h : Twin k { k with machine := m' } := ⟨m', hs, rfl⟩
    refine .get_bind ?_
    dsimp only
    cases k.net.sockets.alloc with
    | none => exact .pure _ h
    | some a =>
      refine (modify_same (fun _ _ => rfl) h).bind fun _ k1 k1' _ h1 => ?_
      refine .get_bind ?_
      rw [h1.current]
      refine (slotAt_same _ h1).bind fun o k2 k2' _ h2 => ?_
      cases o with
      | none => exact .pure _ h2
      | some p => exact (setProc_same _ _ h2).bind fun _ k3 k3' _ h3 => .pure _ h3

theorem socketBind_same (idx port : ℕ) (h : Twin k k') : Same (socketBind idx port) k k' := by
  obtain ⟨m', hs, rfl⟩ := h
  exact .get_bind (.set_bind (.pure _ ⟨m', hs, rfl⟩))

/-- Looking up the socket behind a descriptor changes nothing. -/
theorem socketIdx_ok {fd : ℕ} {o : Option ℕ} (h : socketIdx fd k = .ok (o, k1)) : k1 = k := by
  unfold socketIdx at h
  split_ifs at h
  · exact Prog.pure_state h
  · rw [Prog.get_bind_ok] at h
    obtain ⟨s, k2, hs, hrest⟩ := Prog.bind_ok.mp h
    obtain ⟨-, -, rfl⟩ := slotAt_ok.mp hs
    cases s with
    | none => exact Prog.pure_state hrest
    | some p =>
      dsimp only at hrest
      generalize p.file fd = f at hrest
      rcases f with _ | ⟨kind, pos⟩
      · exact Prog.pure_state hrest
      · cases kind with
        | file ino => exact Prog.pure_state hrest
        | nce slot => exact Prog.pure_state hrest
        | socket idx serial => exact Prog.pure_state hrest

theorem sysBind_same (hm : Memory role k) (h : Twin k k') : Same (sysBind tf) k k' := by
  refine (socketIdx_same _ h).bind fun o k1 k1' ho h1 => ?_
  obtain rfl := socketIdx_ok ho
  cases o with
  | none => exact .pure _ h1
  | some idx =>
    dsimp only
    split_ifs
    · exact .pure _ h1
    · refine (currentInfo_same h1).bind fun c k2 k2' hc h2 => ?_
      obtain ⟨rfl, hr⟩ := currentInfo_root hm hc
      refine (copyIn_same _ _ hm hr h2).bind fun res k3 k3' _ h3 => ?_
      cases res with
      | error e => exact .pure _ h3
      | ok sa =>
        refine (socketBind_same _ _ h3).bind fun b k4 k4' _ h4 => ?_
        cases b with
        | none => exact .pure _ h4
        | some port => exact .pure _ h4

theorem autoBind_same (idx : ℕ) (h : Twin k k') : Same (autoBind idx) k k' := by
  obtain ⟨m', hs, rfl⟩ := h
  refine .get_bind ?_
  split_ifs
  · exact socketBind_same _ _ ⟨m', hs, rfl⟩
  · exact .pure _ ⟨m', hs, rfl⟩

/-- Binding a port does not concern memory. -/
theorem autoBind_memory {idx : ℕ} {o : Option ℕ} (hm : Memory role k)
    (h : autoBind idx k = .ok (o, k1)) : Memory role k1 := by
  unfold autoBind at h
  rw [Prog.get_bind_ok] at h
  split_ifs at h
  · unfold socketBind at h
    rw [Prog.get_bind_ok, Prog.bind_ok] at h
    obtain ⟨_, k2, hset, hp⟩ := h
    have hk2 := Prog.set_ok.mp hset
    have hk1 := Prog.pure_state hp
    dsimp only at hk2
    rw [hk1, hk2]
    exact hm.congr rfl rfl rfl
  · rw [Prog.pure_state h]
    exact hm

theorem sysSendto_same (hm : Memory role k) (h : Twin k k') : Same (sysSendto io tf) k k' := by
  refine (socketIdx_same _ h).bind fun o k1 k1' ho h1 => ?_
  obtain rfl := socketIdx_ok ho
  cases o with
  | none => exact .pure _ h1
  | some idx =>
    dsimp only
    split_ifs
    · exact .pure _ h1
    · exact .pure _ h1
    · refine (currentInfo_same h1).bind fun c k2 k2' hc h2 => ?_
      obtain ⟨rfl, hr⟩ := currentInfo_root hm hc
      refine (copyIn_same _ _ hm hr h2).bind fun res k3 k3' hin h3 => ?_
      obtain ⟨m3, hm3, rfl⟩ := onMachine_ok.mp hin
      obtain ⟨rfl, -⟩ := (copyIn_spec _ _ hm.good hr).ok hm3
      cases res with
      | error e => exact .pure _ h3
      | ok sa =>
        refine (autoBind_same idx h3).bind fun b k4 k4' hb h4 => ?_
        have hm4 := autoBind_memory hm hb
        cases b with
        | none => exact .pure _ h4
        | some port =>
          refine (copyIn_same _ _ hm4 hr h4).bind fun res k5 k5' _ h5 => ?_
          cases res with
          | error e => exact .pure _ h5
          | ok payload =>
            refine (onNet_same _ h5).bind fun res k6 k6' _ h6 => ?_
            cases res with
            | ok u => exact .pure _ h6
            | error e => exact .pure _ h6

theorem sysRecvfrom_same (hm : Memory role k) (h : Twin k k') : Same (sysRecvfrom io tf) k k' := by
  refine (socketIdx_same _ h).bind fun o k1 k1' ho h1 => ?_
  obtain rfl := socketIdx_ok ho
  cases o with
  | none => exact .pure _ h1
  | some idx =>
    refine (onNet_same _ h1).bind fun d k2 k2' hd h2 => ?_
    obtain ⟨n, -, rfl⟩ := onNet_ok.mp hd
    have hm2 : Memory role { k1 with net := n } := hm.congr rfl rfl rfl
    cases d with
    | none => exact .pure _ h2
    | some d =>
      refine (currentInfo_same h2).bind fun c k3 k3' hc h3 => ?_
      obtain ⟨rfl, hr⟩ := currentInfo_root hm2 hc
      refine (copyOut_same _ _ hm2 hr h3).bind fun res k4 k4' hout h4 => ?_
      obtain ⟨m4, hcopy, rfl⟩ := onMachine_ok.mp hout
      have hm4 := hm2.dataOnly ((copyOut_spec _ _ hm2.good hr).ok hcopy)
      cases res with
      | error e => exact .pure _ h4
      | ok u =>
        dsimp only
        split_ifs
        · exact (copyOut_same _ _ hm4 hr h4).bind fun _ k5 k5' _ h5 => .pure _ h5
        · exact .pure _ h4

theorem completeWait_same (par child : ℕ) (hm : Memory role k) (h : Twin k k') :
    Same (completeWait par child) k k' := by
  refine (procAt_same child h).bind fun c k1 k1' hc h1 => ?_
  obtain ⟨-, hc, rfl⟩ := procAt_ok.mp hc
  refine (procAt_same par h1).bind fun p k2 k2' hp h2 => ?_
  obtain ⟨-, hp, rfl⟩ := procAt_ok.mp hp
  refine (setProc_same _ _ h2).bind fun _ k3 k3' hset h3 => ?_
  obtain rfl := setProc_ok.mp hset
  have hm3 : Memory role (k2.setSlot par (some { p with state := .ready })) :=
    hm.setSlot hp rfl rfl (fun h => h) rfl rfl
  have rest : ∀ k4 k4', Twin k4 k4' → Same (do
      setFrame par (((← get).frames par).setA0 c.pid)
      onMachine (pageFree c.rootPa 1)
      setProc child none
      record (.reaped p.pid c.pid)) k4 k4' := by
    intro k4 k4' h4
    refine .get_bind ?_
    rw [h4.frames]
    refine (setFrame_same _ _ h4).bind fun _ k5 k5' _ h5 => ?_
    refine Prog.Alike.bind (onMachine_same (fun _ hs => pageFree_alike _ _ hs) h5)
      fun _ k6 k6' _ h6 => ?_
    exact (setProc_same _ _ h6).bind fun _ k7 k7' _ h7 => record_same _ h7
  dsimp only
  split_ifs
  · exact (copyOut_same _ _ hm3 (hm.root _ p hp) h3).bind fun _ k4 k4' _ h4 => rest k4 k4' h4
  · exact rest _ _ h3

theorem exitCurrent_same (code : ℤ) (hm : Memory role k) (h : Twin k k') :
    Same (exitCurrent code) k k' := by
  unfold Same exitCurrent
  refine .get_bind ?_
  rw [h.current]
  refine (procAt_same _ h).bind fun p k1 k1' hp h1 => ?_
  obtain ⟨-, hp, rfl⟩ := procAt_ok.mp hp
  by_cases hpid : p.pid = 1
  · rw [if_pos hpid]
    exact Prog.Alike.bind (R := Twin) (.stop _) fun _ _ _ hstop _ => (Prog.stop_ok.mp hstop).elim
  rw [if_neg hpid]
  have hroot := hm.root _ p hp
  refine Prog.Alike.bind (onMachine_same (fun _ hs => freeUserSpace_alike hm.good hroot hs) h1)
    fun _ k2 k2' hrun h2 => ?_
  obtain ⟨m1, hfree, rfl⟩ := onMachine_ok.mp hrun
  refine .get_bind ?_
  rw [h2.procs]
  refine (modify_same (fun _ _ => rfl) h2).bind fun _ k3 k3' hk3 h3 => ?_
  obtain rfl := Prog.modify_ok.mp hk3
  refine (procAt_same _ h3).bind fun q k4 k4' hlook h4 => ?_
  obtain ⟨-, hq, rfl⟩ := procAt_ok.mp hlook
  obtain rfl : q = adopt k1.current (initSlot k1.procs) p := by
    have hq' : (k1.procs.slots k1.current).map (adopt k1.current (initSlot k1.procs)) = some q := hq
    rw [hp] at hq'
    exact (Option.some.inj hq').symm
  refine (setProc_same _ _ h4).bind fun _ k5 k5' hk5 h5 => ?_
  obtain rfl := setProc_ok.mp hk5
  refine (record_same _ h5).bind fun _ k6 k6' hk6 h6 => ?_
  have hx : Exit code p m1 k1 k6 := ⟨hp, hpid, hfree, record_ok.mp hk6⟩
  obtain ⟨role', -, hm6⟩ := hm.exit hx
  split_ifs
  · refine (slotAt_same _ h6).bind fun o k7 k7' ho h7 => ?_
    obtain ⟨-, -, rfl⟩ := slotAt_ok.mp ho
    cases o with
    | none => exact park_same h7
    | some par =>
      dsimp only
      split_ifs
      · exact (completeWait_same _ _ hm6 h7).bind fun _ k8 k8' _ h8 => park_same h8
      · exact park_same h7
  · exact park_same h6

theorem waitCurrent_same (uva : ℕ) (hm : Memory role k) (h : Twin k k') :
    Same (waitCurrent uva) k k' := by
  obtain ⟨m', hs, rfl⟩ := h
  refine .get_bind ?_
  dsimp only
  refine (procAt_same _ ⟨m', hs, rfl⟩).bind fun p k1 k1' hp h1 => ?_
  obtain ⟨-, hp, rfl⟩ := procAt_ok.mp hp
  cases (waitScan k1.procs k1.current).2 with
  | some child =>
    refine (setProc_same _ _ h1).bind fun _ k2 k2' hset h2 => ?_
    obtain rfl := setProc_ok.mp hset
    have hm2 : Memory role (k1.setSlot k1.current
        (some { p with waitStatusUva := uva, state := .sleepChild })) :=
      hm.setSlot hp rfl rfl (fun h => h) rfl rfl
    exact (completeWait_same _ _ hm2 h2).bind fun _ k3 k3' _ h3 => park_same h3
  | none =>
    dsimp only
    split_ifs
    · exact (setProc_same _ _ h1).bind fun _ k2 k2' _ h2 => park_same h2
    · refine (setProc_same _ _ h1).bind fun _ k2 k2' _ h2 => ?_
      refine (setFrame_same _ _ h2).bind fun _ k3 k3' _ h3 => ?_
      exact (record_same _ h3).bind fun _ k4 k4' _ h4 => park_same h4

theorem forkCurrent_same (hm : Memory role k) (h : Twin k k') : Same (forkCurrent tf) k k' := by
  obtain ⟨m', hs, rfl⟩ := h
  have h : Twin k { k with machine := m' } := ⟨m', hs, rfl⟩
  refine .get_bind ?_
  dsimp only
  cases k.procs.position (·.isNone) with
  | none => exact .pure _ h
  | some slot =>
    refine (procAt_same _ h).bind fun p k1 k1' hp h1 => ?_
    obtain ⟨-, hp, rfl⟩ := procAt_ok.mp hp
    have hg := hm.good.account k1.procs.nextPid
    refine Prog.Alike.bind (onMachineFor_same (fun _ hs => newUserRoot_alike hg hs) h1)
      fun o k2 k2' ho h2 => ?_
    obtain ⟨m1, hnew, rfl⟩ := onMachineFor_ok.mp ho
    have hfresh := (newUserRoot_spec hg).ok hnew
    cases o with
    | none => exact .pure _ h2
    | some r =>
      have hroot := hm.root _ p hp
      have hkeep := (hfresh.keep hg (by simp [hroot])).trans hroot
      refine Prog.Alike.bind (onMachine_same (fun _ hs => cloneUserSpace_alike hfresh.good hkeep
        (FreshRoot.role_self role r) (hm.root_ne hfresh.got.free hp) hs) h2)
        fun res k3 k3' hclone h3 => ?_
      obtain ⟨m2, hcopy, rfl⟩ := onMachine_ok.mp hclone
      obtain ⟨role2, hspace⟩ := hm.fork_effect hp hnew hcopy
      cases res with
      | error e =>
        refine Prog.Alike.bind (onMachine_same (fun _ hs => freeUserSpace_alike
          (hm.newSpace hspace).good hspace.adds.root hs) h3) fun _ k4 k4' _ h4 => ?_
        exact Prog.Alike.bind (onMachine_same (fun _ hs => pageFree_alike _ _ hs) h4)
          fun _ k5 k5' _ h5 => .pure _ h5
      | ok u =>
        refine .ofExcept_bind fun next _ => ?_
        refine (modify_same (fun _ _ => rfl) h3).bind fun _ k4 k4' _ h4 => ?_
        refine (setFrame_same _ _ h4).bind fun _ k5 k5' _ h5 => ?_
        refine (setProc_same _ _ h5).bind fun _ k6 k6' _ h6 => ?_
        exact (record_same _ h6).bind fun _ k7 k7' _ h7 => .pure _ h7

theorem execCurrent_same (disk : Disk) (name : List UInt8) (hm : Memory role k) (h : Twin k k') :
    Same (execCurrent disk name) k k' := by
  obtain ⟨m', hs, rfl⟩ := h
  have h : Twin k { k with machine := m' } := ⟨m', hs, rfl⟩
  refine .get_bind ?_
  dsimp only
  refine .ofExcept_bind fun o _ => ?_
  cases o with
  | none => exact .pure _ h
  | some image =>
    refine .get_bind ?_
    dsimp only
    refine (procAt_same _ h).bind fun p k1 k1' hp h1 => ?_
    obtain ⟨-, hp, rfl⟩ := procAt_ok.mp hp
    refine Prog.Alike.bind (onMachineFor_same
      (fun _ hs => buildAddressSpace_alike (hm.good.account p.pid) hs) h1) fun res k2 k2' hb h2 => ?_
    obtain ⟨m1, hbuild, rfl⟩ := onMachineFor_ok.mp hb
    cases res with
    | error e => exact .pure _ h2
    | ok built =>
      obtain ⟨q, entry, brk⟩ := built
      rcases hm.build_effect hbuild with ⟨-, hf⟩ | ⟨q', vas, ok, role1, hn, -⟩
      · simp [isOk_ok] at hf
      have hm1 := hm.newSpace hn
      refine (procAt_same _ h2).bind fun p' k3 k3' hlook h3 => ?_
      obtain ⟨-, hp', rfl⟩ := procAt_ok.mp hlook
      refine Prog.Alike.bind (onMachine_same (fun _ hs => freeUserSpace_alike hm1.good
        (hm1.root _ p' hp') hs) h3) fun _ k4 k4' _ h4 => ?_
      refine Prog.Alike.bind (onMachine_same (fun _ hs => pageFree_alike _ _ hs) h4)
        fun _ k5 k5' _ h5 => ?_
      refine (setProc_same _ _ h5).bind fun _ k6 k6' _ h6 => ?_
      exact (setFrame_same _ _ h6).bind fun _ k7 k7' _ h7 => .pure _ h7

theorem sysExecve_same (hm : Memory role k) (h : Twin k k') : Same (sysExecve io tf) k k' := by
  refine (currentInfo_same h).bind fun c k1 k1' hc h1 => ?_
  obtain ⟨rfl, hr⟩ := currentInfo_root hm hc
  have ha0 : tf.a0 < usizeBound := UInt64.toNat_lt _
  refine (copyInCstr_same _ _ hm hr h1).bind fun res k2 k2' hin h2 => ?_
  obtain ⟨m2, hname, rfl⟩ := onMachine_ok.mp hin
  obtain rfl := (copyInCstr_spec tf.a0 128 hm.good hr ha0).ok hname
  cases res with
  | error e => exact .pure _ h2
  | ok name => exact execCurrent_same _ _ hm h2

theorem sysMmap_same (hm : Memory role k) (h : Twin k k') : Same (sysMmap tf) k k' := by
  unfold Same sysMmap
  dsimp only
  split_ifs
  · exact .pure _ h
  · refine .get_bind ?_
    rw [h.current]
    refine (procAt_same _ h).bind fun p k1 k1' hp h1 => ?_
    obtain ⟨-, hp, rfl⟩ := procAt_ok.mp hp
    refine .ofExcept_bind fun size _ => .ofExcept_bind fun next _ => ?_
    refine (setProc_same _ _ h1).bind fun _ k2 k2' hset h2 => ?_
    obtain rfl := setProc_ok.mp hset
    have hb : HasRoot p.rootPa { k1.machine with account := p.pid } :=
      .intro (hm.good.account p.pid) (hm.root _ p hp)
    refine Prog.Alike.bind (onMachineFor_same
      (fun _ hs => mmapPages_alike (hm.mmap_aligned _ p hp) hb hs) h2) fun res k3 k3' _ h3 => ?_
    cases res with
    | ok u => exact .pure _ h3
    | error e => exact .pure _ h3

theorem sysMunmap_same (hm : Memory role k)
    (hw : tf.a0 % pageSize = 0 → tf.a1 ≠ 0 →
      userVaStart ≤ tf.a0 ∧ tf.a0 + pagesOf tf.a1 * pageSize ≤ userVaEnd) (h : Twin k k') :
    Same (sysMunmap tf) k k' := by
  unfold Same sysMunmap
  dsimp only
  split_ifs with hbad
  · exact .pure _ h
  · obtain ⟨h1, h2⟩ := hw (by omega) (by omega)
    refine (currentInfo_same h).bind fun c k1 k1' hc h1' => ?_
    obtain ⟨rfl, hr⟩ := currentInfo_root hm hc
    exact Prog.Alike.bind (onMachine_same (fun _ hs => munmapPages_alike _ hm.good hr
      (fun a ha => rangeVas_window h1 h2 ha) hs) h1') fun _ k2 k2' _ h2 => .pure _ h2

/-- No system call depends on what free frames hold. -/
theorem syscall_same (no : Sysno) (hm : Memory role k)
    (hw : no = .munmap → tf.a0 % pageSize = 0 → tf.a1 ≠ 0 →
      userVaStart ≤ tf.a0 ∧ tf.a0 + pagesOf tf.a1 * pageSize ≤ userVaEnd) (h : Twin k k') :
    Same (syscall io tf no) k k' := by
  cases no with
  | write => exact (sysWrite_same hm h).map some
  | read => exact sysRead_same hm h
  | openat => exact (sysOpenat_same hm h).map some
  | close => exact (sysClose_same h).map some
  | getdents64 => exact (sysGetdents64_same hm h).map some
  | schedSetaffinity => exact (sysSchedSetaffinity_same hm h).map some
  | schedGetaffinity => exact (sysSchedGetaffinity_same hm h).map some
  | exit => exact (exitCurrent_same _ hm h).bind fun _ _ _ _ h1 => .pure _ h1
  | getpid => exact (sysGetpid_same h).map some
  | clone => exact (forkCurrent_same hm h).map some
  | execve => exact (sysExecve_same hm h).map some
  | wait4 => exact (waitCurrent_same _ hm h).bind fun _ _ _ _ h1 => .pure _ h1
  | mmap => exact (sysMmap_same hm h).map some
  | munmap => exact (sysMunmap_same hm (hw rfl) h).map some
  | sysinfo => exact (sysSysinfo_same hm h).map some
  | reboot => exact Prog.Alike.map some (.stop _)
  | proclist => exact (sysProclist_same hm h).map some
  | socket => exact (sysSocket_same h).map some
  | bind => exact (sysBind_same hm h).map some
  | sendto => exact (sysSendto_same hm h).map some
  | recvfrom => exact (sysRecvfrom_same hm h).map some
  | unknown => exact .pure _ h

end Calls

/-! ### Traps and steps -/

section Steps

variable {role : ℕ → Role} {k k' : Kernel} {e : Event}

theorem wakeConsoleReader_same (hm : Memory role k) (h : Twin k k') :
    Same wakeConsoleReader k k' := by
  obtain ⟨m', hs, rfl⟩ := h
  have h : Twin k { k with machine := m' } := ⟨m', hs, rfl⟩
  refine .get_bind ?_
  dsimp only
  cases k.procs.position fun s => s.any (·.state = .sleepConsole) with
  | none => exact .pure _ h
  | some slot =>
    refine (procAt_same slot h).bind fun p k1 k1' hlook h1 => ?_
    obtain ⟨-, hp, rfl⟩ := procAt_ok.mp hlook
    refine (modify_same (fun _ _ => rfl) h1).bind fun _ k2 k2' hk2 h2 => ?_
    have hk2 : k2 = _ := Prog.modify_ok.mp hk2
    have hm2 : Memory role k2 := hm.congr (by rw [hk2]) (by rw [hk2]) (by rw [hk2])
    split_ifs
    · exact .pure _ h2
    · refine (copyOut_same _ _ hm2 (hm.root _ p hp) h2).bind fun res k3 k3' _ h3 => ?_
      refine .get_bind ?_
      rw [h3.frames]
      exact (setFrame_same _ _ h3).bind fun _ k4 k4' _ h4 => setProc_same _ _ h4

theorem timerTick_same (h : Twin k k') : Same timerTick k k' := by
  obtain ⟨m', hs, rfl⟩ := h
  refine .get_bind (.ofExcept_bind fun ticks _ => ?_)
  exact .ok _ ⟨m', hs, rfl⟩

theorem externalInterrupt_same (irq : ℕ) (input : List UInt8) (hm : Memory role k)
    (h : Twin k k') : Same (externalInterrupt irq input) k k' := by
  unfold Same externalInterrupt handleInterrupt
  split_ifs
  · obtain ⟨m', hs, rfl⟩ := h
    refine .get_bind (.set_bind ?_)
    have h2 : Twin { k with rx := (k.rx.receiveAll input).1 }
        { k with machine := m', rx := (k.rx.receiveAll input).1 } := ⟨m', hs, rfl⟩
    dsimp only
    split_ifs
    · exact wakeConsoleReader_same (hm.congr rfl rfl rfl) h2
    · exact .pure _ h2
  · exact .pure _ h

theorem trapHandler_same (i : Interrupt) (hm : Memory role k) (h : Twin k k') :
    Same (trapHandler i) k k' := by
  cases i with
  | timer => exact timerTick_same h
  | external irq input => exact externalInterrupt_same irq input hm h
  | other code => exact .pure _ h

theorem dispatch_same {io : Io} (hm : Memory role k)
    (hw : Sysno.ofNr (k.frames k.current).a7 = .munmap → (k.frames k.current).a0 % pageSize = 0 →
      (k.frames k.current).a1 ≠ 0 → userVaStart ≤ (k.frames k.current).a0 ∧
        (k.frames k.current).a0 + pagesOf (k.frames k.current).a1 * pageSize ≤ userVaEnd)
    (h : Twin k k') : Same (dispatch io) k k' := by
  unfold Same dispatch
  refine .get_bind ?_
  rw [h.current, h.frames]
  refine (syscall_same _ hm hw h).bind fun r k1 k1' _ h1 => ?_
  cases r with
  | none => exact .pure _ h1
  | some ret =>
    refine .get_bind ?_
    rw [h1.frames]
    exact (setFrame_same _ _ h1).bind fun _ k2 k2' _ h2 => resumeCurrent_same h2

/-- A trap from user mode, after the frame is saved. -/
theorem usertrap_same {t : UserTrap} (hm : Memory role k) (he : (Event.trap t).unmapsWindow)
    (hframe : ∀ i, i ≠ 0 → (k.frames k.current).regs i = t.regs i) (h : Twin k k') :
    Same (usertrap t.cause) k k' := by
  cases hcause : t.cause with
  | interrupt i =>
    cases i with
    | timer => exact (timerTick_same h).bind fun _ k1 k1' _ h1 => yieldCurrent_same h1
    | external irq input =>
      exact (externalInterrupt_same irq input hm h).bind fun _ k1 k1' _ h1 => resumeCurrent_same h1
    | other code => exact resumeCurrent_same h
  | ecall io =>
    obtain ⟨m', hs, rfl⟩ := h
    refine .get_bind (.ofExcept_bind fun sepc _ => ?_)
    refine (setFrame_same _ _ ⟨m', hs, rfl⟩).bind fun _ k1 k1' hset h1 => ?_
    obtain rfl := setFrame_ok.mp hset
    refine dispatch_same (hm.congr rfl rfl rfl) ?_ h1
    have hreg : ∀ i, i ≠ 0 → ((k.withFrame k.current { k.frames k.current with
        sepc := UInt64.ofNat sepc }).frames k.current).reg i = t.arg i := by
      intro i hi
      simp [Kernel.withFrame, TrapFrame.reg, UserTrap.arg, hframe i hi]
    intro hnr
    have hc : Call (.trap t) t io .munmap := ⟨rfl, hcause, by rw [← hnr]; exact congrArg Sysno.ofNr (hreg 17 (by decide)).symm⟩
    have := he t io hc
    rw [← hreg 10 (by decide), ← hreg 11 (by decide)] at this
    exact this
  | fault sc =>
    refine (currentInfo_same h).bind fun c k1 k1' hc h1 => ?_
    obtain ⟨rfl, -⟩ := currentInfo_root hm hc
    exact exitCurrent_same _ hm h1

theorem heapGrow_same (size align : ℕ) (hm : Memory role k) (h : Twin k k') :
    Same (heapGrow size align) k k' := by
  refine Prog.Alike.bind (onMachineFor_same
    (fun _ hs => pageAlloc_alike _ (hm.good.account 0).pages hs) h) fun o k1 k1' _ h1 => ?_
  cases o with
  | none => exact .stop _
  | some addr => exact modify_same (fun _ _ => rfl) h1

theorem spawn_same (disk : Disk) (name : List UInt8) (hm : Memory role k) (h : Twin k k') :
    Same (spawn disk name) k k' := by
  obtain ⟨m', hs, rfl⟩ := h
  have h : Twin k { k with machine := m' } := ⟨m', hs, rfl⟩
  refine .get_bind ?_
  dsimp only
  refine .ofExcept_bind fun o _ => ?_
  cases o with
  | none => exact .pure _ h
  | some image =>
    refine .get_bind ?_
    dsimp only
    refine Prog.Alike.bind (onMachineFor_same
      (fun _ hs => buildAddressSpace_alike (hm.good.account _) hs) h) fun res k1 k1' _ h1 => ?_
    cases res with
    | error e => exact .pure _ h1
    | ok built =>
      obtain ⟨m1', hs1, rfl⟩ := h1
      have h1 : Twin k1 { k1 with machine := m1' } := ⟨m1', hs1, rfl⟩
      refine .get_bind ?_
      dsimp only
      cases k1.procs.position (·.isNone) with
      | none => exact .pure _ h1
      | some slot =>
        refine .ofExcept_bind fun next _ => ?_
        refine (modify_same (fun _ _ => rfl) h1).bind fun _ k2 k2' _ h2 => ?_
        refine (setFrame_same _ _ h2).bind fun _ k3 k3' _ h3 => ?_
        exact (setProc_same _ _ h3).bind fun _ k4 k4' _ h4 => .pure _ h4

/-- No step depends on what free frames hold. -/
theorem step_same (he : e.unmapsWindow) (hm : Memory role k) (h : Twin k k') :
    Same (step e) k k' := by
  unfold Same step
  refine .get_bind ?_
  cases e with
  | idle i =>
    dsimp only
    rw [h.current]
    split_ifs
    · cases i with
      | none => exact schedule_same h
      | some i => exact (trapHandler_same i hm h).bind fun _ k1 k1' _ h1 => schedule_same h1
    · exact .pure _ h
  | store va b =>
    dsimp only
    rw [h.current]
    split_ifs
    · exact .pure _ h
    · refine (procAt_same _ h).bind fun p k1 k1' hlook h1 => ?_
      obtain ⟨-, hp, rfl⟩ := procAt_ok.mp hlook
      obtain ⟨m', hs, rfl⟩ := h
      dsimp only
      rw [userWritable_same hm.good (hm.root _ p hp) hs]
      cases userWritable k1.machine p.rootPa va with
      | none => exact .pure _ h1
      | some pa => exact onMachine_same (fun _ hs => .update (hs.writeBytes _ _)) h1
  | trap t =>
    dsimp only
    rw [h.current]
    split_ifs with hcur
    · exact .pure _ h
    · obtain ⟨m', hs, rfl⟩ := h
      refine Prog.Alike.bind (R := Twin) (.get_bind (.set_bind (setFrame_same _ _ ⟨m', hs, rfl⟩)))
        fun _ k1 k1' hvec h1 => ?_
      unfold userVec at hvec
      rw [Prog.get_bind_ok] at hvec
      obtain ⟨_, k2, hset, hframe⟩ := Prog.bind_ok.mp hvec
      obtain rfl := Prog.set_ok.mp hset
      obtain rfl := setFrame_ok.mp hframe
      refine usertrap_same (hm.congr rfl rfl rfl) he (fun i hi => ?_) h1
      simp [Kernel.withFrame, saveFrame, hi]
  | heapGrow size align => exact heapGrow_same size align hm h
  | spawn disk name =>
    dsimp only
    rw [h.current]
    split_ifs
    · exact (spawn_same disk name hm h).bind fun _ k1 k1' _ h1 => .pure _ h1
    · exact .pure _ h

/-- No run depends on what free frames hold at its start. -/
theorem run_same (es : List Event) (he : ∀ e ∈ es, e.unmapsWindow) (hm : Memory role k)
    (h : Twin k k') : Same (Prog.each step es) k k' := by
  refine .each (fun es k => (∀ e ∈ es, e.unmapsWindow) ∧ ∃ role, Memory role k) ?_ ?_ _
    ⟨he, role, hm⟩ h
  · rintro e es k k' ⟨he, role, hm⟩ h
    exact step_same (he e (by simp)) hm h
  · rintro e es k k1 ⟨he, role, hm⟩ hn
    exact ⟨fun e' he' => he e' (by simp [he']), hm.step (he e (by simp)) hn⟩

end Steps

end LightOS
