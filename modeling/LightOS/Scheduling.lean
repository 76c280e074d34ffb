import LightOS.ProcessTree
import LightOS.Shapes

/-!
# Who runs

The state field of a process and the current slot are written separately. In every
state between two traps they agree: in user mode the current process is the only
one that is marked as running, and an idle hart has none. A trap that leads back to
user mode does so through the frame of that process.
-/
namespace LightOS
open Lib

/-- The process table and the current slot agree on who runs. -/
structure Agree (k : Kernel) : Prop where
  user : k.current ≠ noProc → ∃ p, k.procs.slots k.current = some p ∧ p.state = .running ∧
    ∀ i q, k.procs.slots i = some q → q.state = .running → i = k.current
  idle : k.current = noProc → ∀ i q, k.procs.slots i = some q → q.state ≠ .running

theorem Tree.agree {k : Kernel} (h : Tree k) : Agree k := by
  refine ⟨fun hne => ?_, fun hidle i q hq hrun => ?_⟩
  · obtain ⟨p, hp, hrun⟩ := h.current hne
    exact ⟨p, hp, hrun, h.running⟩
  · have hi := h.bound i q hq
    rw [h.running i q hq hrun, hidle] at hi
    simp only [maxProcs, noProc, usizeBound] at hi
    omega

/-- The hart is idle, or it has just entered the current process through its
frame. -/
def EntersLast (k' : Kernel) : Prop :=
  k'.current = noProc ∨ ∃ k1, k1.procs = k'.procs ∧ k1.current = k'.current ∧
    enterUser k'.current k1 = .ok ((), k')

/-- Every run of the program that returns ends in that way. -/
def Ends {α : Type} (x : KernelM α) : Prop := ∀ k a k', x k = .ok (a, k') → EntersLast k'

namespace Ends

variable {α β : Type}

/-- Only the last part of a program matters. -/
theorem bind {x : KernelM α} {f : α → KernelM β} (hf : ∀ a, Ends (f a)) : Ends (x >>= f) := by
  intro k b k' h
  obtain ⟨a, k1, -, h2⟩ := Prog.bind_ok.mp h
  exact hf a k1 b k' h2

/-- A result may be discarded at the end. -/
theorem seq_pure {x : KernelM α} (hx : Ends x) (b : β) : Ends (x >>= fun _ => pure b) := by
  intro k c k' h
  obtain ⟨a, k1, h1, h2⟩ := Prog.bind_ok.mp h
  obtain rfl := Prog.pure_state h2
  exact hx k a _ h1

end Ends

/-- The scheduler enters the process it picks, or the hart stays idle. -/
theorem Scheduled.entersLast {k k' : Kernel} (h : Scheduled k k') (hc : k.current = noProc) :
    EntersLast k' := by
  rcases h with ⟨rfl, -⟩ | ⟨slot, p, -, hp, rfl⟩
  · exact .inl hc
  · refine .inr ⟨{ k.setSlot slot (some { p with state := .running }) with
      procs := { k.procs.setSlot slot (some { p with state := .running }) with lastRun := slot }
      current := slot }, rfl, rfl, rfl⟩

theorem park_ends : Ends park := fun _ _ _ h => (park_ok h).entersLast rfl

theorem resumeCurrent_ends : Ends resumeCurrent := by
  intro k u k' h
  unfold resumeCurrent at h
  rw [Prog.get_bind_ok, procAt_bind] at h
  obtain ⟨p, -, -, h⟩ := h
  have h' := h
  unfold enterUser at h'
  rw [Prog.get_bind_ok] at h'
  obtain rfl := setFrame_ok.mp h'
  exact .inr ⟨k, rfl, rfl, h⟩

theorem exitCurrent_ends (code : ℤ) : Ends (exitCurrent code) := by
  intro k u k' h
  obtain ⟨p, m1, k1, -, ⟨-, hs⟩ | ⟨-, c, q, m2, m3, k2, -, hs⟩⟩ := exitCurrent_ok h
  · exact hs.entersLast rfl
  · exact hs.entersLast rfl

theorem waitCurrent_ends (uva : ℕ) : Ends (waitCurrent uva) := by
  intro k u k' h
  obtain ⟨p, -, ⟨child, c, q, m1, m2, k1, -, -, hs⟩ | ⟨-, hs⟩ | ⟨-, hs⟩⟩ := waitCurrent_ok h
  · exact hs.entersLast rfl
  · exact hs.entersLast rfl
  · exact hs.entersLast rfl

/-- A call that gives up the hart has entered the next process. -/
theorem syscall_parks {io : Io} {tf : TrapFrame} {no : Sysno} {k k' : Kernel}
    (h : syscall io tf no k = .ok (none, k')) : EntersLast k' := by
  have hanswer : ∀ {x : KernelM ℤ}, (some <$> x) k = .ok (none, k') → EntersLast k' := by
    intro x hx
    obtain ⟨a, k1, -, h2⟩ := Prog.map_ok.mp hx
    simp at h2
  cases no with
  | read =>
    change sysRead io tf k = .ok (none, k') at h
    unfold sysRead at h
    dsimp only at h
    split_ifs at h
    · obtain ⟨a, k1, -, h2⟩ := Prog.bind_ok.mp h
      simp at h2
    · simp at h
    · simp at h
    · rw [Prog.get_bind_ok, Prog.modify_bind_ok] at h
      by_cases hb : (k.rx.readBytes (min tf.a2 128)).1 = []
      · rw [if_pos hb] at h
        refine (Ends.seq_pure ?_ none) _ _ _ h
        exact .bind fun _ => .bind fun _ => .bind fun _ => park_ends
      · rw [if_neg hb] at h
        obtain ⟨r, k1, -, h2⟩ := Prog.bind_ok.mp h
        obtain ⟨x, k2, -, h3⟩ := Prog.bind_ok.mp h2
        cases x <;> simp at h3
  | exit => exact (Ends.seq_pure (exitCurrent_ends _) none) _ _ _ h
  | wait4 => exact (Ends.seq_pure (waitCurrent_ends _) none) _ _ _ h
  | unknown => simp [syscall] at h
  | _ => exact hanswer h

theorem usertrap_ends (c : Cause) : Ends (usertrap c) := by
  cases c with
  | interrupt i =>
    cases i with
    | timer =>
      refine .bind fun _ => .bind fun k => .bind fun o => ?_
      cases o with
      | none => exact park_ends
      | some p =>
        dsimp only
        split_ifs
        · exact .bind fun _ => park_ends
        · exact park_ends
    | external irq input => exact .bind fun _ => resumeCurrent_ends
    | other code => exact resumeCurrent_ends
  | ecall io =>
    refine .bind fun k => .bind fun sepc => .bind fun _ => ?_
    intro k1 u k' h
    unfold dispatch at h
    rw [Prog.get_bind_ok] at h
    obtain ⟨r, k2, h1, h2⟩ := Prog.bind_ok.mp h
    cases r with
    | none =>
      obtain rfl := Prog.pure_state h2
      exact syscall_parks h1
    | some ret => exact (Ends.bind fun _ => .bind fun _ => resumeCurrent_ends) _ _ _ h2
  | fault sc => exact .bind fun _ => exitCurrent_ends _

/-- The event is one that the hart takes in its present mode, and that may change
which process runs. -/
def Event.switches (k : Kernel) : Event → Prop
  | .trap _ => k.current ≠ noProc
  | .idle _ => k.current = noProc
  | _ => False

theorem Next.entersLast {e : Event} {k k' : Kernel} (hn : Next e k k') (he : e.switches k) :
    EntersLast k' := by
  unfold Next step at hn
  rw [Prog.get_bind_ok] at hn
  cases e with
  | trap t =>
    dsimp only at hn
    rw [if_neg he] at hn
    exact (Ends.bind fun _ => usertrap_ends _) _ _ _ hn
  | idle i =>
    dsimp only at hn
    have hcur : k.current = noProc := he
    rw [if_pos hcur] at hn
    cases i with
    | none => exact (schedule_ok hn).entersLast hcur
    | some i =>
      obtain ⟨_, k1, h1, h2⟩ := Prog.bind_ok.mp hn
      refine (schedule_ok h2).entersLast ?_
      cases i with
      | timer => exact (timerTick_quiet h1).current.trans hcur
      | external irq input =>
        exact (@externalInterrupt_moves (.idle none) k _ _ _ _ _ h1).2.trans hcur
      | other code => rw [Prog.pure_state h1, hcur]
  | store va b => exact he.elim
  | heapGrow size align => exact he.elim
  | spawn disk name => exact he.elim

/-- In every reachable state the table and the current slot agree, and whatever trap
comes next, the frame through which the hart goes back to user mode is that of the
one process that is running. -/
theorem scheduling_reachable {k0 k : Kernel} (hs : Started k0) (hr : Reaches k0 k) :
    Agree k ∧ ∀ e k', e.ordinary → e.switches k → Next e k k' → k'.current = noProc ∨
      ∃ k1 p, enterUser k'.current k1 = .ok ((), k') ∧ k1.current = k'.current ∧
        k1.procs.slots k1.current = some p ∧ p.state = .running ∧
        ∀ i q, k1.procs.slots i = some q → q.state = .running → i = k1.current := by
  have ht := hr.tree hs
  refine ⟨ht.agree, fun e k' he hsw hn => ?_⟩
  rcases hn.entersLast hsw with hidle | ⟨k1, hprocs, hcur, henter⟩
  · exact .inl hidle
  · by_cases hidle : k'.current = noProc
    · exact .inl hidle
    · obtain ⟨p, hp, hrun, honly⟩ := (ht.step he hn).agree.user hidle
      rw [← hprocs, ← hcur] at hp
      rw [← hprocs, ← hcur] at honly
      exact .inr ⟨k1, p, henter, hcur, hp, hrun, honly⟩

/-- A has forked B, and the timer gives the hart to B: one process runs before and after, and
the hart goes back to user mode through the frame of B. -/
theorem scheduling_reachable_timer : ∃ k0 k k' k1 : Kernel, Started k0 ∧ Reaches k0 k ∧
    k.current = 1 ∧ Agree k ∧ Next (.trap timerTrap) k k' ∧ k'.current = 2 ∧ Agree k' ∧
    enterUser 2 k1 = .ok ((), k') ∧ ∃ p, k1.procs.slots 2 = some p ∧ p.state = .running ∧
      ∀ i q, k1.procs.slots i = some q → q.state = .running → i = 2 := by
  obtain ⟨k0, k1, k2, k3, k4, k5, k6, k7, p, ra, rb, hf⟩ := exists_family
  obtain ⟨hr, -⟩ := hf.reaches (C := fun _ _ => True) trivial (fun _ => trivial) (fun _ => trivial)
    (fun _ => trivial) trivial trivial
  have h4 : Reaches k0 k4 := Runs.mono (fun _ _ h => h.1) hr
  have hord : (Event.trap timerTrap).ordinary := trivial
  have h5 : Reaches k0 k5 := h4.snoc hord hf.timer
  have hcur : k4.current = 1 := hf.shows4.current
  have hcur' : k5.current = 2 := hf.shows5.current
  obtain ⟨hagree, hstep⟩ := scheduling_reachable hf.started h4
  have hsw : (Event.trap timerTrap).switches k4 := by
    change k4.current ≠ noProc
    rw [hcur]
    decide
  rcases hstep _ _ hord hsw hf.timer with hidle | ⟨k, q, henter, hk, hq, hrun, honly⟩
  · rw [hcur'] at hidle
    exact absurd hidle (by decide)
  · rw [hcur'] at henter hk
    rw [hk] at hq honly
    exact ⟨k0, k4, k5, k, hf.started, h4, hcur, hagree, hf.timer, hcur',
      (scheduling_reachable hf.started h5).1, henter, q, hq, hrun, honly⟩

end LightOS
