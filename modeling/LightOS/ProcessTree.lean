import LightOS.Steps
import LightOS.Boot

/-!
# The process tree

Parents are stored as slot indices, and slots are reused. What keeps the indices
meaningful is proved here for every run: pids are unique, a parent index names a
live process that made the child or is init, and only a running process is in
user mode.
-/
namespace LightOS
open Lib

theorem find_slot {l : List ℕ} {f : ℕ → Bool} {slot : ℕ} (h : l.find? f = some slot) :
    slot ∈ l ∧ f slot = true := ⟨List.mem_of_find?_eq_some h, List.find?_some h⟩

theorem any_some {o : Option Process} {f : Process → Bool} (h : o.any f = true) :
    ∃ p, o = some p ∧ f p = true := by
  cases o with
  | none => simp at h
  | some p => exact ⟨p, rfl, h⟩

theorem position_some {t : ProcTable} {f : Option Process → Bool} {slot : ℕ}
    (h : t.position f = some slot) : slot < maxProcs ∧ f (t.slots slot) = true := by
  obtain ⟨hm, hs⟩ := find_slot h
  exact ⟨List.mem_range.mp hm, hs⟩

theorem picked_some {t : ProcTable} {slot : ℕ} (h : Picked t slot) :
    ∃ p, t.slots slot = some p ∧ p.state = .ready := by
  obtain ⟨p, hp, hs⟩ := any_some (find_slot h).2
  exact ⟨p, hp, by simpa using hs⟩

/-- What the scheduler does not change. -/
theorem Scheduled.rest {k k' : Kernel} (h : Scheduled k k') : k'.machine = k.machine ∧
    k'.history = k.history ∧ (∀ i, (k'.frames i).a0 = (k.frames i).a0) ∧
    ∀ i, k'.procs.slots i = k.procs.slots i ∨ ∃ p, k.procs.slots i = some p ∧ p.state = .ready ∧
      k'.procs.slots i = some { p with state := .running } := by
  rcases h with ⟨rfl, -⟩ | ⟨slot, p, hpick, hp, rfl⟩
  · exact ⟨rfl, rfl, fun _ => rfl, fun _ => .inl rfl⟩
  · obtain ⟨q, hq, hready⟩ := picked_some hpick
    obtain rfl := Option.some.inj (hp.symm.trans hq)
    refine ⟨rfl, rfl, fun i => ?_, fun i => ?_⟩
    · change (if i = slot then _ else k.frames i : TrapFrame).a0 = _
      split_ifs with hi
      · rw [hi]
        rfl
      · rfl
    · change (if i = slot then some _ else k.procs.slots i) = _ ∨ _
      by_cases hi : i = slot
      · subst hi
        exact .inr ⟨p, hp, hready, if_pos rfl⟩
      · exact .inl (if_neg hi)

/-- What every move of a step keeps, the step keeps. -/
theorem Next.keeps {I : Kernel → Prop} {e : Event} {k k' : Kernel} (hn : Next e k k') (h : I k)
    (hmove : ∀ a b, I a → Move e k a b → I b) : I k' := by
  have hm := step_moves hn
  clear hn
  induction hm with
  | refl => exact h
  | tail _ hlast ih => exact hmove _ _ ih hlast

/-! What the scan of wait4 finds. -/

section Scan

variable {t : ProcTable} {cur : ℕ}

theorem waitScan_zombie {child : ℕ} (h : (waitScan t cur).2 = some child) :
    ∃ c, t.slots child = some c ∧ c.parent = cur ∧ c.state = .zombie := by
  obtain ⟨c, hc, hp⟩ := any_some (find_slot h).2
  simp only [Bool.and_eq_true, decide_eq_true_eq] at hp
  exact ⟨c, hc, hp.1, hp.2⟩

theorem waitScan_child (h : (waitScan t cur).1 = true) :
    ∃ j c, t.slots j = some c ∧ c.parent = cur := by
  obtain ⟨j, -, hj⟩ := List.any_eq_true.mp h
  obtain ⟨c, hc, hp⟩ := any_some hj
  exact ⟨j, c, hc, by simpa using hp⟩

theorem waitScan_no_zombie (h : (waitScan t cur).2 = none) {j : ℕ} {c : Process}
    (hj : j < maxProcs) (hc : t.slots j = some c) (hp : c.parent = cur) : c.state ≠ .zombie := by
  have hnone := List.find?_eq_none.mp h j (List.mem_range.mpr hj)
  simpa [hc, hp] using hnone

theorem waitScan_no_child (h : (waitScan t cur).1 = false) {j : ℕ} {c : Process}
    (hj : j < maxProcs) (hc : t.slots j = some c) : c.parent ≠ cur := by
  intro hp
  have hnone := List.any_eq_false.mp h j (List.mem_range.mpr hj)
  simp [hc, hp] at hnone

end Scan

/-- The invariant of the process table. -/
structure Tree (k : Kernel) : Prop where
  bound : ∀ i p, k.procs.slots i = some p → i < maxProcs
  pid_lt : ∀ i p, k.procs.slots i = some p → 0 < p.pid ∧ p.pid < k.procs.nextPid
  pid_inj : ∀ i j p q, k.procs.slots i = some p → k.procs.slots j = some q → p.pid = q.pid → i = j
  current : k.current ≠ noProc → ∃ p, k.procs.slots k.current = some p ∧ p.state = .running
  running : ∀ i p, k.procs.slots i = some p → p.state = .running → i = k.current
  init : ∃ i p, k.procs.slots i = some p ∧ p.pid = 1 ∧ p.state ≠ .zombie ∧ p.parent = noProc
  parent : ∀ i p, k.procs.slots i = some p → p.pid ≠ 1 → ∃ q, k.procs.slots p.parent = some q ∧
    q.state ≠ .zombie ∧ q.pid < p.pid ∧ (q.pid = 1 ∨ .forked q.pid p.pid ∈ k.history)
  sleep : ∀ i p, k.procs.slots i = some p → p.state = .sleepChild →
    ∃ j c, k.procs.slots j = some c ∧ c.parent = i

namespace Tree

variable {e : Event} {k0 k k' : Kernel}

/-- Only the process table, the current slot and the history matter. -/
theorem congr (h : Tree k) (hp : k'.procs.slots = k.procs.slots)
    (hn : k'.procs.nextPid = k.procs.nextPid) (hc : k'.current = k.current)
    (hh : k'.history = k.history) : Tree k' := by
  obtain ⟨h1, h2, h3, h4, h5, h6, h7, h8⟩ := h
  refine ⟨?_, ?_, ?_, ?_, ?_, ?_, ?_, ?_⟩ <;> simpa only [hp, hn, hc, hh]

variable {i : ℕ} {p p' : Process}

/-- One process changes its state or data, but not who it is. -/
theorem update (h : Tree k) (hp : k.procs.slots i = some p)
    (hslots : k'.procs.slots = (k.setSlot i (some p')).procs.slots) (hpid : p'.pid = p.pid)
    (hpar : p'.parent = p.parent) (hz : p'.state = .zombie → p.state = .zombie)
    (hs : p'.state = .sleepChild → p.state = .sleepChild ∨
      ∃ j c, k.procs.slots j = some c ∧ c.parent = i)
    (hn : k'.procs.nextPid = k.procs.nextPid) (hh : ∀ x ∈ k.history, x ∈ k'.history)
    (hcur : k'.current ≠ noProc → ∃ q, k'.procs.slots k'.current = some q ∧ q.state = .running)
    (hrun : ∀ j q, k'.procs.slots j = some q → q.state = .running → j = k'.current) : Tree k' := by
  -- every process of the new table is one of the old table, with the same pid and parent
  have back : ∀ j q, k'.procs.slots j = some q → ∃ q0, k.procs.slots j = some q0 ∧
      q.pid = q0.pid ∧ q.parent = q0.parent ∧ (q.state = .sleepChild → q0.state = .sleepChild ∨
        ∃ j' c, k.procs.slots j' = some c ∧ c.parent = j) := by
    intro j q hq
    rw [hslots, Kernel.setSlot_slots] at hq
    split_ifs at hq with hj
    · obtain rfl := Option.some.inj hq
      subst hj
      exact ⟨p, hp, hpid, hpar, hs⟩
    · exact ⟨q, hq, rfl, rfl, fun hsl => .inl hsl⟩
  have forth : ∀ j q, k.procs.slots j = some q → ∃ q', k'.procs.slots j = some q' ∧
      q'.pid = q.pid ∧ q'.parent = q.parent ∧ (q'.state = .zombie → q.state = .zombie) := by
    intro j q hq
    rw [hslots, Kernel.setSlot_slots]
    split_ifs with hj
    · subst hj
      obtain rfl := Option.some.inj (hp.symm.trans hq)
      exact ⟨p', rfl, hpid, hpar, hz⟩
    · exact ⟨q, hq, rfl, rfl, id⟩
  refine ⟨?_, ?_, ?_, hcur, hrun, ?_, ?_, ?_⟩
  · intro j q hq
    obtain ⟨q0, hq0, -⟩ := back j q hq
    exact h.bound j q0 hq0
  · intro j q hq
    obtain ⟨q0, hq0, he, -⟩ := back j q hq
    rw [he, hn]
    exact h.pid_lt j q0 hq0
  · intro j j' q q' hq hq' he
    obtain ⟨q0, hq0, he0, -⟩ := back j q hq
    obtain ⟨q0', hq0', he0', -⟩ := back j' q' hq'
    exact h.pid_inj j j' q0 q0' hq0 hq0' (by rw [← he0, ← he0', he])
  · obtain ⟨j, q, hq, h1, h2, h3⟩ := h.init
    obtain ⟨q', hq', e1, e2, e3⟩ := forth j q hq
    exact ⟨j, q', hq', e1.trans h1, fun hz' => h2 (e3 hz'), e2.trans h3⟩
  · intro j q hq hne
    obtain ⟨q0, hq0, he, hepar, -⟩ := back j q hq
    obtain ⟨r, hr, h1, h2, h3⟩ := h.parent j q0 hq0 (by rwa [← he])
    obtain ⟨r', hr', e1, -, e3⟩ := forth _ r hr
    rw [hepar, he]
    exact ⟨r', hr', fun hz' => h1 (e3 hz'), by rwa [e1], by rw [e1]; exact h3.imp_right (hh _)⟩
  · intro j q hq hsl
    obtain ⟨q0, hq0, -, -, hs0⟩ := back j q hq
    have hchild : ∃ j' c, k.procs.slots j' = some c ∧ c.parent = j := by
      rcases hs0 hsl with h0 | h0
      · exact h.sleep j q0 hq0 h0
      · exact h0
    obtain ⟨j', c, hc, hcp⟩ := hchild
    obtain ⟨c', hc', -, e2, -⟩ := forth j' c hc
    exact ⟨j', c', hc', e2.trans hcp⟩

/-- The current process changes only its own data. -/
theorem own (h : Tree k) (hp : k.procs.slots k.current = some p)
    (hslots : k'.procs.slots = (k.setSlot k.current (some p')).procs.slots) (hpid : p'.pid = p.pid)
    (hpar : p'.parent = p.parent) (hst : p'.state = p.state) (hc : k'.current = k.current)
    (hn : k'.procs.nextPid = k.procs.nextPid) (hh : k'.history = k.history) : Tree k' := by
  refine h.update hp hslots hpid hpar (by simp [hst]) (fun hs => .inl (by rwa [hst] at hs)) hn
    (by simp [hh]) ?_ ?_
  · intro hne
    rw [hc] at hne ⊢
    obtain ⟨q, hq, hr⟩ := h.current hne
    obtain rfl := Option.some.inj (hp.symm.trans hq)
    exact ⟨p', by rw [hslots, Kernel.setSlot_self], by rwa [hst]⟩
  · intro j q hq hr
    rw [hslots, Kernel.setSlot_slots] at hq
    rw [hc]
    split_ifs at hq with hj
    · exact hj
    · exact h.running j q hq hr

/-- The current process stops running and the hart becomes idle. -/
theorem leave (h : Tree k) (hp : k.procs.slots k.current = some p)
    (hslots : k'.procs.slots = (k.setSlot k.current (some p')).procs.slots) (hpid : p'.pid = p.pid)
    (hpar : p'.parent = p.parent) (hz : p'.state ≠ .zombie) (hr : p'.state ≠ .running)
    (hs : p'.state = .sleepChild → ∃ j c, k.procs.slots j = some c ∧ c.parent = k.current)
    (hc : k'.current = noProc)
    (hn : k'.procs.nextPid = k.procs.nextPid) (hh : ∀ x ∈ k.history, x ∈ k'.history) : Tree k' := by
  refine h.update hp hslots hpid hpar (fun hz' => absurd hz' hz) (fun hs' => .inr (hs hs')) hn hh
    (fun hne => absurd hc hne) ?_
  intro j q hq hrun
  rw [hslots, Kernel.setSlot_slots] at hq
  split_ifs at hq with hj
  · obtain rfl := Option.some.inj hq
    exact absurd hrun hr
  · exact absurd (h.running j q hq hrun) hj

/-- A sleeper becomes ready. -/
theorem ready (h : Tree k) (hp : k.procs.slots i = some p)
    (hslots : k'.procs.slots = (k.setSlot i (some p')).procs.slots) (hr : p.state ≠ .running)
    (hpid : p'.pid = p.pid) (hpar : p'.parent = p.parent) (hst : p'.state = .ready)
    (hc : k'.current = k.current)
    (hn : k'.procs.nextPid = k.procs.nextPid) (hh : ∀ x ∈ k.history, x ∈ k'.history) : Tree k' := by
  refine h.update hp hslots hpid hpar (by simp [hst]) (by simp [hst]) hn hh ?_ ?_
  · intro hne
    rw [hc] at hne ⊢
    obtain ⟨q, hq, hrun⟩ := h.current hne
    have hi : k.current ≠ i := by
      rintro rfl
      obtain rfl := Option.some.inj (hp.symm.trans hq)
      exact hr hrun
    exact ⟨q, by rw [hslots, Kernel.setSlot_slots, if_neg hi]; exact hq, hrun⟩
  · intro j q hq hrun
    rw [hslots, Kernel.setSlot_slots] at hq
    rw [hc]
    split_ifs at hq with hj
    · obtain rfl := Option.some.inj hq
      simp [hst] at hrun
    · exact h.running j q hq hrun

/-- The idle hart takes a process. -/
theorem enter (h : Tree k) (hp : k.procs.slots i = some p) (hidle : k.current = noProc) :
    Tree (entered i p k) := by
  refine h.update hp rfl rfl rfl nofun nofun rfl (fun x hx => hx) ?_ ?_
  · intro _
    exact ⟨_, Kernel.setSlot_self i _, rfl⟩
  · intro j q hq hrun
    by_contra hj
    have hq' : (k.setSlot i (some { p with state := .running })).procs.slots j = some q := hq
    rw [Kernel.setSlot_slots, if_neg (show j ≠ i from hj)] at hq'
    have hcur := h.running j q hq' hrun
    have := h.bound j q hq'
    rw [hcur, hidle] at this
    simp only [maxProcs, noProc, usizeBound] at this
    omega

/-- A zombie whose parent does not wait for it disappears. -/
theorem remove (h : Tree k) {c : Process} (hc : k.procs.slots i = some c) (hz : c.state = .zombie)
    (hw : ∀ q, k.procs.slots c.parent = some q → q.state ≠ .sleepChild)
    (hslots : k'.procs.slots = (k.setSlot i none).procs.slots)
    (hn : k'.procs.nextPid = k.procs.nextPid) (hh : ∀ x ∈ k.history, x ∈ k'.history)
    (hcur : k'.current = k.current) : Tree k' := by
  have back : ∀ j q, k'.procs.slots j = some q → k.procs.slots j = some q ∧ j ≠ i := by
    intro j q hq
    rw [hslots, Kernel.setSlot_slots] at hq
    split_ifs at hq with hj
    exact ⟨hq, hj⟩
  have forth : ∀ j q, k.procs.slots j = some q → q.state ≠ .zombie → k'.procs.slots j = some q := by
    intro j q hq hnz
    have hj : j ≠ i := by
      rintro rfl
      obtain rfl := Option.some.inj (hc.symm.trans hq)
      exact hnz hz
    rw [hslots, Kernel.setSlot_slots, if_neg hj]
    exact hq
  refine ⟨?_, ?_, ?_, ?_, ?_, ?_, ?_, ?_⟩
  · exact fun j q hq => h.bound j q (back j q hq).1
  · intro j q hq
    rw [hn]
    exact h.pid_lt j q (back j q hq).1
  · exact fun j j' q q' hq hq' he => h.pid_inj j j' q q' (back j q hq).1 (back j' q' hq').1 he
  · intro hne
    rw [hcur] at hne ⊢
    obtain ⟨q, hq, hr⟩ := h.current hne
    exact ⟨q, forth _ q hq (by simp [hr]), hr⟩
  · intro j q hq hr
    rw [hcur]
    exact h.running j q (back j q hq).1 hr
  · obtain ⟨j, q, hq, h1, h2, h3⟩ := h.init
    exact ⟨j, q, forth j q hq h2, h1, h2, h3⟩
  · intro j q hq hne
    obtain ⟨r, hr, h1, h2, h3⟩ := h.parent j q (back j q hq).1 hne
    exact ⟨r, forth _ r hr h1, h1, h2, h3.imp_right (hh _)⟩
  · intro j q hq hsl
    obtain ⟨j', c', hc', hp⟩ := h.sleep j q (back j q hq).1 hsl
    have hj' : j' ≠ i := by
      rintro rfl
      obtain rfl := Option.some.inj (hc.symm.trans hc')
      exact hw q (by rw [hp]; exact (back j q hq).1) hsl
    exact ⟨j', c', by rw [hslots, Kernel.setSlot_slots, if_neg hj']; exact hc', hp⟩

/-- A zombie is reaped: its parent becomes ready and its slot free. -/
theorem reap (h : Tree k.idle) {par child : ℕ} {c q : Process} {m1 m2 : Machine}
    (hr : Reap par child c q m1 m2 k k') (hz : c.state = .zombie) (hpar : c.parent = par)
    (hq : q.state = .sleepChild) : Tree k'.idle := by
  have hne : par ≠ child := by
    rintro rfl
    obtain rfl := Option.some.inj (hr.child_slot.symm.trans hr.par_slot)
    simp [hz] at hq
  have h1 : Tree (k.setSlot par (some { q with state := .ready })).idle :=
    h.ready hr.par_slot rfl (by simp [hq]) rfl rfl rfl rfl rfl fun x hx => hx
  have hchild : (k.setSlot par (some { q with state := .ready })).idle.procs.slots child = some c := by
    change (k.setSlot par _).procs.slots child = some c
    rw [Kernel.setSlot_slots, if_neg hne.symm]
    exact hr.child_slot
  refine h1.remove hchild hz ?_ ?_ ?_ ?_ ?_
  · intro r hr'
    rw [hpar] at hr'
    have hself : (k.setSlot par (some { q with state := .ready })).procs.slots par = some r := hr'
    rw [Kernel.setSlot_self] at hself
    rw [← Option.some.inj hself]
    simp
  · rw [hr.state]
    rfl
  · rw [hr.state]
    rfl
  · rw [hr.state]
    intro x hx
    exact List.mem_append_left _ hx
  · rfl

/-- A child of the current process appears in a free slot. -/
theorem fork (h : Tree k) {slot r : ℕ} {m : Machine} (hslot : k.procs.position (·.isNone) = some slot)
    (hp : k.procs.slots k.current = some p) : Tree (forkState k p slot r m) := by
  obtain ⟨hlt, hfree⟩ := position_some hslot
  rw [Option.isNone_iff_eq_none] at hfree
  have hslots : (forkState k p slot r m).procs.slots =
      (k.setSlot slot (some (forkChild k p r))).procs.slots := rfl
  have hnext : (forkState k p slot r m).procs.nextPid = k.procs.nextPid + 1 := rfl
  have hhist : (forkState k p slot r m).history =
      k.history ++ [.forked p.pid k.procs.nextPid] := rfl
  have hcur : (forkState k p slot r m).current = k.current := rfl
  have hpid : (forkChild k p r).pid = k.procs.nextPid := rfl
  have hpar : (forkChild k p r).parent = k.current := rfl
  have hst : (forkChild k p r).state = .ready := rfl
  generalize forkState k p slot r m = k' at *
  generalize forkChild k p r = child at *
  have old : ∀ j q, k.procs.slots j = some q → k'.procs.slots j = some q := by
    intro j q hq
    have hj : j ≠ slot := by
      rintro rfl
      simp [hfree] at hq
    rw [hslots, Kernel.setSlot_slots, if_neg hj]
    exact hq
  have back : ∀ j q, k'.procs.slots j = some q →
      j = slot ∧ q = child ∨ j ≠ slot ∧ k.procs.slots j = some q := by
    intro j q hq
    rw [hslots, Kernel.setSlot_slots] at hq
    split_ifs at hq with hj
    · exact .inl ⟨hj, (Option.some.inj hq).symm⟩
    · exact .inr ⟨hj, hq⟩
  have hrun : k.current ≠ noProc := by
    have := h.bound _ _ hp
    simp only [maxProcs, noProc, usizeBound] at *
    omega
  obtain ⟨p', hp', hprun⟩ := h.current hrun
  obtain rfl := Option.some.inj (hp.symm.trans hp')
  refine ⟨?_, ?_, ?_, ?_, ?_, ?_, ?_, ?_⟩
  · intro j q hq
    rcases back j q hq with ⟨rfl, -⟩ | ⟨-, hq⟩
    · exact hlt
    · exact h.bound j q hq
  · intro j q hq
    rw [hnext]
    rcases back j q hq with ⟨-, rfl⟩ | ⟨-, hq⟩
    · have := h.pid_lt _ _ hp
      omega
    · have := h.pid_lt j q hq
      omega
  · intro j j' q q' hq hq' he
    rcases back j q hq with ⟨rfl, rfl⟩ | ⟨-, hq⟩ <;> rcases back j' q' hq' with ⟨rfl, rfl⟩ | ⟨-, hq'⟩
    · rfl
    · have := h.pid_lt j' q' hq'
      omega
    · have := h.pid_lt j q hq
      omega
    · exact h.pid_inj j j' q q' hq hq' he
  · intro _
    rw [hcur]
    exact ⟨p, old _ _ hp, hprun⟩
  · intro j q hq hr
    rw [hcur]
    rcases back j q hq with ⟨-, rfl⟩ | ⟨-, hq⟩
    · simp [hst] at hr
    · exact h.running j q hq hr
  · obtain ⟨j, q, hq, hinit⟩ := h.init
    exact ⟨j, q, old j q hq, hinit⟩
  · intro j q hq hne
    rcases back j q hq with ⟨-, rfl⟩ | ⟨-, hq⟩
    · refine ⟨p, by rw [hpar]; exact old _ _ hp, by simp [hprun], ?_, .inr ?_⟩
      · have := h.pid_lt _ _ hp
        omega
      · simp [hhist, hpid]
    · obtain ⟨r, hr, h1, h2, h3⟩ := h.parent j q hq hne
      exact ⟨r, old _ _ hr, h1, h2, h3.imp_right fun hf => by simp [hhist, hf]⟩
  · intro j q hq hsl
    rcases back j q hq with ⟨-, rfl⟩ | ⟨-, hq⟩
    · simp [hst] at hsl
    · obtain ⟨j', c, hc, hcp⟩ := h.sleep j q hq hsl
      exact ⟨j', c, old _ _ hc, hcp⟩

theorem current_ne (h : Tree k) (hp : k.procs.slots i = some p) : i ≠ noProc := by
  have := h.bound i p hp
  simp only [maxProcs, noProc, usizeBound] at *
  omega

/-- `exitCurrent` finds init. -/
theorem initSlot_eq (h : Tree k) :
    ∃ ii p, initSlot k.procs = some ii ∧ k.procs.slots ii = some p ∧ p.pid = 1 ∧
      p.state ≠ .zombie ∧ p.parent = noProc := by
  obtain ⟨j, p, hp, hpid, hz, hpar⟩ := h.init
  cases hi : initSlot k.procs with
  | none =>
    have hnone := List.find?_eq_none.mp hi j (List.mem_range.mpr (h.bound j p hp))
    simp [hp, hpid] at hnone
  | some ii =>
    obtain ⟨-, hany⟩ := position_some hi
    obtain ⟨q, hq, hqpid⟩ := any_some hany
    have hq1 : q.pid = 1 := by simpa using hqpid
    obtain rfl := h.pid_inj j ii p q hp hq (hpid.trans hq1.symm)
    exact ⟨j, p, rfl, hp, hpid, hz, hpar⟩

/-- The table after `Exit`. -/
theorem exit_slots {code : ℤ} {m1 : Machine} (hx : Exit code p m1 k k') (j : ℕ) :
    k'.procs.slots j = if j = k.current then
      some { adopt k.current (initSlot k.procs) p with state := .zombie, exitCode := code }
    else (k.procs.slots j).map (adopt k.current (initSlot k.procs)) := by
  rw [hx.state]
  change (if _ then _ else _) = _
  rfl

/-- The current process becomes a zombie and init adopts its children. -/
theorem exit (h : Tree k) {code : ℤ} {m1 : Machine} (hx : Exit code p m1 k k') : Tree k'.idle := by
  obtain ⟨ii, ip, hii, hip, hipid, hiz, hipar⟩ := h.initSlot_eq
  have hcurne := h.current_ne hx.proc
  have hicur : ii ≠ k.current := by
    rintro rfl
    obtain rfl := Option.some.inj (hip.symm.trans hx.proc)
    exact hx.pid hipid
  have hslots := exit_slots hx
  have hn : k'.procs.nextPid = k.procs.nextPid := by rw [hx.state]; rfl
  have hh : ∀ x ∈ k.history, x ∈ k'.history := by
    intro x hx'
    rw [hx.state]
    exact List.mem_append_left _ hx'
  rw [hii] at hslots
  have hadopt : ∀ q, q.parent ≠ k.current → adopt k.current (some ii) q = q := by
    intro q hq
    simp [adopt, hq]
  have hself : adopt k.current (some ii) p = p := by
    refine hadopt p fun hp => ?_
    obtain ⟨q, hq, -, hlt, -⟩ := h.parent _ p hx.proc hx.pid
    rw [hp] at hq
    obtain rfl := Option.some.inj (hx.proc.symm.trans hq)
    omega
  rw [hself] at hslots
  -- a process of the new table: the zombie, or an old one, possibly adopted
  have back : ∀ j q, k'.procs.slots j = some q →
      j = k.current ∧ q = { p with state := .zombie, exitCode := code } ∨
      j ≠ k.current ∧ ∃ q0, k.procs.slots j = some q0 ∧ q = adopt k.current (some ii) q0 := by
    intro j q hq
    rw [hslots] at hq
    split_ifs at hq with hj
    · exact .inl ⟨hj, (Option.some.inj hq).symm⟩
    · obtain ⟨q0, hq0, he⟩ := Option.map_eq_some_iff.mp hq
      exact .inr ⟨hj, q0, hq0, he.symm⟩
  have old : ∀ j q, k.procs.slots j = some q → j ≠ k.current →
      k'.procs.slots j = some (adopt k.current (some ii) q) := by
    intro j q hq hj
    rw [hslots, if_neg hj, hq]
    rfl
  have hpid : ∀ q, (adopt k.current (some ii) q).pid = q.pid := by
    intro q
    unfold adopt
    split_ifs <;> rfl
  have hstate : ∀ q, (adopt k.current (some ii) q).state = q.state := by
    intro q
    unfold adopt
    split_ifs <;> rfl
  -- pid and slot of every new process are those of an old one
  have who : ∀ j q, k'.procs.slots j = some q → ∃ q0, k.procs.slots j = some q0 ∧ q.pid = q0.pid := by
    intro j q hq
    rcases back j q hq with ⟨rfl, rfl⟩ | ⟨-, q0, hq0, rfl⟩
    · exact ⟨p, hx.proc, rfl⟩
    · exact ⟨q0, hq0, hpid q0⟩
  have hinit : k'.procs.slots ii = some ip := by
    rw [old ii ip hip hicur, hadopt ip (by rw [hipar]; exact hcurne.symm)]
  -- a parent other than the dead process is still there
  have hparent : ∀ q, (∃ j, k.procs.slots j = some q) → q.pid ≠ 1 → q.parent ≠ k.current →
      ∃ r, k'.procs.slots q.parent = some r ∧ r.state ≠ .zombie ∧ r.pid < q.pid ∧
        (r.pid = 1 ∨ .forked r.pid q.pid ∈ k'.history) := by
    rintro q ⟨j, hq⟩ hne hpar
    obtain ⟨r, hr, h1, h2, h3⟩ := h.parent j q hq hne
    refine ⟨_, old _ r hr hpar, by rwa [hstate], by rwa [hpid], ?_⟩
    rw [hpid]
    exact h3.imp_right (hh _)
  refine ⟨?_, ?_, ?_, fun hne => absurd rfl hne, ?_, ?_, ?_, ?_⟩
  · intro j q hq
    obtain ⟨q0, hq0, -⟩ := who j q hq
    exact h.bound j q0 hq0
  · intro j q hq
    obtain ⟨q0, hq0, he⟩ := who j q hq
    change _ ∧ _ < k'.procs.nextPid
    rw [he, hn]
    exact h.pid_lt j q0 hq0
  · intro j j' q q' hq hq' he
    obtain ⟨q0, hq0, he0⟩ := who j q hq
    obtain ⟨q0', hq0', he0'⟩ := who j' q' hq'
    exact h.pid_inj j j' q0 q0' hq0 hq0' (by rw [← he0, ← he0', he])
  · intro j q hq hrun
    rcases back j q hq with ⟨-, rfl⟩ | ⟨hj, q0, hq0, rfl⟩
    · simp at hrun
    · rw [hstate] at hrun
      exact absurd (h.running j q0 hq0 hrun) hj
  · exact ⟨ii, ip, hinit, hipid, hiz, hipar⟩
  · intro j q hq hne
    rcases back j q hq with ⟨-, rfl⟩ | ⟨hj, q0, hq0, rfl⟩
    · refine hparent p ⟨_, hx.proc⟩ hx.pid fun hp => ?_
      have hself' := hself
      simp only [adopt, hp, if_true, Option.getD_some] at hself'
      exact hicur ((congrArg Process.parent hself').trans hp)
    · rw [hpid] at hne ⊢
      by_cases hpar : q0.parent = k.current
      · refine ⟨ip, ?_, hiz, ?_, .inl hipid⟩
        · simp only [adopt, hpar, if_true, Option.getD_some]
          exact hinit
        · have := (h.pid_lt j q0 hq0).1
          omega
      · rw [hadopt q0 hpar]
        exact hparent q0 ⟨j, hq0⟩ hne hpar
  · intro j q hq hsl
    rcases back j q hq with ⟨-, rfl⟩ | ⟨hj, q0, hq0, rfl⟩
    · simp at hsl
    · rw [hstate] at hsl
      obtain ⟨j', c, hc, hcp⟩ := h.sleep j q0 hq0 hsl
      by_cases hj' : j' = k.current
      · subst hj'
        obtain rfl := Option.some.inj (hx.proc.symm.trans hc)
        refine ⟨k.current, { p with state := .zombie, exitCode := code }, ?_, hcp⟩
        change k'.procs.slots k.current = _
        rw [hslots, if_pos rfl]
      · refine ⟨j', c, ?_, hcp⟩
        change k'.procs.slots j' = some c
        rw [old j' c hc hj', hadopt c (by rw [hcp]; exact hj)]

theorem adopt_self (h : Tree k) (hp : k.procs.slots k.current = some p) (hpid : p.pid ≠ 1)
    (o : Option ℕ) : adopt k.current o p = p := by
  unfold adopt
  rw [if_neg]
  intro hpar
  obtain ⟨q, hq, -, hlt, -⟩ := h.parent _ p hp hpid
  rw [hpar] at hq
  obtain rfl := Option.some.inj (hp.symm.trans hq)
  omega

/-- A zombie that its waiting parent reaps at once. -/
theorem exitReap (h : Tree k) {code : ℤ} {m1 m2 m3 : Machine} {c q : Process} {k1 : Kernel}
    (hx : Exit code p m1 k k1) (hw : ParentWaits k1 p)
    (hr : Reap p.parent k.current c q m2 m3 k1 k') : Tree k'.idle := by
  have hc := exit_slots hx k.current
  rw [if_pos rfl, h.adopt_self hx.proc hx.pid] at hc
  obtain rfl := Option.some.inj (hc.symm.trans hr.child_slot)
  obtain ⟨-, par, hpar, hsl⟩ := hw
  obtain rfl := Option.some.inj (hpar.symm.trans hr.par_slot)
  exact (h.exit hx).reap hr rfl rfl hsl

theorem own_eq (h : OwnFields p p') :
    p'.pid = p.pid ∧ p'.parent = p.parent ∧ p'.state = p.state := by
  rw [h.eq]
  exact ⟨rfl, rfl, rfl⟩

/-- The caller of wait4 sleeps, having a child. -/
theorem sleeps (h : Tree k) (hp : k.procs.slots k.current = some p) {uva : ℕ}
    (hc : ∃ j c, k.procs.slots j = some c ∧ c.parent = k.current) :
    Tree (k.setSlot k.current (some (asleep p uva))).idle :=
  h.leave hp rfl rfl rfl nofun nofun (fun _ => hc) rfl rfl fun _ hx => hx

theorem waitReap (h : Tree k) (hp : k.procs.slots k.current = some p) {uva child : ℕ}
    {c q : Process} {m1 m2 : Machine} (hz : (waitScan k.procs k.current).2 = some child)
    (hr : Reap k.current child c q m1 m2 (k.setSlot k.current (some (asleep p uva))) k') :
    Tree k'.idle := by
  obtain ⟨c0, hc0, hpar, hzom⟩ := waitScan_zombie hz
  have hne : child ≠ k.current := by
    rintro rfl
    obtain ⟨p', hp', hrun⟩ := h.current (h.current_ne hp)
    obtain rfl := Option.some.inj (hp'.symm.trans hc0)
    simp [hzom] at hrun
  have hc := hr.child_slot
  rw [Kernel.setSlot_slots, if_neg hne] at hc
  obtain rfl := Option.some.inj (hc0.symm.trans hc)
  have hq := hr.par_slot
  rw [Kernel.setSlot_self] at hq
  obtain rfl := Option.some.inj hq
  exact (h.sleeps hp ⟨child, c0, hc0, hpar⟩).reap hr hzom hpar rfl

theorem yield (h : Tree k) : Tree (k.setSlot k.current ((k.procs.slots k.current).map fun p =>
    if p.state = .running then { p with state := .ready } else p)).idle := by
  cases hp : k.procs.slots k.current with
  | none =>
    have hcur : k.current = noProc := by
      by_contra hne
      obtain ⟨p, hp', -⟩ := h.current hne
      simp [hp] at hp'
    rw [Option.map_none, ← hp, Kernel.setSlot_same]
    exact h.congr rfl rfl hcur.symm rfl
  | some p =>
    obtain ⟨p', hp', hrun⟩ := h.current (h.current_ne hp)
    obtain rfl := Option.some.inj (hp.symm.trans hp')
    rw [Option.map_some, if_pos hrun]
    exact h.leave hp rfl rfl rfl nofun nofun nofun rfl rfl
      fun _ hx => hx

/-- Every move keeps the invariant. -/
theorem move (h : Tree k) (he : e.ordinary) (hm : Move e k0 k k') : Tree k' := by
  cases hm with
  | quiet hq => exact h.congr (by rw [hq.procs]) (by rw [hq.procs]) hq.current hq.history
  | trap _ _ => exact h.congr rfl rfl rfl rfl
  | store _ _ _ => exact h.congr rfl rfl rfl rfl
  | memory _ _ _ => exact h.congr rfl rfl rfl rfl
  | result _ _ _ => exact h.congr rfl rfl rfl rfl
  | resume _ => exact h.congr rfl rfl rfl rfl
  | own _ hp hown =>
    obtain ⟨h1, h2, h3⟩ := own_eq hown
    exact h.own hp rfl h1 h2 h3 rfl rfl rfl
  | socket _ hp _ => exact h.own hp rfl rfl rfl rfl rfl rfl rfl
  | close _ _ _ hp _ => exact h.own hp rfl rfl rfl rfl rfl rfl rfl
  | fork _ hslot hp _ _ _ => exact h.fork hslot hp
  | exec _ hp _ _ _ _ _ => exact h.own hp rfl rfl rfl rfl rfl rfl rfl
  | exit _ _ hx _ => exact h.exit hx
  | exitReap _ _ hx hw hr => exact h.exitReap hx hw hr
  | waitReap _ hp hz hr => exact h.waitReap hp hz hr
  | waitBlock _ hp hz => exact h.sleeps hp (waitScan_child (congrArg Prod.fst hz))
  | waitNone _ hp _ =>
    exact h.leave hp rfl rfl rfl nofun nofun nofun rfl rfl fun x hx => List.mem_append_left _ hx
  | block _ _ hp => exact h.leave hp rfl rfl rfl nofun nofun nofun rfl rfl fun _ hx => hx
  | yield _ _ _ => exact h.yield
  | wake hs hp _ _ =>
    obtain ⟨p', hp', hsl⟩ := any_some (position_some hs).2
    obtain rfl := Option.some.inj (hp.symm.trans hp')
    exact h.ready hp rfl (by simp_all) rfl rfl rfl rfl rfl fun _ hx => hx
  | schedule hcur _ hp => exact h.enter hp hcur
  | heapGrow _ _ => exact h.congr rfl rfl rfl rfl
  | spawnFail he' _ _ _ => exact absurd he' he.ne_spawn
  | spawn he' _ _ _ _ _ => exact absurd he' he.ne_spawn

end Tree

/-! ### The state that init starts from -/

/-- Booting leaves an empty process table. -/
structure Fresh (k : Kernel) : Prop where
  procs : k.procs = ⟨fun _ => none, 1, 0⟩
  current : k.current = noProc
  sockets : k.net.sockets = SocketTable.empty
  history : k.history = []

theorem boot_fresh {r : Reset} {k : Kernel} (h : boot r = .ok k) : Fresh k := by
  unfold boot at h
  cases hm : bootMemory r r.machine with
  | error f => simp [hm, bind, Except.bind] at h
  | ok x =>
    simp only [hm, bind, Except.bind, pure, Except.pure, Except.ok.injEq] at h
    subst h
    exact ⟨rfl, rfl, rfl, rfl⟩

theorem heapGrow_ok {size align : ℕ} {k k' : Kernel} (h : Next (.heapGrow size align) k k') :
    ∃ addr m, pageAlloc (growPages size align) { k.machine with account := 0 } = .ok (some addr, m) ∧
      k' = { k with machine := m, regions := ⟨.heap, addr, growPages size align⟩ :: k.regions } := by
  unfold Next step at h
  rw [Prog.get_bind_ok] at h
  unfold heapGrow at h
  obtain ⟨o, k1, h1, h2⟩ := Prog.bind_ok.mp h
  obtain ⟨m, halloc, rfl⟩ := onMachineFor_ok.mp h1
  cases o with
  | none => exact (Prog.stop_ok.mp h2).elim
  | some addr =>
    obtain rfl := Prog.modify_ok.mp h2
    exact ⟨addr, m, halloc, rfl⟩

theorem Booted.fresh {k : Kernel} (h : Booted k) : Fresh k := by
  obtain ⟨r, kb, hb, hr⟩ := h
  refine hr.invariant (boot_fresh hb) ?_
  rintro e s t hc hn ⟨h1, h2, h3, h4⟩
  cases e with
  | heapGrow size align =>
    obtain ⟨addr, m, -, rfl⟩ := heapGrow_ok hn
    exact ⟨h1, h2, h3, h4⟩
  | idle i => exact hc.elim
  | store va b => exact hc.elim
  | trap t => exact hc.elim
  | spawn disk name => exact hc.elim

/-- Init as `kinit` leaves it. -/
theorem Started.spawned {k : Kernel} (h : Started k) : ∃ kb image q entry brk m, Booted kb ∧
    buildAddressSpace image { kb.machine with account := 1 } = .ok (.ok (q, entry, brk), m) ∧
    k = spawnState kb (asciiBytes "init") 0 q entry brk m := by
  obtain ⟨kb, disk, hb, hn, hocc⟩ := h
  have hf := hb.fresh
  unfold Next step at hn
  rw [Prog.get_bind_ok] at hn
  dsimp only at hn
  rw [if_pos hf.current] at hn
  obtain ⟨r, k1, h1, h2⟩ := Prog.bind_ok.mp hn
  obtain rfl := Prog.pure_state h2
  have hempty : ∀ i, kb.procs.slots i = none := by
    intro i
    rw [hf.procs]
  obtain rfl | ⟨image, -, res, m, hbuild, rfl | ⟨q, entry, brk, slot, rfl, hslot, -, rfl⟩⟩ :=
    spawn_ok h1
  · exact absurd (hempty 0) hocc
  · exact absurd (hempty 0) hocc
  · have hnext : kb.procs.nextPid = 1 := by rw [hf.procs]
    have h0 : slot = 0 := by
      have hpos : kb.procs.position (·.isNone) = some 0 := by
        unfold ProcTable.position
        rw [List.range_eq_range', List.range']
        simp [hempty]
      exact Option.some.inj (hslot.symm.trans hpos)
    rw [hnext] at hbuild
    subst h0
    exact ⟨kb, image, q, entry, brk, m, hb, hbuild, rfl⟩

/-- Right after boot the table holds init alone. -/
theorem Started.slots {k : Kernel} (h : Started k) : ∃ p, p.pid = 1 ∧ p.state = .ready ∧
    p.parent = noProc ∧ p.files = [] ∧ ∀ i, k.procs.slots i = if i = 0 then some p else none := by
  obtain ⟨kb, image, q, entry, brk, m, hb, -, rfl⟩ := h.spawned
  have hf := hb.fresh
  refine ⟨freshProcess kb.procs.nextPid noProc q mmapBase brk (setName zeroName (asciiBytes "init")) [],
    ?_, rfl, rfl, rfl, fun i => ?_⟩
  · change kb.procs.nextPid = 1
    rw [hf.procs]
  · change (if i = 0 then _ else kb.procs.slots i) = _
    rw [hf.procs]

theorem Started.rest {k : Kernel} (h : Started k) : k.procs.nextPid = 2 ∧ k.current = noProc ∧
    k.net.sockets = SocketTable.empty ∧ k.history = [] := by
  obtain ⟨kb, image, q, entry, brk, m, hb, -, rfl⟩ := h.spawned
  have hf := hb.fresh
  refine ⟨?_, hf.current, hf.sockets, hf.history⟩
  change kb.procs.nextPid + 1 = 2
  rw [hf.procs]

theorem Started.tree {k : Kernel} (h : Started k) : Tree k := by
  obtain ⟨p, hpid, hst, hpar, -, hslots⟩ := h.slots
  obtain ⟨hn, hc, -, -⟩ := h.rest
  have only : ∀ i q, k.procs.slots i = some q → i = 0 ∧ q = p := by
    intro i q hq
    rw [hslots] at hq
    split_ifs at hq with hi
    exact ⟨hi, (Option.some.inj hq).symm⟩
  refine ⟨?_, ?_, ?_, fun hne => absurd hc hne, ?_, ?_, ?_, ?_⟩
  · intro i q hq
    obtain ⟨rfl, -⟩ := only i q hq
    decide
  · intro i q hq
    obtain ⟨-, rfl⟩ := only i q hq
    omega
  · intro i j q q' hq hq' _
    rw [(only i q hq).1, (only j q' hq').1]
  · intro i q hq hr
    obtain ⟨-, rfl⟩ := only i q hq
    simp [hst] at hr
  · exact ⟨0, p, by rw [hslots, if_pos rfl], hpid, by simp [hst], hpar⟩
  · intro i q hq hne
    obtain ⟨-, rfl⟩ := only i q hq
    exact absurd hpid hne
  · intro i q hq hsl
    obtain ⟨-, rfl⟩ := only i q hq
    simp [hst] at hsl

theorem Tree.step {e : Event} {k k' : Kernel} (h : Tree k) (he : e.ordinary) (hn : Next e k k') :
    Tree k' := hn.keeps h fun _ _ h hm => h.move he hm

/-- The process table of every reachable state is a tree. -/
theorem Reaches.tree {k0 k : Kernel} (hs : Started k0) (hr : Reaches k0 k) : Tree k :=
  hr.invariant hs.tree fun _ _ _ he hn h => h.step he hn

end LightOS
