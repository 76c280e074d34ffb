import LightOS.Progress

/-!
# Small process tables

A machine that has never reaped a process fills its slots from 0 on. The shape of
such a table is the list of its processes with the two indices of the scheduler.
A kernel shows a shape, and each system call here takes it to the next shape.
-/
namespace LightOS
open Lib PageAllocator

/-- The processes in the slots from 0 on, and what the scheduler remembers. -/
structure Shape where
  cur : ℕ
  last : ℕ
  ps : List Process

namespace Shape

/-- The slot that the scheduler takes next. -/
def nextReady (s : Shape) : Option ℕ :=
  (pickOrder s.last).find? fun i => (s.ps[i]?).any (·.state = .ready)

/-- Only the states count. -/
theorem nextReady_eq {s : Shape} (last : ℕ) (states : List ProcState)
    (h : s.ps.map (·.state) = states) (hlast : s.last = last) :
    s.nextReady = (pickOrder last).find? fun i => (states[i]?).any (· = .ready) := by
  subst h hlast
  simp only [nextReady, List.getElem?_map, Option.any_map]

def setState (s : Shape) (i : ℕ) (st : ProcState) : Shape :=
  { s with ps := s.ps.modify i fun p => { p with state := st } }

/-- The current process has given up the hart. -/
def park (s : Shape) : Shape :=
  match s.nextReady with
  | some j => { (s.setState j .running) with cur := j, last := j }
  | none => { s with cur := noProc }

theorem park_eq {s : Shape} {j : ℕ} (h : s.nextReady = some j) :
    s.park = { s.setState j .running with cur := j, last := j } := by rw [park, h]

end Shape

/-- The process table of the kernel has this shape. -/
structure Shows (k : Kernel) (s : Shape) : Prop where
  slots : ∀ i, k.procs.slots i = s.ps[i]?
  current : k.current = s.cur
  last : k.procs.lastRun = s.last
  small : s.ps.length ≤ 8
  nextPid : k.procs.nextPid = s.ps.length + 1

section Shows

variable {k k' : Kernel} {s : Shape} {p : Process} {t : UserTrap} {io : Io}

/-- The hart has gone to the first ready process after the last one it ran. -/
theorem Shows.enters (h : Shows k s.park) (last j : ℕ) (states : List ProcState)
    (hstates : s.ps.map (·.state) = states) (hlast : s.last = last)
    (hj : ((pickOrder last).find? fun i => (states[i]?).any (· = .ready)) = some j) :
    Shows k { s.setState j .running with cur := j, last := j } := by
  rwa [Shape.park_eq ((Shape.nextReady_eq last states hstates hlast).trans hj)] at h

/-- Nobody is ready, and the hart is idle. -/
theorem Shows.idles (h : Shows k s.park) (last : ℕ) (states : List ProcState)
    (hstates : s.ps.map (·.state) = states) (hlast : s.last = last)
    (hnone : ((pickOrder last).find? fun i => (states[i]?).any (· = .ready)) = none) :
    Shows k { s with cur := noProc } := by
  rwa [Shape.park, (Shape.nextReady_eq last states hstates hlast).trans hnone] at h

theorem Shows.lt (h : Shows k s) {i : ℕ} (hp : k.procs.slots i = some p) : i < maxProcs := by
  rw [h.slots] at hp
  have := (List.getElem?_eq_some_iff.mp hp).1
  have := h.small
  simp only [maxProcs]
  omega

theorem Shows.position (h : Shows k s) : k.procs.position (·.isNone) = some s.ps.length := by
  have hsmall := h.small
  refine List.find?_range_eq_some.mpr ⟨?_, ?_, fun i hi => ?_⟩
  · simp [h.slots]
  · simp only [maxProcs, List.mem_range]
    omega
  · simp [h.slots, hi]

/-- One process changes. -/
theorem Shows.modify {c : Kernel} (h : Shows k s) {i : ℕ} (hi : s.ps[i]? = some p) {q : Process}
    (hslots : ∀ j, c.procs.slots j = if j = i then some q else k.procs.slots j)
    (hlast : c.procs.lastRun = k.procs.lastRun) (hpid : c.procs.nextPid = k.procs.nextPid) :
    Shows c ⟨c.current, s.last, s.ps.set i q⟩ := by
  have hlt := (List.getElem?_eq_some_iff.mp hi).1
  refine ⟨fun j => ?_, rfl, hlast.trans h.last, ?_, ?_⟩
  · rw [hslots, List.getElem?_set]
    by_cases hj : j = i
    · subst hj
      simp [hlt]
    · rw [if_neg hj, if_neg (Ne.symm hj), h.slots]
  · simpa using h.small
  · simpa [hpid] using h.nextPid

/-- The scheduler does to the kernel what `Shape.park` does to its shape. -/
theorem Shows.park (h : Shows k s) : ∃ k', LightOS.park k = .ok ((), k') ∧ Shows k' s.park ∧
    k'.machine = k.machine ∧ Aside k k' := by
  have hfind : ((pickOrder k.procs.lastRun).find? fun i => (k.procs.slots i).any (·.state = .ready)) =
      s.nextReady := by
    rw [Shape.nextReady, h.last]
    simp only [h.slots]
  unfold Shape.park
  cases hs : s.nextReady with
  | none =>
    rw [hs] at hfind
    refine ⟨k.idle, park_stays fun i hi p hp hst => ?_, ⟨h.slots, rfl, h.last, h.small, h.nextPid⟩,
      rfl, ⟨rfl, rfl, rfl⟩⟩
    obtain ⟨j, hj, he⟩ : ∃ j < maxProcs, (k.procs.lastRun + (j + 1)) % maxProcs = i := by
      refine ⟨(i + 2 * maxProcs - 1 - k.procs.lastRun % maxProcs) % maxProcs,
        Nat.mod_lt _ (by decide), ?_⟩
      simp only [maxProcs] at *
      omega
    refine List.find?_eq_none.mp hfind i (List.mem_map.mpr ⟨j, List.mem_range.mpr hj, he⟩) ?_
    simp [hp, hst]
  | some j =>
    rw [hs] at hfind
    have hany := List.find?_some hfind
    obtain ⟨p, hp, hready⟩ : ∃ p, k.procs.slots j = some p ∧ p.state = .ready := by
      cases hp : k.procs.slots j with
      | none => simp [hp] at hany
      | some p => exact ⟨p, rfl, by simpa [hp] using hany⟩
    have hj := h.slots j
    rw [hp] at hj
    refine ⟨entered j p k.idle, park_picks (h.lt hp) hfind hp, ?_, rfl, ⟨rfl, rfl, rfl⟩⟩
    have hset : s.ps.modify j (fun p => { p with state := .running }) =
        s.ps.set j { p with state := .running } := by
      rw [List.modify_eq_set_getElem?, ← hj]
      rfl
    have hm := h.modify hj.symm (c := { entered j p k.idle with
      procs := { (entered j p k.idle).procs with lastRun := k.procs.lastRun } })
      (q := { p with state := .running }) (fun i => rfl) rfl rfl
    refine ⟨?_, rfl, rfl, ?_, ?_⟩
    · simp only [Shape.setState, hset]
      exact hm.slots
    · simpa [Shape.setState] using h.small
    · have hpid : (entered j p k.idle).procs.nextPid = k.procs.nextPid := rfl
      simpa [Shape.setState, hpid] using h.nextPid

end Shows

/-! ### Runs -/

/-- The machine has come here by ordinary steps. -/
def Reached (k : Kernel) : Prop := ∃ k0, Started k0 ∧ ReachesWindow k0 k

section Calls

variable {k k' : Kernel} {s : Shape} {p : Process} {t : UserTrap} {io : Io} {no : Sysno}

theorem Reached.memory (h : Reached k) : ∃ role, Memory role k := by
  obtain ⟨k0, hs, hr⟩ := h
  exact ReachesWindow.memory hs hr

theorem Reached.call (h : Reached k) (hc : Calls t io no) (hno : no ≠ .munmap)
    (hn : Next (.trap t) k k') : Reached k' := by
  obtain ⟨k0, hs, hr⟩ := h
  refine ⟨k0, hs, hr.snoc (e := .trap t) ⟨trivial, fun t' io' hc' => ?_⟩ hn⟩
  obtain rfl := Event.trap.inj hc'.event
  exact absurd (hc.number.symm.trans hc'.nr) hno

theorem Reached.timer (h : Reached k) (ht : t.cause = .interrupt .timer)
    (hn : Next (.trap t) k k') : Reached k' := by
  obtain ⟨k0, hs, hr⟩ := h
  refine ⟨k0, hs, hr.snoc (e := .trap t) ⟨trivial, fun t' io' hc' => ?_⟩ hn⟩
  obtain rfl := Event.trap.inj hc'.event
  exact absurd (ht.symm.trans hc'.cause) (by simp)

theorem Reached.idle (h : Reached k) {i : Option Interrupt} (hn : Next (.idle i) k k') :
    Reached k' := by
  obtain ⟨k0, hs, hr⟩ := h
  exact ⟨k0, hs, hr.snoc (e := .idle i) ⟨trivial, Event.unmapsWindow_of_not_trap (by simp)⟩ hn⟩

/-- There are frames for `n` more forks of the process. -/
structure Room (n : ℕ) (k : Kernel) (root : ℕ) : Prop where
  pages : (userPages k.machine root).length ≤ 17
  free : 52 * n ≤ k.machine.pages.freeFrames

theorem Shows.fork (h : Shows k s) (hr : Reached k) (hc : Calls t io .clone)
    (hp : s.ps[s.cur]? = some p) (hsmall : s.ps.length < 8) {n : ℕ} (hroom : Room (n + 1) k p.rootPa) :
    ∃ k' r, Next (.trap t) k k' ∧ Reached k' ∧
      k'.history = k.history ++ [.forked p.pid (s.ps.length + 1)] ∧ Shows k' { s with ps := s.ps ++
        [freshProcess (s.ps.length + 1) s.cur r p.nextMmap p.brk p.name p.files] } ∧
      Room n k' r ∧ Aside k k' := by
  obtain ⟨role, hm⟩ := hr.memory
  have hslot : k.procs.slots k.current = some p := by rw [h.slots, h.current, hp]
  obtain ⟨hpages, hfree⟩ := hroom
  obtain ⟨k', r, hn, hcur, hslots, hpid, hlast, haside, hcost, hle, -, hhist⟩ :=
    fork_next hm hc (h.lt hslot) hslot h.position
      (by rw [h.nextPid]; simp only [usizeBound]; omega) (by omega)
  refine ⟨k', r, hn, hr.call hc (by simp) hn, by rw [hhist, h.nextPid], ⟨fun i => ?_,
    hcur.trans h.current, hlast.trans h.last, ?_, ?_⟩, ⟨by omega, by omega⟩, haside⟩
  · rw [hslots, List.getElem?_append, forkChild, h.current, h.nextPid]
    by_cases hi : i < s.ps.length
    · rw [if_neg (by omega), if_pos hi, h.slots]
    · rw [if_neg hi]
      by_cases he : i = s.ps.length
      · simp [he]
      · rw [if_neg he, h.slots, List.getElem?_eq_none (by omega), List.getElem?_eq_none]
        simp only [List.length_singleton]
        omega
  · simpa using hsmall
  · simp [hpid, h.nextPid]

theorem Room.congr {n : ℕ} {root : ℕ} (h : Room n k root) (hm : k'.machine = k.machine) :
    Room n k' root := ⟨hm ▸ h.pages, hm ▸ h.free⟩

/-- Only parents and states count for the scan of wait4. -/
theorem waitScan_eq {ps : List Process} (cur : ℕ) (l : List (ℕ × ProcState))
    (h : ps.map (fun p => (p.parent, p.state)) = l) : waitScan ⟨fun i => ps[i]?, 0, 0⟩ cur =
      ((List.range maxProcs).any fun i => (l[i]?).any (·.1 = cur),
        (List.range maxProcs).find? fun i => (l[i]?).any fun q => q.1 = cur && q.2 = .zombie) := by
  subst h
  simp only [waitScan, List.getElem?_map, Option.any_map]

theorem Shows.wait (h : Shows k s) (hr : Reached k) (hc : Calls t io .wait4)
    (hp : s.ps[s.cur]? = some p) (hz : waitScan ⟨fun i => s.ps[i]?, 0, 0⟩ s.cur = (true, none)) :
    ∃ k', Next (.trap t) k k' ∧ Reached k' ∧
      Shows k' (Shape.park { s with ps := s.ps.set s.cur (asleep p (t.arg 11)) }) ∧
      k'.machine = k.machine ∧ Aside k k' := by
  have hslot : k.procs.slots k.current = some p := by rw [h.slots, h.current, hp]
  have hscan : waitScan k.procs k.current = (true, none) := by
    rw [h.current, ← hz]
    simp only [waitScan, h.slots]
  have hshow := h.modify hp (c := (trapState t k).setSlot k.current (some (asleep p (t.arg 11))))
    (q := asleep p (t.arg 11)) (fun j => by rw [← h.current]; rfl) rfl rfl
  obtain ⟨k', hpark, hshow', hmach, haside⟩ := hshow.park
  have hcur : ((trapState t k).setSlot k.current (some (asleep p (t.arg 11)))).current = s.cur :=
    h.current
  rw [hcur] at hshow'
  have hn := wait_next hc (h.lt hslot) hslot hscan hpark
  exact ⟨k', hn, hr.call hc (by simp) hn, hshow', hmach, haside.rx, haside.sockets, haside.ticks⟩

theorem Shows.timer (h : Shows k s) (hr : Reached k) (ht : t.cause = .interrupt .timer)
    (hp : s.ps[s.cur]? = some p) (hrun : p.state = .running) (hticks : k.ticks + 1 < usizeBound) :
    ∃ k', Next (.trap t) k k' ∧ Reached k' ∧
      Shows k' (Shape.park { s with ps := s.ps.set s.cur { p with state := .ready } }) ∧
      k'.machine = k.machine ∧ k'.rx = k.rx ∧ k'.net.sockets = k.net.sockets ∧
      k'.ticks = k.ticks + 1 := by
  have hslot : k.procs.slots k.current = some p := by rw [h.slots, h.current, hp]
  have hshow := h.modify hp (c := { trapState t k with ticks := k.ticks + 1 }.setSlot k.current
    (some { p with state := .ready })) (q := { p with state := .ready })
    (fun j => by rw [← h.current]; rfl) rfl rfl
  obtain ⟨k', hpark, hshow', hmach, haside⟩ := hshow.park
  have hcur : ({ trapState t k with ticks := k.ticks + 1 }.setSlot k.current
    (some { p with state := .ready })).current = s.cur := h.current
  rw [hcur] at hshow'
  have hn := timer_next ht (h.lt hslot) hslot hrun hticks hpark
  exact ⟨k', hn, hr.timer ht hn, hshow', hmach, haside.rx, haside.sockets, haside.ticks⟩

theorem Shows.read (h : Shows k s) (hr : Reached k) (hc : Calls t io .read)
    (hp : s.ps[s.cur]? = some p) (hfd : t.arg 10 = 0) (hlen : t.arg 12 ≠ 0)
    (hempty : k.rx.head = k.rx.tail) :
    ∃ k', Next (.trap t) k k' ∧ Reached k' ∧ Shows k' (Shape.park { s with ps := s.ps.set s.cur { p with
        state := .sleepConsole, readBufUva := t.arg 11, readLen := t.arg 12 } }) ∧
      k'.machine = k.machine ∧ Aside k k' := by
  have hslot : k.procs.slots k.current = some p := by rw [h.slots, h.current, hp]
  have hb : k.rx.readBytes (min (t.arg 12) 128) = ([], k.rx) := by
    obtain ⟨n, hn⟩ : ∃ n, min (t.arg 12) 128 = n + 1 := ⟨min (t.arg 12) 128 - 1, by omega⟩
    rw [hn, RxRing.readBytes, RxRing.readByte, if_pos hempty]
  have hshow := h.modify hp (c := { trapState t k with rx := k.rx }.setSlot k.current (some { p with
    state := .sleepConsole, readBufUva := t.arg 11, readLen := t.arg 12 }))
    (q := { p with state := .sleepConsole, readBufUva := t.arg 11, readLen := t.arg 12 })
    (fun j => by rw [← h.current]; rfl) rfl rfl
  obtain ⟨k', hpark, hshow', hmach, haside⟩ := hshow.park
  have hcur : ({ trapState t k with rx := k.rx }.setSlot k.current (some { p with
    state := .sleepConsole, readBufUva := t.arg 11, readLen := t.arg 12 })).current = s.cur :=
    h.current
  rw [hcur] at hshow'
  have hn := read_next hc (h.lt hslot) hslot hfd hlen hb hpark
  exact ⟨k', hn, hr.call hc (by simp) hn, hshow', hmach, haside.rx, haside.sockets, haside.ticks⟩

theorem Shows.socket (h : Shows k s) (hr : Reached k) (hc : Calls t io .socket)
    (hp : s.ps[s.cur]? = some p) (hfiles : p.files = []) (ha0 : t.arg 10 = afInet)
    (ha1 : t.arg 11 = sockDgram) {idx : ℕ} {st : SocketTable}
    (ha : k.net.sockets.alloc = some (idx, st)) :
    ∃ k', Next (.trap t) k k' ∧ Reached k' ∧ Shows k' { s with ps := s.ps.set s.cur { p with
        files := [some ⟨.socket idx k.net.sockets.nextSerial, 0⟩] } } ∧
      k'.machine = k.machine ∧ k'.net.sockets = st ∧ k'.ticks = k.ticks := by
  have hslot : k.procs.slots k.current = some p := by rw [h.slots, h.current, hp]
  obtain ⟨k', hn, hcur, hsock, hslots, hlast, hpid, hmach, hticks⟩ :=
    socket_next hc (h.lt hslot) hslot hfiles ha0 ha1 ha
  have hshow := h.modify (c := k') hp (fun j => by rw [hslots, h.current]) hlast hpid
  rw [hcur, h.current] at hshow
  exact ⟨k', hn, hr.call hc (by simp) hn, hshow, hmach, hsock, hticks⟩

theorem Shows.close (h : Shows k s) (hr : Reached k) (hc : Calls t io .close)
    (hp : s.ps[s.cur]? = some p) {idx serial pos : ℕ}
    (hfiles : p.files = [some ⟨.socket idx serial, pos⟩]) (ha0 : t.arg 10 = 3) :
    ∃ k', Next (.trap t) k k' ∧ Reached k' ∧
      Shows k' { s with ps := s.ps.set s.cur { p with files := [none] } } ∧
      k'.net.sockets = k.net.sockets.free idx := by
  have hslot : k.procs.slots k.current = some p := by rw [h.slots, h.current, hp]
  obtain ⟨k', hn, hcur, hsock, hslots, hlast, hpid⟩ := close_next hc (h.lt hslot) hslot hfiles ha0
  have hshow := h.modify (c := k') hp (fun j => by rw [hslots, h.current]) hlast hpid
  rw [hcur, h.current] at hshow
  exact ⟨k', hn, hr.call hc (by simp) hn, hshow, hsock⟩

/-- The current process has become a zombie, and init in slot 0 adopts its children. -/
def Shape.exit (s : Shape) (code : ℤ) : Shape :=
  { s with ps := (s.ps.map (adopt s.cur (some 0))).modify s.cur fun p =>
      { p with state := .zombie, exitCode := code } }

theorem adopt_pid (cur : ℕ) (init : Option ℕ) (p : Process) : (adopt cur init p).pid = p.pid := by
  unfold adopt
  split_ifs <;> rfl

theorem adopt_state (cur : ℕ) (init : Option ℕ) (p : Process) : (adopt cur init p).state = p.state := by
  unfold adopt
  split_ifs <;> rfl

theorem adopt_only (cur : ℕ) (init : Option ℕ) (p : Process) :
    ∃ par, adopt cur init p = { p with parent := par } := by
  unfold adopt
  split_ifs
  · exact ⟨_, rfl⟩
  · exact ⟨p.parent, rfl⟩

theorem adopt_exitCode (cur : ℕ) (init : Option ℕ) (p : Process) :
    (adopt cur init p).exitCode = p.exitCode := by
  unfold adopt
  split_ifs <;> rfl

/-- Init is in slot 0. -/
theorem Shows.initSlot (h : Shows k s) {ip : Process} (hip : s.ps[0]? = some ip)
    (hinit : ip.pid = 1) : LightOS.initSlot k.procs = some 0 := by
  refine List.find?_range_eq_some.mpr ⟨?_, by decide, fun j hj => absurd hj (by omega)⟩
  simp [h.slots, hip, hinit]

theorem Shows.exit (h : Shows k s) (hr : Reached k) (hc : Calls t io .exit)
    (hp : s.ps[s.cur]? = some p) (hpid : p.pid ≠ 1) {ip par : Process} (hip : s.ps[0]? = some ip)
    (hinit : ip.pid = 1) (hpar : s.ps[p.parent]? = some par) (hst : par.state ≠ .sleepChild)
    (hself : p.parent ≠ s.cur) :
    ∃ k', Next (.trap t) k k' ∧ Reached k' ∧ Shows k' (s.exit (toI32 (t.arg 10))).park ∧
      Aside k k' := by
  obtain ⟨role, hm⟩ := hr.memory
  have hslot : k.procs.slots k.current = some p := by rw [h.slots, h.current, hp]
  have hparent : k.procs.slots p.parent = some par := by rw [h.slots, hpar]
  obtain ⟨m1, k1, hx, hnext⟩ := exit_next hm hc (h.lt hslot) hslot hpid
  have hinitSlot : LightOS.initSlot (trapState t k).procs = some 0 := h.initSlot hip hinit
  have hslots := Tree.exit_slots hx
  rw [hinitSlot] at hslots
  have hcur : (trapState t k).current = s.cur := h.current
  have hshow : Shows k1 (s.exit (toI32 (t.arg 10))) := by
    refine ⟨fun i => ?_, ?_, ?_, ?_, ?_⟩
    · rw [hslots, hcur, Shape.exit, List.getElem?_modify, List.getElem?_map]
      by_cases hi : i = s.cur
      · rw [if_pos hi, hi, hp]
        simp
      · rw [if_neg hi, ← h.slots]
        simp only [if_neg (Ne.symm hi)]
        change (k.procs.slots i).map _ = Option.map _ ((k.procs.slots i).map _)
        rw [Option.map_map]
        rfl
    · rw [hx.state]
      exact h.current
    · rw [hx.state]
      exact h.last
    · simpa [Shape.exit] using h.small
    · rw [hx.state]
      change k.procs.nextPid = _
      simpa [Shape.exit] using h.nextPid
  have hno : ¬ ParentWaits k1 p := by
    rintro ⟨-, par', hpar', hst'⟩
    rw [hslots, hcur, if_neg hself] at hpar'
    change (k.procs.slots p.parent).map _ = _ at hpar'
    rw [hparent, Option.map_some, Option.some.injEq] at hpar'
    rw [← hpar', adopt_state] at hst'
    exact hst hst'
  obtain ⟨k', hpark, hshow', hmach, haside⟩ := hshow.park
  have hn := hnext k' (exit_parks (h.lt hparent) hno hpark)
  refine ⟨k', hn, hr.call hc (by simp) hn, hshow', ?_⟩
  refine ⟨haside.rx.trans ?_, haside.sockets.trans ?_, haside.ticks.trans ?_⟩
  all_goals
    rw [hx.state]
    rfl

/-- The exit of a process whose parent waits: it is reaped at once, and init in slot 0 adopts
its children. -/
theorem Shows.reaped (h : Shows k s) (hr : Reached k) (hc : Calls t io .exit)
    (hp : s.ps[s.cur]? = some p) (hpid : p.pid ≠ 1) {ip par : Process} (hip : s.ps[0]? = some ip)
    (hinit : ip.pid = 1) (hpar : s.ps[p.parent]? = some par) (hst : par.state = .sleepChild)
    (hself : p.parent ≠ s.cur) :
    ∃ k', Next (.trap t) k k' ∧ Reached k' ∧ k'.procs.slots s.cur = none ∧
      k'.history = k.history ++ [.exited p.pid (toI32 (t.arg 10)), .reaped par.pid p.pid] ∧
      (∃ st, (st = .ready ∨ st = .running) ∧
        k'.procs.slots p.parent = some { adopt s.cur (some 0) par with state := st }) ∧
      ∀ i q, i ≠ s.cur → i ≠ p.parent → s.ps[i]? = some q → q.state ≠ .ready →
        k'.procs.slots i = some (adopt s.cur (some 0) q) := by
  obtain ⟨role, hm⟩ := hr.memory
  have hslot : k.procs.slots k.current = some p := by rw [h.slots, h.current, hp]
  have hparent : k.procs.slots p.parent = some par := by rw [h.slots, hpar]
  have hcur : (trapState t k).current = s.cur := h.current
  obtain ⟨m1, k1, hx, hnext⟩ := exit_next hm hc (h.lt hslot) hslot hpid
  have hinitSlot := h.initSlot hip hinit
  have hslots := Tree.exit_slots hx
  rw [show LightOS.initSlot (trapState t k).procs = some 0 from hinitSlot, hcur] at hslots
  have hm1 : ∃ role', Memory role' k1 := by
    have hmt : Memory role (trapState t k) := hm.congr rfl rfl rfl
    obtain ⟨role', -, hm'⟩ := hmt.exit hx
    exact ⟨role', hm'⟩
  obtain ⟨role', hm1⟩ := hm1
  -- the parent sleeps still, and the process is a zombie
  have h0 : k1.procs.slots p.parent = some (adopt s.cur (some 0) par) := by
    rw [hslots, if_neg hself]
    change (k.procs.slots p.parent).map _ = _
    rw [hparent]
    rfl
  have h1 : k1.procs.slots s.cur = some { adopt s.cur (some 0) p with
      state := .zombie, exitCode := toI32 (t.arg 10) } := by
    rw [hslots, if_pos rfl]
  have hlt : s.cur < maxProcs := h.lt (h.current ▸ hslot)
  obtain ⟨k2, hreap⟩ := completeWait_returns hm1 h0 h1 (h.lt hparent) hlt
  obtain ⟨k', hpark⟩ := park_returns k2
  have hn := hnext k' (by
    rw [h.current]
    exact exit_reaps (h.lt hparent) h0 (by rw [adopt_state]; exact hst) hreap hpark)
  obtain ⟨c, q, m2, m3, hr2⟩ := completeWait_ok hreap
  obtain rfl := Option.some.inj (h1.symm.trans hr2.child_slot)
  obtain rfl := Option.some.inj (h0.symm.trans hr2.par_slot)
  obtain ⟨-, hhist, -, hkeep⟩ := (park_ok hpark).rest
  have hslots2 : ∀ i, k2.procs.slots i = if i = s.cur then none else if i = p.parent then
      some { adopt s.cur (some 0) par with state := .ready } else k1.procs.slots i := by
    intro i
    rw [hr2.state]
    change ((Kernel.setSlot _ p.parent _).setSlot s.cur none).procs.slots i = _
    rw [Kernel.setSlot_slots, Kernel.setSlot_slots]
  refine ⟨k', hn, hr.call hc (by simp) hn, ?_, ?_, ?_, fun i q hi hi' hq hready => ?_⟩
  · rcases hkeep s.cur with he | ⟨x, hx, -⟩
    · exact he.trans ((hslots2 _).trans (if_pos rfl))
    · exact absurd (hx.symm.trans ((hslots2 _).trans (if_pos rfl))) (Option.some_ne_none x)
  · rw [hhist]
    change k2.history = _
    rw [hr2.state]
    change k1.history ++ [_] = _
    rw [hx.state]
    change (k.history ++ [_]) ++ [ProcEvent.reaped (adopt s.cur (some 0) par).pid
      (adopt s.cur (some 0) p).pid] = _
    rw [adopt_pid, adopt_pid, List.append_assoc]
    rfl
  · have hpar2 := hslots2 p.parent
    rw [if_neg hself, if_pos rfl] at hpar2
    rcases hkeep p.parent with he | ⟨x, hx, -, he⟩
    · exact ⟨_, .inl rfl, he.trans hpar2⟩
    · obtain rfl := Option.some.inj (hpar2.symm.trans hx)
      exact ⟨_, .inr rfl, he⟩
  · have hq2 : k2.procs.slots i = some (adopt s.cur (some 0) q) := by
      rw [hslots2, if_neg hi, if_neg hi', hslots, if_neg hi]
      change (k.procs.slots i).map _ = _
      rw [h.slots, hq]
      rfl
    rcases hkeep i with he | ⟨x, hx, hxr, -⟩
    · exact he.trans hq2
    · obtain rfl := Option.some.inj (hq2.symm.trans hx)
      rw [adopt_state] at hxr
      exact absurd hxr hready

end Calls

/-- A descendant of `p` that has inherited everything from it. -/
def kid (p : Process) (pid parent root : ℕ) (st : ProcState) : Process :=
  { freshProcess pid parent root p.nextMmap p.brk p.name p.files with state := st }

/-! ### A first process and its traps -/

/-- No disk and no network. -/
def noIo : Io := ⟨fun _ => .error "", ⟨fun _ => [], false⟩⟩

/-- A system call with the number in a7 and three arguments. -/
def callTrap (nr a0 a1 a2 : ℕ) : UserTrap :=
  { regs := fun i => if i = 17 then UInt64.ofNat nr else if i = 10 then UInt64.ofNat a0
      else if i = 11 then UInt64.ofNat a1 else if i = 12 then UInt64.ofNat a2 else 0
    sepc := 0
    sstatus := 0
    cause := .ecall noIo }

theorem callTrap_calls {no : Sysno} (nr a0 a1 a2 : ℕ)
    (h : Sysno.ofNr ((callTrap nr a0 a1 a2).arg 17) = no) : Calls (callTrap nr a0 a1 a2) noIo no :=
  ⟨rfl, h, show 0 + 4 < usizeBound by decide⟩

def timerTrap : UserTrap := ⟨fun _ => 0, 0, 0, .interrupt .timer⟩

/-- The first process runs, with the page of its program at `va`, and nothing else has
happened. -/
structure FirstRunAt (va : ℕ) (k : Kernel) (p : Process) : Prop where
  start : ∃ k0, Started k0 ∧ Next (.idle none) k0 k
  shows_ : Shows k ⟨0, 0, [p]⟩
  pid : p.pid = 1
  state : p.state = .running
  parent : p.parent = noProc
  files : p.files = []
  mmap : p.nextMmap = mmapBase
  rx : k.rx = RxRing.empty
  sockets : k.net.sockets = SocketTable.empty
  ticks : k.ticks = 0
  room : Room 8 k p.rootPa
  own_page : userVa (vpn va 1) (vpn va 0) ∈ userPages k.machine p.rootPa
  pages_of : ∀ a ∈ userPages k.machine p.rootPa, ∃ b ∈ onePageVas va, SamePage a b

/-- The same for the smallest program. -/
abbrev FirstRun (k : Kernel) (p : Process) : Prop := FirstRunAt 0x40000000 k p

theorem FirstRunAt.reached {va : ℕ} {k : Kernel} {p : Process} (h : FirstRunAt va k p) :
    Reached k := by
  obtain ⟨k0, hs, hn⟩ := h.start
  exact Reached.idle ⟨k0, hs, .refl _⟩ hn

theorem FirstRunAt.slot {va : ℕ} {k : Kernel} {p : Process} (h : FirstRunAt va k p) :
    k.procs.slots 0 = some p := by
  rw [h.shows_.slots]
  rfl

theorem FirstState.shows_ {va : ℕ} {k : Kernel} {p : Process} (hf : FirstState va k p) :
    Shows k ⟨noProc, 0, [p]⟩ := by
  refine ⟨fun i => ?_, hf.current, hf.lastRun, by simp, by simp [hf.nextPid]⟩
  rw [hf.slots]
  cases i with
  | zero => rfl
  | succ i => simp

theorem exists_firstRunAt {image : List UInt8} {entry va : ℕ} (h : OnePage image entry va) :
    ∃ k p, FirstRunAt va k p := by
  obtain ⟨k, p, hf⟩ := exists_first h
  have hshow := hf.shows_
  have hnext : Shape.nextReady ⟨noProc, 0, [p]⟩ = some 0 := by
    rw [Shape.nextReady_eq 0 [.ready] (by simp [hf.state]) rfl]
    decide
  obtain ⟨k', hpark, hshow', hmach, haside⟩ := hshow.park
  have hsched : schedule k = .ok ((), k') := by
    unfold park at hpark
    rw [Prog.modify_bind_ok] at hpark
    rwa [show ({ k with current := noProc } : Kernel) = k by rw [← hf.current]] at hpark
  have hn := idle_next hf.current hsched
  refine ⟨k', { p with state := .running }, ?_, ?_, hf.pid, rfl, hf.parent, hf.files,
    hf.mmap, haside.rx.trans hf.rx, haside.sockets.trans hf.sockets, haside.ticks.trans hf.ticks,
    ⟨?_, ?_⟩, ?_, ?_⟩
  · exact ⟨k, hf.started, hn⟩
  · rw [Shape.park, hnext] at hshow'
    exact hshow'
  · rw [hmach]
    exact hf.pages
  · rw [hmach]
    have := hf.free
    omega
  · rw [hmach]
    exact hf.own_page
  · rw [hmach]
    exact hf.pages_of

theorem exists_firstRun : ∃ k p, FirstRun k p := exists_firstRunAt tinyImage_onePage

/-! ### A family -/

/-- Init forks A and waits; A forks B and loses the hart to it; B exits, and then A, for whom
init waits. -/
structure Family (k0 k1 k2 k3 k4 k5 k6 k7 : Kernel) (p : Process) (ra rb : ℕ) : Prop where
  started : Started k0
  enter : Next (.idle none) k0 k1
  forkA : Next (.trap (callTrap 220 0 0 0)) k1 k2
  wait : Next (.trap (callTrap 260 0 0 0)) k2 k3
  forkB : Next (.trap (callTrap 220 0 0 0)) k3 k4
  timer : Next (.trap timerTrap) k4 k5
  exitB : Next (.trap (callTrap 93 0 0 0)) k5 k6
  exitA : Next (.trap (callTrap 93 0 0 0)) k6 k7
  pid : p.pid = 1
  parent : p.parent = noProc
  shows4 : Shows k4 ⟨1, 1, [asleep p 0, kid p 2 0 ra .running, freshProcess 3 1 rb p.nextMmap p.brk
    p.name p.files]⟩
  shows5 : Shows k5 ⟨2, 2, [asleep p 0, kid p 2 0 ra .ready, kid p 3 1 rb .running]⟩
  shows6 : Shows k6 ⟨1, 1, [asleep p 0, kid p 2 0 ra .running, kid p 3 1 rb .zombie]⟩
  slot_init : ∃ st, (st = .ready ∨ st = .running) ∧
    k7.procs.slots 0 = some { asleep p 0 with state := st }
  slot_A : k7.procs.slots 1 = none
  slot_B : k7.procs.slots 2 = some (kid p 3 0 rb .zombie)
  forkedB : .forked 2 3 ∈ k4.history
  reapedA : .reaped 1 2 ∈ k7.history

/-- The run meets a condition if its steps do. -/
theorem Family.reaches {k0 k1 k2 k3 k4 k5 k6 k7 : Kernel} {p : Process} {ra rb : ℕ}
    {C : Event → Kernel → Prop} (h : Family k0 k1 k2 k3 k4 k5 k6 k7 p ra rb)
    (henter : C (.idle none) k0) (hfork : ∀ k, C (.trap (callTrap 220 0 0 0)) k)
    (hwait : ∀ k, C (.trap (callTrap 260 0 0 0)) k) (htimer : ∀ k, C (.trap timerTrap) k)
    (hB : C (.trap (callTrap 93 0 0 0)) k5) (hA : C (.trap (callTrap 93 0 0 0)) k6) :
    ReachesIf C k0 k4 ∧ ReachesIf C k0 k6 ∧ ReachesIf C k0 k7 := by
  have hord (t : UserTrap) : (Event.trap t).ordinary := trivial
  have hidle : (Event.idle none).ordinary := trivial
  have h1 : ReachesIf C k0 k1 := Runs.snoc (.refl k0) ⟨hidle, henter⟩ h.enter
  have h2 : ReachesIf C k0 k2 := h1.snoc ⟨hord _, hfork _⟩ h.forkA
  have h3 : ReachesIf C k0 k3 := h2.snoc ⟨hord _, hwait _⟩ h.wait
  have h4 : ReachesIf C k0 k4 := h3.snoc ⟨hord _, hfork _⟩ h.forkB
  have h5 : ReachesIf C k0 k5 := h4.snoc ⟨hord _, htimer _⟩ h.timer
  have h6 : ReachesIf C k0 k6 := h5.snoc ⟨hord _, hB⟩ h.exitB
  exact ⟨h4, h6, h6.snoc ⟨hord _, hA⟩ h.exitA⟩

theorem exists_family : ∃ k0 k1 k2 k3 k4 k5 k6 k7 p ra rb, Family k0 k1 k2 k3 k4 k5 k6 k7 p ra rb := by
  obtain ⟨k1, p, hf⟩ := exists_firstRun
  obtain ⟨k0, hs, n1⟩ := hf.start
  have hparent : p.parent ≠ 2 ∧ p.parent ≠ 1 := by
    rw [hf.parent]
    decide
  obtain ⟨k2, ra, n2, r2, h2, s2, room2, a2⟩ := hf.shows_.fork hf.reached (callTrap_calls 220 0 0 0 rfl)
    rfl (show 1 < 8 by decide) hf.room
  obtain ⟨k3, n3, r3, s3, m3, a3⟩ := s2.wait r2 (callTrap_calls 260 0 0 0 rfl) rfl (by
    rw [waitScan_eq 0 [(noProc, .running), (0, .ready)] (by simp [hf.parent, hf.state, freshProcess])]
    decide)
  replace s3 : Shows k3 ⟨1, 1, [asleep p 0, kid p 2 0 ra .running]⟩ :=
    s3.enters 0 1 [.sleepChild, .ready] rfl rfl (by decide)
  -- A forks B and loses the hart to it
  obtain ⟨k4, rb, n4, r4, h4, s4, -, a4⟩ := s3.fork r3 (callTrap_calls 220 0 0 0 rfl) rfl
    (show 2 < 8 by decide) (room2.congr m3)
  have ticks4 : k4.ticks = 0 := by rw [a4.ticks, a3.ticks, a2.ticks, hf.ticks]
  obtain ⟨k5, n5, r5, s5, -⟩ := s4.timer r4 (t := timerTrap) rfl rfl rfl (by rw [ticks4]; decide)
  replace s5 : Shows k5 ⟨2, 2, [asleep p 0, kid p 2 0 ra .ready, kid p 3 1 rb .running]⟩ :=
    s5.enters 1 2 [.sleepChild, .ready, .ready] rfl rfl (by decide)
  -- B exits while A is ready
  obtain ⟨k6, n6, r6, s6, -⟩ := s5.exit r5 (callTrap_calls 93 0 0 0 rfl) rfl (show 3 ≠ 1 by decide) rfl
    hf.pid rfl (show ProcState.ready ≠ .sleepChild by decide) (show 1 ≠ 2 by decide)
  have e6 : Shape.exit ⟨2, 2, [asleep p 0, kid p 2 0 ra .ready, kid p 3 1 rb .running]⟩
      (toI32 ((callTrap 93 0 0 0).arg 10)) =
      ⟨2, 2, [asleep p 0, kid p 2 0 ra .ready, kid p 3 1 rb .zombie]⟩ := by
    simp [Shape.exit, adopt, asleep, kid, freshProcess, hparent.1, callTrap, UserTrap.arg, toI32]
  rw [e6] at s6
  replace s6 : Shows k6 ⟨1, 1, [asleep p 0, kid p 2 0 ra .running, kid p 3 1 rb .zombie]⟩ :=
    s6.enters 2 1 [.sleepChild, .ready, .zombie] rfl rfl (by decide)
  -- A exits, and init is told
  obtain ⟨k7, n7, -, hnone, h7, ⟨st, hst, h0⟩, hrest⟩ := s6.reaped r6 (callTrap_calls 93 0 0 0 rfl) rfl
    (show 2 ≠ 1 by decide) rfl hf.pid rfl rfl (show 0 ≠ 1 by decide)
  have hadopt : adopt 1 (some 0) (asleep p 0) = asleep p 0 := if_neg hparent.2
  refine ⟨k0, k1, k2, k3, k4, k5, k6, k7, p, ra, rb, hs, n1, n2, n3, n4, n5, n6, n7, hf.pid,
    hf.parent, s4, s5, s6, ⟨st, hst, ?_⟩, hnone, hrest 2 _ (show 2 ≠ 1 by decide) (show 2 ≠ 0 by decide) rfl
      (show ProcState.zombie ≠ .ready by decide), ?_, ?_⟩
  · rw [← hadopt]
    exact h0
  · rw [h4]
    exact List.mem_append_right _ (List.mem_singleton_self _)
  · rw [h7, show (asleep p 0).pid = 1 from hf.pid]
    exact List.mem_append_right _ (by simp [kid, freshProcess])

end LightOS
