import LightOS.ProcessTree
import LightOS.Shapes

/-!
# Processes blocked in wait4

A parent that sleeps in wait4 is woken by the exit of a child. A zombie can also
become a child of init while init sleeps: by the exit of its own parent, after
which nobody looks at init. Without such an exit no sleeper has a zombie child.
-/
namespace LightOS
open Lib

/-- The current process ends in this step, by exit or by a fault. -/
def Exits (e : Event) : Prop :=
  ∃ t, e = .trap t ∧ ((∃ sc, t.cause = .fault sc) ∨ ∃ io, Call e t io .exit)

/-- No process sleeps in wait4 while it has a zombie child. -/
def NoLostWakeup (k : Kernel) : Prop :=
  ∀ i j p c, k.procs.slots i = some p → p.state = .sleepChild → k.procs.slots j = some c →
    c.parent = i → c.state ≠ .zombie

/-- A process that ends leaves no zombie child to a sleeping init, unless its own
end wakes init. -/
def LeavesNoZombie (e : Event) (k : Kernel) : Prop :=
  Exits e → ∀ p i ip j c, k.procs.slots k.current = some p → k.procs.slots i = some ip →
    ip.pid = 1 → ip.state = .sleepChild → p.parent ≠ i → k.procs.slots j = some c →
    c.parent = k.current → c.state ≠ .zombie

namespace NoLostWakeup

variable {e : Event} {k0 k k' : Kernel} {i : ℕ} {p p' : Process}

theorem congr (h : NoLostWakeup k) (hp : k'.procs.slots = k.procs.slots) : NoLostWakeup k' := by
  unfold NoLostWakeup
  rw [hp]
  exact h

/-- One process changes, keeping its parent and becoming neither a zombie nor,
with a zombie child, a sleeper. -/
theorem update (h : NoLostWakeup k) (hp : k.procs.slots i = some p)
    (hslots : k'.procs.slots = (k.setSlot i (some p')).procs.slots) (hpar : p'.parent = p.parent)
    (hz : p'.state = .zombie → p.state = .zombie)
    (hs : p'.state = .sleepChild → p.state = .sleepChild ∨
      ∀ j c, k.procs.slots j = some c → c.parent = i → c.state ≠ .zombie) : NoLostWakeup k' := by
  intro a b q c hq hsl hc hcp hcz
  rw [hslots, Kernel.setSlot_slots] at hq hc
  -- the child is an old one with the same parent, and was a zombie already
  obtain ⟨c0, hc0, hcp0, hcz0⟩ : ∃ c0, k.procs.slots b = some c0 ∧ c0.parent = a ∧
      c0.state = .zombie := by
    split_ifs at hc with hb
    · obtain rfl := Option.some.inj hc
      exact ⟨p, by rw [hb]; exact hp, hpar ▸ hcp, hz hcz⟩
    · exact ⟨c, hc, hcp, hcz⟩
  split_ifs at hq with ha
  · obtain rfl := Option.some.inj hq
    subst ha
    rcases hs hsl with h0 | h0
    · exact h a b p c0 hp h0 hc0 hcp0 hcz0
    · exact h0 b c0 hc0 hcp0 hcz0
  · exact h a b q c0 hq hsl hc0 hcp0 hcz0

/-- A process that is neither a zombie nor asleep appears. -/
theorem appear (h : NoLostWakeup k)
    (hslots : k'.procs.slots = (k.setSlot i (some p')).procs.slots) (hz : p'.state ≠ .zombie)
    (hs : p'.state ≠ .sleepChild) : NoLostWakeup k' := by
  intro a b q c hq hsl hc hcp hcz
  rw [hslots, Kernel.setSlot_slots] at hq hc
  split_ifs at hq with ha
  · obtain rfl := Option.some.inj hq
    exact hs hsl
  · split_ifs at hc with hb
    · obtain rfl := Option.some.inj hc
      exact hz hcz
    · exact h a b q c hq hsl hc hcp hcz

/-- Reaping settles the one sleeper that may have had a zombie child. -/
theorem reap {par child : ℕ} {c q : Process} {m1 m2 : Machine}
    (hr : Reap par child c q m1 m2 k k')
    (hbut : ∀ a b p c, a ≠ par → k.procs.slots a = some p → p.state = .sleepChild →
      k.procs.slots b = some c → c.parent = a → c.state ≠ .zombie) : NoLostWakeup k' := by
  have hslots : ∀ j, k'.procs.slots j = if j = child then none else
      if j = par then some { q with state := .ready } else k.procs.slots j := by
    intro j
    rw [hr.state]
    rfl
  intro a b p d hp hsl hd hdp hdz
  rw [hslots] at hp hd
  split_ifs at hp with ha ha'
  · obtain rfl := Option.some.inj hp
    simp at hsl
  · split_ifs at hd with hb hb'
    · obtain rfl := Option.some.inj hd
      simp at hdz
    · exact hbut a b p d ha' hp hsl hd hdp hdz

/-- After an exit only the parent of the dead process may have a zombie child. -/
theorem exit (h : NoLostWakeup k) (ht : Tree k) {code : ℤ} {m1 : Machine}
    (hx : Exit code p m1 k k')
    (hleave : ∀ i ip j c, k.procs.slots i = some ip → ip.pid = 1 → ip.state = .sleepChild →
      p.parent ≠ i → k.procs.slots j = some c → c.parent = k.current → c.state ≠ .zombie)
    {a b : ℕ} {q c : Process} (ha : a ≠ p.parent) (hq : k'.procs.slots a = some q)
    (hsl : q.state = .sleepChild) (hc : k'.procs.slots b = some c) (hcp : c.parent = a) :
    c.state ≠ .zombie := by
  obtain ⟨ii, ip, hii, hip, hipid, -, -⟩ := ht.initSlot_eq
  have hslots := Tree.exit_slots hx
  rw [hii, ht.adopt_self hx.proc hx.pid] at hslots
  have hstate : ∀ q, (adopt k.current (some ii) q).state = q.state := by
    intro q
    unfold adopt
    split_ifs <;> rfl
  rw [hslots] at hq hc
  split_ifs at hq with hacur
  · obtain rfl := Option.some.inj hq
    simp at hsl
  · obtain ⟨q0, hq0, rfl⟩ := Option.map_eq_some_iff.mp hq
    rw [hstate] at hsl
    split_ifs at hc with hbcur
    · obtain rfl := Option.some.inj hc
      exact absurd hcp.symm ha
    · obtain ⟨c0, hc0, rfl⟩ := Option.map_eq_some_iff.mp hc
      rw [hstate]
      by_cases hpar : c0.parent = k.current
      · -- an orphan: its new parent is init
        simp only [adopt, hpar, if_true, Option.getD_some] at hcp
        subst hcp
        obtain rfl := Option.some.inj (hip.symm.trans hq0)
        exact hleave ii ip b c0 hip hipid hsl ha.symm hc0 hpar
      · rw [adopt, if_neg hpar] at hcp
        exact h a b q0 c0 hq0 hsl hc0 hcp

theorem not_waiting (ht : Tree k') (hno : ¬ ParentWaits k p) (hs : k'.procs.slots = k.procs.slots)
    {a : ℕ} {q : Process} (hq : k.procs.slots a = some q) (hsl : q.state = .sleepChild) :
    a ≠ p.parent := by
  rintro rfl
  exact hno ⟨ht.current_ne (hs ▸ hq), q, hq, hsl⟩

/-- Every move of a step that leaves no zombie to a sleeping init. -/
theorem move (h : NoLostWakeup k) (ht : Tree k) (he : e.ordinary) (hC : LeavesNoZombie e k0)
    (hm : Move e k0 k k') : NoLostWakeup k' := by
  have hleave : ∀ {t : UserTrap} {p : Process} {code : ℤ}, e = .trap t →
      ((∃ io, Call e t io .exit ∧ code = toI32 (t.arg 10)) ∨ ∃ sc, t.cause = .fault sc ∧ code = -1) →
      k0.procs.slots k0.current = some p →
      ∀ i ip j c, k0.procs.slots i = some ip → ip.pid = 1 → ip.state = .sleepChild →
        p.parent ≠ i → k0.procs.slots j = some c → c.parent = k0.current → c.state ≠ .zombie := by
    intro t p code he hcode hp i ip j c hi h1 h2 h3 hj h4
    refine hC ⟨t, he, ?_⟩ p i ip j c hp hi h1 h2 h3 hj h4
    rcases hcode with ⟨io, hio, -⟩ | ⟨sc, hsc, -⟩
    · exact .inr ⟨io, hio⟩
    · exact .inl ⟨sc, hsc⟩
  cases hm with
  | quiet hq => exact h.congr (by rw [hq.procs])
  | own _ hp hown =>
    obtain ⟨-, h2, h3⟩ := Tree.own_eq hown
    exact h.update hp rfl h2 (by simp [h3]) fun hs => .inl (by rwa [h3] at hs)
  | socket _ hp _ => exact h.update hp rfl rfl id .inl
  | close _ _ _ hp _ => exact h.update hp rfl rfl id .inl
  | fork _ _ _ _ _ _ => exact h.appear rfl (fun h => by cases h) (fun h => by cases h)
  | exec _ hp _ _ _ _ _ => exact h.update hp rfl rfl id .inl
  | exit he hcode hx hno =>
    intro a b q c hq hsl hc hcp
    exact h.exit ht hx (hleave he hcode hx.proc) (not_waiting (ht.exit hx) hno rfl hq hsl) hq hsl hc hcp
  | exitReap he hcode hx hw hr =>
    refine (reap hr fun a b q c ha hq hsl hc hcp => ?_).congr rfl
    exact h.exit ht hx (hleave he hcode hx.proc) ha hq hsl hc hcp
  | waitReap _ hp _ hr =>
    refine (reap hr fun a b q c ha hq hsl hc hcp hcz => ?_).congr rfl
    rw [Kernel.setSlot_slots, if_neg ha] at hq
    rw [Kernel.setSlot_slots] at hc
    split_ifs at hc with hb
    · obtain rfl := Option.some.inj hc
      simp [asleep] at hcz
    · exact h a b q c hq hsl hc hcp hcz
  | waitBlock _ hp hz =>
    refine h.update hp rfl rfl (fun h => by cases h) fun _ => .inr fun j c hc hcp => ?_
    exact waitScan_no_zombie (congrArg Prod.snd hz) (ht.bound j c hc) hc hcp
  | waitNone _ hp _ => exact h.update hp rfl rfl (fun h => by cases h) (fun h => by cases h)
  | block _ _ hp => exact h.update hp rfl rfl (fun h => by cases h) (fun h => by cases h)
  | yield _ _ _ =>
    cases hp : k.procs.slots k.current with
    | none =>
      rw [Option.map_none, ← hp, Kernel.setSlot_same]
      exact h.congr rfl
    | some p =>
      rw [Option.map_some]
      split_ifs
      · exact h.update hp rfl rfl (fun h => by cases h) (fun h => by cases h)
      · rw [← hp, Kernel.setSlot_same]
        exact h.congr rfl
  | wake _ hp _ _ => exact h.update hp rfl rfl (fun h => by cases h) (fun h => by cases h)
  | schedule _ _ hp => exact h.update hp rfl rfl (fun h => by cases h) (fun h => by cases h)
  | spawnFail he' _ _ _ => exact absurd he' he.ne_spawn
  | spawn he' _ _ _ _ _ => exact absurd he' he.ne_spawn
  | _ => exact h.congr rfl

theorem step (h : NoLostWakeup k) (ht : Tree k) (he : e.ordinary) (hC : LeavesNoZombie e k)
    (hn : Next e k k') : NoLostWakeup k' :=
  (hn.keeps (I := fun k => Tree k ∧ NoLostWakeup k) ⟨ht, h⟩
    fun _ _ h hm => ⟨h.1.move he hm, h.2.move h.1 he hC hm⟩).2

end NoLostWakeup

/-- No wake-up is lost in a run in which no exit leaves a zombie to a sleeping
init. -/
theorem noLostWakeup_reachable {k0 k : Kernel} (hs : Started k0)
    (hr : ReachesIf LeavesNoZombie k0 k) : NoLostWakeup k := by
  have h0 : NoLostWakeup k0 := by
    obtain ⟨p, -, hst, -, -, hslots⟩ := hs.slots
    intro i j q c hq hsl
    rw [hslots] at hq
    split_ifs at hq
    obtain rfl := Option.some.inj hq
    simp [hst] at hsl
  exact (hr.invariant (I := fun k => Tree k ∧ NoLostWakeup k) ⟨hs.tree, h0⟩ fun e s t hc hn h =>
    ⟨h.1.step hc.1 hn, h.2.step h.1 hc.1 hc.2 hn⟩).2

/-- An exit is not a call of another number. -/
theorem Calls.not_exits {t : UserTrap} {io : Io} {no : Sysno} (hc : Calls t io no) (hno : no ≠ .exit) :
    ¬ Exits (.trap t) := by
  rintro ⟨t', he, ⟨sc, hsc⟩ | ⟨io', hc'⟩⟩
  · obtain rfl := Event.trap.inj he
    exact absurd (hc.cause.symm.trans hsc) (by simp)
  · obtain rfl := Event.trap.inj hc'.event
    exact hno (hc.number.symm.trans hc'.nr)

theorem timerTrap_not_exits : ¬ Exits (.trap timerTrap) := by
  rintro ⟨t', he, ⟨sc, hsc⟩ | ⟨io', hc'⟩⟩
  · obtain rfl := Event.trap.inj he
    exact absurd hsc (by simp [timerTrap])
  · obtain rfl := Event.trap.inj hc'.event
    exact absurd hc'.cause (by simp [timerTrap])

/-- B exits while its parent A is ready and init sleeps; then A exits, and its end wakes
init. -/
theorem noLostWakeup_reachable_family : ∃ k0 k k' : Kernel, Started k0 ∧
    ReachesIf LeavesNoZombie k0 k ∧ (∃ p a b, k.procs.slots 0 = some p ∧ p.state = .sleepChild ∧
      k.procs.slots 1 = some a ∧ a.parent = 0 ∧ k.procs.slots 2 = some b ∧ b.parent = 1 ∧
      b.state = .zombie) ∧ NoLostWakeup k ∧
    ReachesIf LeavesNoZombie k0 k' ∧ (∃ p, k'.procs.slots 0 = some p ∧ p.state ≠ .sleepChild) ∧
      NoLostWakeup k' := by
  obtain ⟨k0, k1, k2, k3, k4, k5, k6, k7, p, ra, rb, hf⟩ := exists_family
  have hslots5 := hf.shows5.slots
  have hslots6 := hf.shows6.slots
  have hB : LeavesNoZombie (.trap (callTrap 93 0 0 0)) k5 := by
    -- nobody is a child of B
    rintro - q i ip j c hq hip hpid hsl hne hc hpar
    rw [hf.shows5.current] at hpar
    rw [hslots5] at hc
    rcases j with _ | _ | _ | j
    · obtain rfl := Option.some.inj hc
      exact absurd (hf.parent.symm.trans hpar) (show noProc ≠ 2 by decide)
    · obtain rfl := Option.some.inj hc
      exact absurd hpar (show 0 ≠ 2 by decide)
    · obtain rfl := Option.some.inj hc
      exact absurd hpar (show 1 ≠ 2 by decide)
    · cases hc
  have hA : LeavesNoZombie (.trap (callTrap 93 0 0 0)) k6 := by
    -- init is the parent of A
    rintro - q i ip j c hq hip hpid hsl hne hc hpar
    rw [hf.shows6.current, hslots6] at hq
    obtain rfl := Option.some.inj hq
    rw [hslots6] at hip
    rcases i with _ | _ | _ | i
    · exact absurd rfl hne
    · obtain rfl := Option.some.inj hip
      exact absurd hpid (show 2 ≠ 1 by decide)
    · obtain rfl := Option.some.inj hip
      exact absurd hpid (show 3 ≠ 1 by decide)
    · cases hip
  have hidle : ¬ Exits (.idle none) := by
    rintro ⟨t, he, -⟩
    cases he
  have hfork : ¬ Exits (.trap (callTrap 220 0 0 0)) := (callTrap_calls 220 0 0 0 rfl).not_exits (by decide)
  have hwait : ¬ Exits (.trap (callTrap 260 0 0 0)) := (callTrap_calls 260 0 0 0 rfl).not_exits (by decide)
  obtain ⟨-, h6, h7⟩ := hf.reaches (C := LeavesNoZombie) (fun h => absurd h hidle)
    (fun _ h => absurd h hfork) (fun _ h => absurd h hwait) (fun _ h => absurd h timerTrap_not_exits)
    hB hA
  obtain ⟨st, hst, h0⟩ := hf.slot_init
  have hawake : st ≠ .sleepChild := by rcases hst with rfl | rfl <;> decide
  exact ⟨k0, k6, k7, hf.started, h6,
    ⟨_, _, _, hslots6 0, rfl, hslots6 1, rfl, hslots6 2, rfl, rfl⟩,
    noLostWakeup_reachable hf.started h6, h7, ⟨_, h0, hawake⟩,
    noLostWakeup_reachable hf.started h7⟩

/-- Init sleeps in wait4 while its child, grandchild and great-grandchild run. The last one
exits before its parent, so that the zombie passes to init when the parent exits. -/
theorem noLostWakeup_orphan : ∃ k0 k, Started k0 ∧ Reaches k0 k ∧ ¬ NoLostWakeup k := by
  obtain ⟨k1, p, hf⟩ := exists_firstRun
  have hfork := callTrap_calls 220 0 0 0 rfl
  have hexit := callTrap_calls 93 0 0 0 rfl
  have hparent : p.parent ≠ 3 ∧ p.parent ≠ 2 := by
    rw [hf.parent]
    decide
  -- init forks A and waits
  obtain ⟨k2, ra, -, r2, -, s2, room2, a2⟩ := hf.shows_.fork hf.reached hfork rfl
    (show 1 < 8 by decide) hf.room
  obtain ⟨k3, -, r3, s3, m3, a3⟩ := s2.wait r2 (callTrap_calls 260 0 0 0 rfl) rfl (by
    rw [waitScan_eq 0 [(noProc, .running), (0, .ready)] (by simp [hf.parent, hf.state, freshProcess])]
    decide)
  replace s3 : Shows k3 ⟨1, 1, [asleep p 0, kid p 2 0 ra .running]⟩ :=
    s3.enters 0 1 [.sleepChild, .ready] rfl rfl (by decide)
  -- A forks B and loses the hart to it, B forks C and loses the hart to it
  obtain ⟨k4, rb, -, r4, -, s4, room4, a4⟩ := s3.fork r3 hfork rfl
    (show 2 < 8 by decide) (room2.congr m3)
  have ticks4 : k4.ticks = 0 := by rw [a4.ticks, a3.ticks, a2.ticks, hf.ticks]
  obtain ⟨k5, -, r5, s5, m5, -, -, t5⟩ := s4.timer r4 (t := timerTrap) rfl rfl rfl
    (by rw [ticks4]; decide)
  replace s5 : Shows k5 ⟨2, 2, [asleep p 0, kid p 2 0 ra .ready, kid p 3 1 rb .running]⟩ :=
    s5.enters 1 2 [.sleepChild, .ready, .ready] rfl rfl (by decide)
  obtain ⟨k6, rc, -, r6, -, s6, room6, a6⟩ := s5.fork r5 hfork rfl
    (show 3 < 8 by decide) (room4.congr m5)
  have ticks6 : k6.ticks = 1 := by rw [a6.ticks, t5, ticks4]
  obtain ⟨k7, -, r7, s7, m7, -, -, t7⟩ := s6.timer r6 (t := timerTrap) rfl rfl rfl
    (by rw [ticks6]; decide)
  replace s7 : Shows k7 ⟨3, 3, [asleep p 0, kid p 2 0 ra .ready, kid p 3 1 rb .ready,
    kid p 4 2 rc .running]⟩ :=
    s7.enters 2 3 [.sleepChild, .ready, .ready, .ready] rfl rfl (by decide)
  -- C exits while B is ready
  obtain ⟨k8, -, r8, s8, a8⟩ := s7.exit r7 hexit rfl (show 4 ≠ 1 by decide) rfl hf.pid
    rfl (show ProcState.ready ≠ .sleepChild by decide) (show 2 ≠ 3 by decide)
  have e8 : Shape.exit ⟨3, 3, [asleep p 0, kid p 2 0 ra .ready, kid p 3 1 rb .ready,
      kid p 4 2 rc .running]⟩ (toI32 ((callTrap 93 0 0 0).arg 10)) =
      ⟨3, 3, [asleep p 0, kid p 2 0 ra .ready, kid p 3 1 rb .ready, kid p 4 2 rc .zombie]⟩ := by
    simp [Shape.exit, adopt, asleep, kid, freshProcess, hparent.1, callTrap, UserTrap.arg, toI32]
  rw [e8] at s8
  replace s8 : Shows k8 ⟨1, 1, [asleep p 0, kid p 2 0 ra .running, kid p 3 1 rb .ready,
    kid p 4 2 rc .zombie]⟩ :=
    s8.enters 3 1 [.sleepChild, .ready, .ready, .zombie] rfl rfl (by decide)
  -- A loses the hart to B, and B exits
  have ticks8 : k8.ticks = 2 := by rw [a8.ticks, t7, ticks6]
  obtain ⟨k9, -, r9, s9, m9, -, -, t9⟩ := s8.timer r8 (t := timerTrap) rfl rfl rfl
    (by rw [ticks8]; decide)
  replace s9 : Shows k9 ⟨2, 2, [asleep p 0, kid p 2 0 ra .ready, kid p 3 1 rb .running,
    kid p 4 2 rc .zombie]⟩ :=
    s9.enters 1 2 [.sleepChild, .ready, .ready, .zombie] rfl rfl (by decide)
  obtain ⟨k10, -, r10, s10, a10⟩ := s9.exit r9 hexit rfl (show 3 ≠ 1 by decide) rfl
    hf.pid rfl (show ProcState.ready ≠ .sleepChild by decide) (show 1 ≠ 2 by decide)
  have e10 : Shape.exit ⟨2, 2, [asleep p 0, kid p 2 0 ra .ready, kid p 3 1 rb .running,
      kid p 4 2 rc .zombie]⟩ (toI32 ((callTrap 93 0 0 0).arg 10)) =
      ⟨2, 2, [asleep p 0, kid p 2 0 ra .ready, kid p 3 1 rb .zombie, kid p 4 0 rc .zombie]⟩ := by
    simp [Shape.exit, adopt, asleep, kid, freshProcess, hparent.2, callTrap, UserTrap.arg, toI32]
  rw [e10] at s10
  replace s10 := s10.enters 2 1 [.sleepChild, .ready, .zombie, .zombie] rfl rfl (by decide)
  obtain ⟨k0, hs, hr⟩ := r10
  refine ⟨k0, k10, hs, hr.mono fun _ _ h => h.1, fun hno => ?_⟩
  exact hno 0 3 (asleep p 0) (kid p 4 0 rc .zombie) (s10.slots 0) rfl (s10.slots 3) rfl rfl

end LightOS
