import LightOS.Progress

/-!
# Round-robin

`pick_next` takes the first Ready slot after the one it took last, in cyclic
order. A slot that stays Ready is passed by no pick: each pick of another slot
ends strictly closer to it. So two picks of one slot have a pick of every such
slot between them, whatever else the processes do.
-/
namespace LightOS
open Lib

/-- The move is a pick of `slot`: `schedule` enters it. -/
def Picks (slot : ℕ) (k k' : Kernel) : Prop :=
  ∃ p, Picked k.procs slot ∧ k.procs.slots slot = some p ∧ k' = entered slot p k

/-- The process in the slot is Ready. -/
def ReadyAt (k : Kernel) (slot : ℕ) : Prop :=
  ∃ p, k.procs.slots slot = some p ∧ p.state = .ready

/-- How many slots `pick_next` tries before `r` when it took `last` before. -/
def gap (last r : ℕ) : ℕ := (r + (maxProcs - 1) - last % maxProcs) % maxProcs

section Order

variable {last r s : ℕ}

theorem gap_lt (last r : ℕ) : gap last r < maxProcs := Nat.mod_lt _ (by decide)

/-- The slot that is tried after `gap` others. -/
theorem gap_spec (hr : r < maxProcs) : (last + (gap last r + 1)) % maxProcs = r := by
  unfold gap
  simp only [maxProcs] at *
  omega

theorem gap_after {i : ℕ} (hi : i < maxProcs) : gap last ((last + (i + 1)) % maxProcs) = i := by
  unfold gap
  simp only [maxProcs] at *
  omega

/-- A slot tried earlier than `r` is on the way to `r`. -/
theorem gap_closer (hs : s < maxProcs) (hr : r < maxProcs) (hlt : gap last s < gap last r) :
    gap s r < gap last r := by
  unfold gap at *
  simp only [maxProcs] at *
  omega

end Order

section Picks

variable {k k' : Kernel} {r s : ℕ}

/-- `pick_next` takes a slot that is Ready and tries no Ready slot before it. -/
theorem picked_order {t : ProcTable} (h : Picked t s) : s < maxProcs ∧
    ∀ r < maxProcs, (∃ p, t.slots r = some p ∧ p.state = .ready) → gap t.lastRun s ≤ gap t.lastRun r := by
  unfold Picked pickOrder at h
  rw [List.find?_map, Option.map_eq_some_iff] at h
  obtain ⟨i, hi, rfl⟩ := h
  obtain ⟨-, hmem, hbefore⟩ := List.find?_range_eq_some.mp hi
  have hlt := List.mem_range.mp hmem
  refine ⟨Nat.mod_lt _ (by decide), fun r hr ⟨p, hp, hready⟩ => ?_⟩
  rw [gap_after hlt]
  by_contra hless
  have hno := hbefore (gap t.lastRun r) (by omega)
  simp [gap_spec hr, hp, hready] at hno

/-- A pick is a call of `schedule` in which `pick_next` returns the slot. -/
theorem picks_iff : Picks s k k' ↔
    schedule k = .ok ((), k') ∧ ∃ k1, pickNext k = .ok (some s, k1) := by
  constructor
  · rintro ⟨p, hpick, hp, rfl⟩
    have hs := (picked_order hpick).1
    exact ⟨schedule_picks hs hpick hp, _, pickNext_picked hs hpick hp⟩
  · rintro ⟨hsched, k1, hnext⟩
    rcases schedule_ok hsched with ⟨-, hnobody⟩ | ⟨slot, p, hpick, hp, rfl⟩
    · -- nobody is Ready, so `pick_next` has nothing to return
      have hnone : pickNext k = .ok (none, k) := pickNext_none hnobody
      rw [hnext] at hnone
      cases hnone
    · have hsome := pickNext_picked (picked_order hpick).1 hpick hp
      rw [hnext] at hsome
      obtain ⟨he, -⟩ := Prod.mk.inj (Except.ok.inj hsome)
      obtain rfl := Option.some.inj he
      exact ⟨p, hpick, hp, rfl⟩

theorem Picks.lastRun (h : Picks s k k') : k'.procs.lastRun = s := by
  obtain ⟨p, -, -, rfl⟩ := h
  rfl

theorem Picks.not_ready (h : Picks s k k') : ¬ ReadyAt k' s := by
  obtain ⟨p, -, -, rfl⟩ := h
  rintro ⟨q, hq, hready⟩
  have hslot : (entered s p k).procs.slots s = some { p with state := .running } := if_pos rfl
  obtain rfl := Option.some.inj (hq.symm.trans hslot)
  simp at hready

/-- A pick of another slot ends closer to a Ready one. -/
theorem Picks.closer (h : Picks s k k') (hr : r < maxProcs) (hready : ReadyAt k r) (hne : s ≠ r) :
    gap s r < gap k.procs.lastRun r := by
  obtain ⟨p, hpick, -, -⟩ := h
  obtain ⟨hs, horder⟩ := picked_order hpick
  have hle := horder r hr hready
  have hlt : gap k.procs.lastRun s ≠ gap k.procs.lastRun r := by
    intro he
    have h1 : (k.procs.lastRun + (gap k.procs.lastRun s + 1)) % maxProcs = s := gap_spec hs
    have h2 : (k.procs.lastRun + (gap k.procs.lastRun r + 1)) % maxProcs = r := gap_spec hr
    rw [he] at h1
    exact hne (h1.symm.trans h2)
  exact gap_closer hs hr (by omega)

/-- Nothing but a pick changes where the next search starts. -/
theorem Move.lastRun {e : Event} {k0 : Kernel} (h : Move e k0 k k') :
    k'.procs.lastRun = k.procs.lastRun ∨ ∃ s, Picks s k k' := by
  have hreap : ∀ {par child : ℕ} {c q : Process} {m1 m2 : Machine} {k k' : Kernel},
      Reap par child c q m1 m2 k k' → k'.procs.lastRun = k.procs.lastRun := by
    intro par child c q m1 m2 k k' hr
    rw [hr.state]
    rfl
  have hexit : ∀ {code : ℤ} {p : Process} {m1 : Machine} {k k' : Kernel},
      Exit code p m1 k k' → k'.procs.lastRun = k.procs.lastRun := by
    intro code p m1 k k' hx
    rw [hx.state]
    rfl
  cases h with
  | schedule _ hf hp => exact .inr ⟨_, _, hf, hp, rfl⟩
  | quiet hq => exact .inl (by rw [hq.procs])
  | exit _ _ hx _ =>
    have h := hexit hx
    exact .inl h
  | exitReap _ _ hx _ hr =>
    have h := (hreap hr).trans (hexit hx)
    exact .inl h
  | waitReap _ _ _ hr =>
    have h := hreap hr
    exact .inl h
  | _ => exact .inl rfl

/-- The hart stays with its process, is given up, or goes to the slot of a pick. -/
theorem Move.current {e : Event} {k0 : Kernel} (h : Move e k0 k k') :
    k'.current = k.current ∨ k'.current = noProc ∨ Picks k'.current k k' := by
  cases h with
  | schedule _ hf hp => exact .inr (.inr ⟨_, hf, hp, rfl⟩)
  | quiet hq => exact .inl hq.current
  | exit _ _ hx _ => exact .inr (.inl rfl)
  | exitReap _ _ hx _ hr => exact .inr (.inl rfl)
  | waitReap _ _ _ hr => exact .inr (.inl rfl)
  | waitBlock _ _ _ => exact .inr (.inl rfl)
  | waitNone _ _ _ => exact .inr (.inl rfl)
  | block _ _ _ => exact .inr (.inl rfl)
  | yield _ _ _ => exact .inr (.inl rfl)
  | _ => exact .inl rfl

theorem Moves.picks {e : Event} {k0 : Kernel} (h : Moves e k0 k k') (hne : k'.current ≠ k.current)
    (hproc : k'.current ≠ noProc) :
    ∃ k1 k2, Moves e k0 k k1 ∧ Picks k'.current k1 k2 ∧ Moves e k0 k2 k' := by
  induction h with
  | refl => exact absurd rfl hne
  | @tail k1 k2 hmoves hmove ih =>
    rcases hmove.current with hsame | hgiven | hpick
    · rw [hsame] at hne hproc ⊢
      obtain ⟨k3, k4, h1, h2, h3⟩ := ih hne hproc
      exact ⟨k3, k4, h1, h2, h3.tail hmove⟩
    · exact absurd hgiven hproc
    · exact ⟨k1, k2, hmoves, hpick, .refl⟩

/-- A step that hands the hart to another process does so by a pick of its slot. -/
theorem Next.picks {e : Event} (h : Next e k k') (hne : k'.current ≠ k.current)
    (hproc : k'.current ≠ noProc) :
    ∃ k1 k2, Moves e k k k1 ∧ Picks k'.current k1 k2 ∧ Moves e k k2 k' :=
  (step_moves h).picks hne hproc

end Picks

/-- The kernel goes through these states, move by move, whatever the events. -/
def Schedule (ks : ℕ → Kernel) (n : ℕ) : Prop := ∀ i < n, ∃ e k0, Move e k0 (ks i) (ks (i + 1))

/-- While no pick takes a Ready slot, the start of the search only comes closer. -/
theorem gap_between {ks : ℕ → Kernel} {n a b r s : ℕ} (h : Schedule ks n) (hb : b ≤ n)
    (ha : Picks s (ks a) (ks (a + 1))) (hr : r < maxProcs)
    (hready : ∀ i, a < i → i ≤ b → ReadyAt (ks i) r)
    (hno : ∀ i, a < i → i < b → ¬ Picks r (ks i) (ks (i + 1))) :
    ∀ d, a + 1 + d ≤ b → gap (ks (a + 1 + d)).procs.lastRun r ≤ gap s r := by
  intro d
  induction d with
  | zero => exact fun _ => by rw [Nat.add_zero, ha.lastRun]
  | succ d ih =>
      intro hle
      have ih := ih (by omega)
      obtain ⟨e, k0, hm⟩ := h (a + 1 + d) (by omega)
      rw [← Nat.add_assoc]
      rcases hm.lastRun with he | ⟨s', hp⟩
      · rw [he]
        exact ih
      · have hne : s' ≠ r := by
          rintro rfl
          exact hno _ (by omega) (by omega) hp
        have hlt := hp.closer hr (hready _ (by omega) (by omega)) hne
        rw [hp.lastRun]
        omega

/-- Every run of the machine is such a sequence. -/
theorem Reaches.schedule {k0 k : Kernel} (h : Reaches k0 k) :
    ∃ ks n, Schedule ks n ∧ ks 0 = k0 ∧ ks n = k := by
  have hmoves : Relation.ReflTransGen (fun k k' => ∃ e k0, Move e k0 k k') k0 k := by
    refine h.invariant .refl fun e s t _ hn hs => hs.trans ?_
    exact Relation.ReflTransGen.mono (fun _ _ hm => ⟨e, s, hm⟩) _ _ (step_moves hn)
  exact exists_sequence hmoves

/-- Between two picks of one slot every slot that stays Ready until it is picked
is picked. -/
theorem roundRobin_fair {ks : ℕ → Kernel} {n a b r s : ℕ} (h : Schedule ks n) (hab : a < b)
    (hb : b < n) (hpa : Picks s (ks a) (ks (a + 1))) (hpb : Picks s (ks b) (ks (b + 1)))
    (hr : r < maxProcs)
    (hready : ∀ i, a < i → i ≤ b → (∀ c, a < c → c < i → ¬ Picks r (ks c) (ks (c + 1))) →
      ReadyAt (ks i) r) :
    ∃ c, a < c ∧ c < b ∧ Picks r (ks c) (ks (c + 1)) := by
  by_contra hnone
  have hno : ∀ i, a < i → i < b → ¬ Picks r (ks i) (ks (i + 1)) :=
    fun i h1 h2 hp => hnone ⟨i, h1, h2, hp⟩
  have hall : ∀ i, a < i → i ≤ b → ReadyAt (ks i) r :=
    fun i h1 h2 => hready i h1 h2 fun c h3 h4 => hno c h3 (by omega)
  have hle := gap_between h (by omega) hpa hr hall hno (b - (a + 1)) (by omega)
  rw [show a + 1 + (b - (a + 1)) = b by omega] at hle
  have hne : s ≠ r := by
    rintro rfl
    exact hpa.not_ready (hall (a + 1) (by omega) (by omega))
  have hlt := hpb.closer hr (hall b hab le_rfl) hne
  omega

/-- One of two processes that are preempted in turn. -/
def duelist (pid : ℕ) : Process := freshProcess pid noProc 0 0 0 [] []

def duelStart : Kernel where
  machine := ⟨fun _ => 0, ⟨fun _ => true, 0, 0⟩, 0, 0, [], []⟩
  regions := []
  procs := ⟨fun i => if i = 0 then some (duelist 1) else if i = 1 then some (duelist 2) else none, 3, 63⟩
  frames := fun _ => TrapFrame.zeroed
  current := noProc
  net := ⟨none, 0, SocketTable.empty, []⟩
  rx := RxRing.empty
  nces := []
  fs := ⟨none, ⟨[], []⟩⟩
  ticks := 0
  sstatus := 0
  kernelStackTop := 0
  history := []

/-- Both processes run once, then the first one again. -/
def duelTurn : ℕ → Kernel → Kernel
  | 0, k => entered 0 (duelist 1) k
  | 1, k => (k.setSlot 0 (some (duelist 1))).idle
  | 2, k => entered 1 (duelist 2) k
  | 3, k => (k.setSlot 1 (some (duelist 2))).idle
  | _, k => entered 0 (duelist 1) k

def duel : ℕ → Kernel
  | 0 => duelStart
  | n + 1 => duelTurn n (duel n)

theorem duel_picks : Picks 0 (duel 0) (duel 1) ∧ Picks 1 (duel 2) (duel 3) ∧
    Picks 0 (duel 4) (duel 5) :=
  ⟨⟨duelist 1, rfl, rfl, rfl⟩, ⟨duelist 2, rfl, rfl, rfl⟩, ⟨duelist 1, rfl, rfl, rfl⟩⟩

theorem duel_schedule : Schedule duel 5 := by
  obtain ⟨⟨p, h1, h2, h3⟩, ⟨q, h4, h5, h6⟩, ⟨r, h7, h8, h9⟩⟩ := duel_picks
  have hyield : ∀ k : Kernel, ∃ e k0, Move e k0 k (k.setSlot k.current
      ((k.procs.slots k.current).map fun p =>
        if p.state = .running then { p with state := .ready } else p)).idle :=
    fun k => ⟨.trap ⟨fun _ => 0, 0, 0, .interrupt .timer⟩, k, .yield rfl rfl rfl⟩
  intro i hi
  have hcases : i = 0 ∨ i = 1 ∨ i = 2 ∨ i = 3 ∨ i = 4 := by omega
  rcases hcases with rfl | rfl | rfl | rfl | rfl
  · rw [h3]
    exact ⟨.idle none, duel 0, .schedule rfl h1 h2⟩
  · exact hyield (duel 1)
  · rw [h6]
    exact ⟨.idle none, duel 2, .schedule rfl h4 h5⟩
  · exact hyield (duel 3)
  · rw [h9]
    exact ⟨.idle none, duel 4, .schedule rfl h7 h8⟩

/-- The second process is picked between the two picks of the first one. -/
theorem roundRobin_fair_duel : Schedule duel 5 ∧ Picks 0 (duel 0) (duel 1) ∧
    Picks 0 (duel 4) (duel 5) ∧ ∃ c, 0 < c ∧ c < 4 ∧ Picks 1 (duel c) (duel (c + 1)) := by
  obtain ⟨ha, hc, hb⟩ := duel_picks
  refine ⟨duel_schedule, ha, hb, roundRobin_fair duel_schedule (by decide) (by decide) ha hb
    (by decide) fun i h1 h2 hno => ?_⟩
  by_cases hi : i ≤ 2
  · have hcases : i = 1 ∨ i = 2 := by omega
    rcases hcases with rfl | rfl
    · exact ⟨duelist 2, rfl, rfl⟩
    · exact ⟨duelist 2, rfl, rfl⟩
  · exact absurd hc (hno 2 (by decide) (by omega))

end LightOS
