import LightOS.ProcessTree
import LightOS.Shapes

/-!
# Who forked whom

The history records every fork. A process has been forked once, so a parent index that
names the process of the recorded fork names the process that made the child, and not
another one that reuses its slot.
-/
namespace LightOS
open Lib

/-- A pid is handed out once. -/
structure Lineage (k : Kernel) : Prop where
  fork_lt : ∀ a c, .forked a c ∈ k.history → c < k.procs.nextPid
  fork_unique : ∀ a b c, .forked a c ∈ k.history → .forked b c ∈ k.history → a = b

/-- A move forks one process, with the next pid, or none. -/
theorem Move.forks {e : Event} {k0 k k' : Kernel} (he : e.ordinary) (hm : Move e k0 k k') :
    (k'.procs.nextPid = k.procs.nextPid ∧
      ∀ a c, .forked a c ∈ k'.history → .forked a c ∈ k.history) ∨
    (k'.procs.nextPid = k.procs.nextPid + 1 ∧ ∃ t io, Call e t io .clone) ∧
      ∃ p, k'.history = k.history ++ [.forked p k.procs.nextPid] := by
  have hreap : ∀ {par child : ℕ} {c q : Process} {m1 m2 : Machine} {k k' : Kernel},
      Reap par child c q m1 m2 k k' → k'.procs.nextPid = k.procs.nextPid ∧
        k'.history = k.history ++ [.reaped q.pid c.pid] := by
    intro par child c q m1 m2 k k' hr
    rw [hr.state]
    exact ⟨rfl, rfl⟩
  have hexit : ∀ {code : ℤ} {p : Process} {m1 : Machine} {k k' : Kernel},
      Exit code p m1 k k' → k'.procs.nextPid = k.procs.nextPid ∧
        k'.history = k.history ++ [.exited p.pid code] := by
    intro code p m1 k k' hx
    rw [hx.state]
    exact ⟨rfl, rfl⟩
  cases hm with
  | quiet hq => exact .inl ⟨by rw [hq.procs], by rw [hq.history]; exact fun _ _ h => h⟩
  | fork hc _ _ _ _ _ => exact .inr ⟨⟨rfl, _, _, hc⟩, _, rfl⟩
  | exit _ _ hx _ =>
    obtain ⟨h1, h2⟩ := hexit hx
    refine .inl ⟨h1, fun a c h => ?_⟩
    have h' : ProcEvent.forked a c ∈ _ ++ _ := h2 ▸ h
    simpa using h'
  | exitReap _ _ hx _ hr =>
    obtain ⟨h1, h2⟩ := hexit hx
    obtain ⟨h3, h4⟩ := hreap hr
    refine .inl ⟨h3.trans h1, fun a c h => ?_⟩
    have h' : ProcEvent.forked a c ∈ _ ++ _ := h4 ▸ h
    rw [h2] at h'
    simpa using h'
  | waitReap _ _ _ hr =>
    obtain ⟨h3, h4⟩ := hreap hr
    refine .inl ⟨h3, fun a c h => ?_⟩
    have h' : ProcEvent.forked a c ∈ _ ++ _ := h4 ▸ h
    simpa using h'
  | waitNone _ _ _ =>
    refine .inl ⟨rfl, fun a c h => ?_⟩
    have h' : ProcEvent.forked a c ∈ k0.history ++ [ProcEvent.noChild _] := h
    simpa using h'
  | spawnFail he' _ _ _ => exact absurd he' he.ne_spawn
  | spawn he' _ _ _ _ _ => exact absurd he' he.ne_spawn
  | _ => exact .inl ⟨rfl, fun _ _ h => h⟩

theorem Lineage.move {e : Event} {k0 k k' : Kernel} (h : Lineage k) (he : e.ordinary)
    (hm : Move e k0 k k') : Lineage k' := by
  obtain ⟨h1, h2⟩ := h
  rcases hm.forks he with ⟨hn, hsub⟩ | ⟨⟨hn, -⟩, p, hh⟩
  · refine ⟨fun a c hf => ?_, fun a b c ha hb => h2 a b c (hsub a c ha) (hsub b c hb)⟩
    rw [hn]
    exact h1 a c (hsub a c hf)
  · refine ⟨fun a c hf => ?_, fun a b c ha hb => ?_⟩
    · rw [hh, List.mem_append, List.mem_singleton] at hf
      rw [hn]
      rcases hf with hf | hf
      · have := h1 a c hf
        omega
      · obtain ⟨-, rfl⟩ := ProcEvent.forked.inj hf
        omega
    · rw [hh, List.mem_append, List.mem_singleton] at ha hb
      rcases ha with ha | ha <;> rcases hb with hb | hb
      · exact h2 a b c ha hb
      · have := h1 a c ha
        obtain ⟨-, rfl⟩ := ProcEvent.forked.inj hb
        omega
      · have := h1 b c hb
        obtain ⟨-, rfl⟩ := ProcEvent.forked.inj ha
        omega
      · rw [(ProcEvent.forked.inj ha).1, (ProcEvent.forked.inj hb).1]

theorem Reaches.lineage {k0 k : Kernel} (hs : Started k0) (hr : Reaches k0 k) : Lineage k := by
  refine hr.invariant ?_ fun _ _ _ he hn h => hn.keeps h fun _ _ h hm => h.move he hm
  constructor <;> simp [hs.rest]

/-! ### The tree -/

/-- The process in slot `i` names slot `j` as its parent. -/
def HasParent (k : Kernel) (i j : ℕ) : Prop := ∃ p, k.procs.slots i = some p ∧ p.parent = j

/-- Following parents from any process ends at init: every parent has a smaller
pid than its child. -/
theorem Tree.reaches_init {k : Kernel} (h : Tree k) {i : ℕ} {p : Process}
    (hp : k.procs.slots i = some p) : ∃ j q, k.procs.slots j = some q ∧ q.pid = 1 ∧
      Relation.ReflTransGen (HasParent k) i j := by
  induction hn : p.pid using Nat.strong_induction_on generalizing i p with
  | _ n ih =>
    by_cases h1 : p.pid = 1
    · exact ⟨i, p, hp, h1, .refl⟩
    · obtain ⟨q, hq, -, hlt, -⟩ := h.parent i p hp h1
      obtain ⟨j, r, hr, hr1, hchain⟩ := ih q.pid (hn ▸ hlt) hq rfl
      exact ⟨j, r, hr, hr1, .head ⟨p, hp, rfl⟩ hchain⟩

/-- What the slot indices in the process table mean. -/
structure ProcessTree (k : Kernel) : Prop where
  pids_distinct : ∀ i j p q, k.procs.slots i = some p → k.procs.slots j = some q →
    p.pid = q.pid → i = j
  pids_below : ∀ i p, k.procs.slots i = some p → p.pid < k.procs.nextPid
  init : ∃ i p, k.procs.slots i = some p ∧ p.pid = 1
  parent_live : ∀ i p, k.procs.slots i = some p → p.pid ≠ 1 →
    ∃ q, k.procs.slots p.parent = some q ∧ q.state ≠ .zombie ∧
      (q.pid = 1 ∨ .forked q.pid p.pid ∈ k.history)
  forked_once : ∀ a b c, .forked a c ∈ k.history → .forked b c ∈ k.history → a = b
  reaches_init : ∀ i p, k.procs.slots i = some p → ∃ j q, k.procs.slots j = some q ∧ q.pid = 1 ∧
    Relation.ReflTransGen (HasParent k) i j
  sleeper_has_child : ∀ i p, k.procs.slots i = some p → p.state = .sleepChild →
    ∃ j c, k.procs.slots j = some c ∧ c.parent = i

/-- The process tree survives every run. -/
theorem processTree_reachable {k0 k : Kernel} (hs : Started k0) (hr : Reaches k0 k) :
    ProcessTree k := by
  have ht := hr.tree hs
  refine ⟨ht.pid_inj, fun i p hp => (ht.pid_lt i p hp).2, ?_, ?_, (hr.lineage hs).fork_unique,
    fun i p hp => ht.reaches_init hp, ht.sleep⟩
  · obtain ⟨i, p, hp, hpid, -⟩ := ht.init
    exact ⟨i, p, hp, hpid⟩
  · intro i p hp hne
    obtain ⟨q, hq, hz, -, hf⟩ := ht.parent i p hp hne
    exact ⟨q, hq, hz, hf⟩

/-- Init waits for A, whose child B is a zombie; then A exits and is reaped, and B is left to
init. -/
theorem processTree_reachable_family : ∃ k0 k k' : Kernel, Started k0 ∧ Reaches k0 k ∧
    (∃ p a b, k.procs.slots 0 = some p ∧ p.state = .sleepChild ∧ k.procs.slots 1 = some a ∧
      a.parent = 0 ∧ k.procs.slots 2 = some b ∧ b.parent = 1 ∧ b.state = .zombie) ∧
    ProcessTree k ∧ Reaches k0 k' ∧ .reaped 1 2 ∈ k'.history ∧
    (∃ b, k'.procs.slots 2 = some b ∧ b.pid = 3 ∧ b.parent = 0) ∧ ProcessTree k' := by
  obtain ⟨k0, k1, k2, k3, k4, k5, k6, k7, p, ra, rb, hf⟩ := exists_family
  obtain ⟨-, hr6, hr7⟩ := hf.reaches (C := fun _ _ => True) trivial (fun _ => trivial)
    (fun _ => trivial) (fun _ => trivial) trivial trivial
  have h6 : Reaches k0 k6 := Runs.mono (fun _ _ h => h.1) hr6
  have h7 : Reaches k0 k7 := Runs.mono (fun _ _ h => h.1) hr7
  have hslots := hf.shows6.slots
  exact ⟨k0, k6, k7, hf.started, h6, ⟨_, _, _, hslots 0, rfl, hslots 1, rfl, hslots 2, rfl, rfl⟩,
    processTree_reachable hf.started h6, h7, hf.reapedA, ⟨_, hf.slot_B, rfl, rfl⟩,
    processTree_reachable hf.started h7⟩

end LightOS
