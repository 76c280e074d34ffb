import LightOS.Shapes

/-!
# Exits and reaps in the history

What the history says of every process: it exits at most once, it is reaped at most
once and after its exit, and in between it is a zombie with its exit code.
-/
namespace LightOS
open Lib

/-- The history and the process table tell the same story. -/
structure Obituaries (k : Kernel) : Prop where
  fits : k.procs.nextPid < usizeBound
  /-- The dead stay dead. -/
  gone : ∀ par c, .reaped par c ∈ k.history →
    c < k.procs.nextPid ∧ ∀ i p, k.procs.slots i = some p → p.pid ≠ c
  /-- An exit is followed by the reap; until then there is the zombie. -/
  dead : ∀ c code, .exited c code ∈ k.history → c < k.procs.nextPid ∧
    ((∃ par, .reaped par c ∈ k.history) ∨
      ∃ i p, k.procs.slots i = some p ∧ p.pid = c ∧ p.state = .zombie ∧ p.exitCode = code)
  undead : ∀ i p, k.procs.slots i = some p → p.state = .zombie →
    .exited p.pid p.exitCode ∈ k.history
  exits_once : ∀ pre post c code, k.history = pre ++ .exited c code :: post →
    ∀ code', .exited c code' ∉ pre
  reaps_once : ∀ pre post par c, k.history = pre ++ .reaped par c :: post →
    (∃ code, .exited c code ∈ pre) ∧ ∀ par', .reaped par' c ∉ pre

/-- A list that ends in one more element, split at some element. -/
theorem snoc_split {α : Type} {l pre post : List α} {x y : α} (h : l ++ [x] = pre ++ y :: post) :
    (l = pre ∧ x = y) ∨ ∃ post', l = pre ++ y :: post' := by
  rcases List.eq_nil_or_concat post with rfl | ⟨post', z, rfl⟩
  · obtain ⟨h1, h2⟩ := List.append_inj' h rfl
    exact .inl ⟨h1, List.cons.inj h2 |>.1⟩
  · right
    refine ⟨post', ?_⟩
    have h' : l ++ [x] = (pre ++ y :: post') ++ [z] := by simpa using h
    exact (List.append_inj' h' rfl).1

namespace Obituaries

variable {k k' : Kernel} {p p' : Process}

/-- Nobody dies and nobody is buried: who is a zombie afterwards was one before, and the
other way round. -/
theorem update (h : Obituaries k) (hn : k.procs.nextPid ≤ k'.procs.nextPid)
    (hfits : k'.procs.nextPid < usizeBound)
    (hback : ∀ i p', k'.procs.slots i = some p' → k.procs.nextPid ≤ p'.pid ∧ p'.state ≠ .zombie ∨
      ∃ p, k.procs.slots i = some p ∧ p'.pid = p.pid ∧
        (p'.state = .zombie → p.state = .zombie ∧ p'.exitCode = p.exitCode))
    (hkeep : ∀ i p, k.procs.slots i = some p → p.state = .zombie → ∃ p', k'.procs.slots i = some p' ∧
      p'.pid = p.pid ∧ p'.state = .zombie ∧ p'.exitCode = p.exitCode)
    (hh : k'.history = k.history ∨ ∃ x, k'.history = k.history ++ [x] ∧
      (∀ c code, x ≠ .exited c code) ∧ ∀ par c, x ≠ .reaped par c) : Obituaries k' := by
  have hmem : ∀ x ∈ k.history, x ∈ k'.history := by
    intro x hx
    rcases hh with hh | ⟨y, hh, -⟩
    · exact hh ▸ hx
    · rw [hh]
      exact List.mem_append_left _ hx
  have hreap : ∀ par c, .reaped par c ∈ k'.history → .reaped par c ∈ k.history := by
    intro par c hmem
    rcases hh with hh | ⟨y, hh, -, hr⟩
    · exact hh ▸ hmem
    · rw [hh, List.mem_append, List.mem_singleton] at hmem
      exact hmem.resolve_right fun he => hr par c he.symm
  have hexit : ∀ c code, .exited c code ∈ k'.history → .exited c code ∈ k.history := by
    intro c code hmem
    rcases hh with hh | ⟨y, hh, hx, -⟩
    · exact hh ▸ hmem
    · rw [hh, List.mem_append, List.mem_singleton] at hmem
      exact hmem.resolve_right fun he => hx c code he.symm
  refine ⟨hfits, fun par c hr => ?_, fun c code hx => ?_, fun i p' hp' hz => ?_,
    fun pre post c code hs => ?_, fun pre post par c hs => ?_⟩
  · obtain ⟨hlt, hno⟩ := h.gone par c (hreap par c hr)
    refine ⟨hlt.trans_le hn, fun i p' hp' hid => ?_⟩
    rcases hback i p' hp' with ⟨hge, -⟩ | ⟨p, hp, he, -⟩
    · omega
    · exact hno i p hp (he ▸ hid)
  · obtain ⟨hlt, ⟨par, hr⟩ | ⟨i, p, hp, hid, hz, hcode⟩⟩ := h.dead c code (hexit c code hx)
    · exact ⟨hlt.trans_le hn, .inl ⟨par, hmem _ hr⟩⟩
    · obtain ⟨p', hp', hid', hz', hcode'⟩ := hkeep i p hp hz
      exact ⟨hlt.trans_le hn, .inr ⟨i, p', hp', hid'.trans hid, hz', hcode'.trans hcode⟩⟩
  · rcases hback i p' hp' with ⟨-, hnz⟩ | ⟨p, hp, hid, hst⟩
    · exact absurd hz hnz
    · obtain ⟨hz0, hcode⟩ := hst hz
      rw [hid, hcode]
      exact hmem _ (h.undead i p hp hz0)
  · rcases hh with hh | ⟨x, hh, hx, -⟩
    · exact h.exits_once pre post c code (hh ▸ hs)
    · rw [hh] at hs
      rcases snoc_split hs with ⟨-, he⟩ | ⟨post', hs⟩
      · exact absurd he (hx c code)
      · exact h.exits_once pre post' c code hs
  · rcases hh with hh | ⟨x, hh, -, hr⟩
    · exact h.reaps_once pre post par c (hh ▸ hs)
    · rw [hh] at hs
      rcases snoc_split hs with ⟨-, he⟩ | ⟨post', hs⟩
      · exact absurd he (hr par c)
      · exact h.reaps_once pre post' par c hs

theorem congr (h : Obituaries k) (hp : k'.procs = k.procs) (hh : k'.history = k.history) :
    Obituaries k' :=
  h.update (by rw [hp]) (by rw [hp]; exact h.fits)
    (fun i p' hp' => .inr ⟨p', by rw [← hp']; rw [hp], rfl, fun hz => ⟨hz, rfl⟩⟩)
    (fun i p hp0 hz => ⟨p, by rw [hp]; exact hp0, rfl, hz, rfl⟩) (.inl hh)

/-- One process changes that neither was a zombie nor becomes one. -/
theorem setSlot (h : Obituaries k) {i : ℕ} (hp : k.procs.slots i = some p)
    (hslots : k'.procs.slots = (k.setSlot i (some p')).procs.slots) (hpid : p'.pid = p.pid)
    (hz : p.state ≠ .zombie) (hz' : p'.state ≠ .zombie) (hn : k'.procs.nextPid = k.procs.nextPid)
    (hh : k'.history = k.history ∨ ∃ x, k'.history = k.history ++ [x] ∧
      (∀ c code, x ≠ .exited c code) ∧ ∀ par c, x ≠ .reaped par c) : Obituaries k' := by
  refine h.update hn.ge (hn ▸ h.fits) (fun j q hq => .inr ?_) (fun j q hq hqz => ?_) hh
  · rw [hslots, Kernel.setSlot_slots] at hq
    split_ifs at hq with hj
    · subst hj
      obtain rfl := Option.some.inj hq
      exact ⟨p, hp, hpid, fun hz => absurd hz hz'⟩
    · exact ⟨q, hq, rfl, fun hz => ⟨hz, rfl⟩⟩
  · have hj : j ≠ i := by
      rintro rfl
      obtain rfl := Option.some.inj (hp.symm.trans hq)
      exact hz hqz
    refine ⟨q, ?_, rfl, hqz, rfl⟩
    rw [hslots, Kernel.setSlot_slots, if_neg hj]
    exact hq

/-- A process that is not dead yet exits. -/
theorem exit (h : Obituaries k) (hinj : ∀ i j p q, k.procs.slots i = some p →
      k.procs.slots j = some q → p.pid = q.pid → i = j)
    (hlt : p.pid < k.procs.nextPid) (hz : p.state ≠ .zombie) {code : ℤ} {m1 : Machine}
    (hx : Exit code p m1 k k') : Obituaries k' := by
  have hh : k'.history = k.history ++ [.exited p.pid code] := by rw [hx.state]; rfl
  have hn : k'.procs.nextPid = k.procs.nextPid := by rw [hx.state]; rfl
  have hslots := Tree.exit_slots hx
  have hback : ∀ i x, k'.procs.slots i = some x → ∃ q, k.procs.slots i = some q ∧ x.pid = q.pid ∧
      (x.state = .zombie → x.pid = p.pid ∧ x.exitCode = code ∨
        q.state = .zombie ∧ x.exitCode = q.exitCode) := by
    intro i x hxi
    rw [hslots] at hxi
    split_ifs at hxi with hi
    · subst hi
      obtain rfl := Option.some.inj hxi
      exact ⟨p, hx.proc, adopt_pid .., fun _ => .inl ⟨adopt_pid .., rfl⟩⟩
    · obtain ⟨q, hq, rfl⟩ := Option.map_eq_some_iff.mp hxi
      exact ⟨q, hq, adopt_pid .., fun hz => .inr ⟨(adopt_state ..).symm.trans hz, adopt_exitCode ..⟩⟩
  have hnew : ∀ c code', .exited c code' ∈ k'.history →
      .exited c code' ∈ k.history ∨ c = p.pid ∧ code' = code := by
    intro c code' hmem
    rw [hh, List.mem_append, List.mem_singleton] at hmem
    exact hmem.imp_right ProcEvent.exited.inj
  refine ⟨hn ▸ h.fits, fun par c hr => ?_, fun c code' hx' => ?_, fun i x hxi hxz => ?_,
    fun pre post c code' hs => ?_, fun pre post par c hs => ?_⟩
  · rw [hh, List.mem_append] at hr
    obtain ⟨hlt, hno⟩ := h.gone par c (hr.resolve_right (by simp))
    refine ⟨hn ▸ hlt, fun i x hxi hid => ?_⟩
    obtain ⟨q, hq, he, -⟩ := hback i x hxi
    exact hno i q hq (he ▸ hid)
  · rw [hn]
    rcases hnew c code' hx' with hold | ⟨rfl, rfl⟩
    · obtain ⟨hlt, ⟨par, hr⟩ | ⟨i, q, hq, hid, hqz, hcode⟩⟩ := h.dead c code' hold
      · exact ⟨hlt, .inl ⟨par, by rw [hh]; exact List.mem_append_left _ hr⟩⟩
      · have hi : i ≠ k.current := by
          rintro rfl
          obtain rfl := Option.some.inj (hq.symm.trans hx.proc)
          exact hz hqz
        refine ⟨hlt, .inr ⟨i, adopt k.current (initSlot k.procs) q, ?_, (adopt_pid ..).trans hid,
          (adopt_state ..).trans hqz, (adopt_exitCode ..).trans hcode⟩⟩
        rw [hslots, if_neg hi, hq]
        rfl
    · have hcur := hslots k.current
      rw [if_pos rfl] at hcur
      exact ⟨hlt, .inr ⟨_, _, hcur, adopt_pid .., rfl, rfl⟩⟩
  · obtain ⟨q, hq, he, hst⟩ := hback i x hxi
    rw [hh]
    rcases hst hxz with ⟨h1, h2⟩ | ⟨h1, h2⟩
    · rw [h1, h2]
      exact List.mem_append_right _ (List.mem_singleton_self _)
    · rw [he, h2]
      exact List.mem_append_left _ (h.undead i q hq h1)
  · rw [hh] at hs
    rcases snoc_split hs with ⟨rfl, he⟩ | ⟨post', hs⟩
    · -- an exit before this one would have left a zombie or a reap
      obtain ⟨rfl, rfl⟩ := ProcEvent.exited.inj he
      intro code'' hmem
      obtain ⟨-, ⟨par, hr⟩ | ⟨i, q, hq, hid, hqz, -⟩⟩ := h.dead _ _ hmem
      · exact (h.gone par _ hr).2 _ p hx.proc rfl
      · obtain rfl := hinj i k.current q p hq hx.proc hid
        obtain rfl := Option.some.inj (hq.symm.trans hx.proc)
        exact hz hqz
    · exact h.exits_once pre post' c code' hs
  · rw [hh] at hs
    rcases snoc_split hs with ⟨-, he⟩ | ⟨post', hs⟩
    · cases he
    · exact h.reaps_once pre post' par c hs

/-- A zombie is reaped. -/
theorem reap (h : Obituaries k) (ht : ∀ i j p q, k.procs.slots i = some p →
      k.procs.slots j = some q → p.pid = q.pid → i = j) {par child : ℕ} {c q : Process}
    {m1 m2 : Machine} (hr : Reap par child c q m1 m2 k k') (hlt : c.pid < k.procs.nextPid)
    (hz : c.state = .zombie) (hq : q.state ≠ .zombie) : Obituaries k' := by
  have hh : k'.history = k.history ++ [.reaped q.pid c.pid] := by rw [hr.state]; rfl
  have hn : k'.procs.nextPid = k.procs.nextPid := by rw [hr.state]; rfl
  have hslots : k'.procs.slots = ((k.setSlot par (some { q with state := .ready })).setSlot child
      none).procs.slots := by
    rw [hr.state]
    rfl
  have hback : ∀ i x, k'.procs.slots i = some x → i ≠ child ∧ ∃ y, k.procs.slots i = some y ∧
      x.pid = y.pid ∧ (x.state = .zombie → y.state = .zombie ∧ x.exitCode = y.exitCode) := by
    intro i x hx
    rw [hslots, Kernel.setSlot_slots, Kernel.setSlot_slots] at hx
    split_ifs at hx with hi hj
    · subst hj
      obtain rfl := Option.some.inj hx
      exact ⟨hi, q, hr.par_slot, rfl, nofun⟩
    · exact ⟨hi, x, hx, rfl, fun hz => ⟨hz, rfl⟩⟩
  have hmem : ∀ x ∈ k.history, x ∈ k'.history := fun x hx => by
    rw [hh]
    exact List.mem_append_left _ hx
  refine ⟨hn ▸ h.fits, fun par' c' hr' => ?_, fun c' code hx => ?_, fun i x hx hxz => ?_,
    fun pre post c' code hs => ?_, fun pre post par' c' hs => ?_⟩
  · rw [hn]
    rw [hh, List.mem_append, List.mem_singleton] at hr'
    rcases hr' with hr' | he
    · obtain ⟨hlt', hno⟩ := h.gone par' c' hr'
      refine ⟨hlt', fun i x hx hid => ?_⟩
      obtain ⟨-, y, hy, he, -⟩ := hback i x hx
      exact hno i y hy (he ▸ hid)
    · obtain ⟨rfl, rfl⟩ := ProcEvent.reaped.inj he
      refine ⟨hlt, fun i x hx hid => ?_⟩
      obtain ⟨hne, y, hy, he, -⟩ := hback i x hx
      exact hne (ht i child y c hy hr.child_slot (he.symm.trans hid))
  · rw [hn]
    rw [hh, List.mem_append, List.mem_singleton] at hx
    obtain ⟨hlt', ⟨par', hr'⟩ | ⟨i, x, hx, hid, hxz, hcode⟩⟩ := h.dead c' code
      (hx.resolve_right nofun)
    · exact ⟨hlt', .inl ⟨par', hmem _ hr'⟩⟩
    · by_cases hi : i = child
      · subst hi
        obtain rfl := Option.some.inj (hx.symm.trans hr.child_slot)
        refine ⟨hlt', .inl ⟨q.pid, ?_⟩⟩
        rw [hh, ← hid]
        exact List.mem_append_right _ (List.mem_singleton_self _)
      · have hj : i ≠ par := by
          rintro rfl
          obtain rfl := Option.some.inj (hx.symm.trans hr.par_slot)
          exact hq hxz
        refine ⟨hlt', .inr ⟨i, x, ?_, hid, hxz, hcode⟩⟩
        rw [hslots, Kernel.setSlot_slots, Kernel.setSlot_slots, if_neg hi, if_neg hj]
        exact hx
  · obtain ⟨-, y, hy, he, hst⟩ := hback i x hx
    obtain ⟨hyz, hcode⟩ := hst hxz
    rw [he, hcode]
    exact hmem _ (h.undead i y hy hyz)
  · rw [hh] at hs
    rcases snoc_split hs with ⟨-, he⟩ | ⟨post', hs⟩
    · cases he
    · exact h.exits_once pre post' c' code hs
  · rw [hh] at hs
    rcases snoc_split hs with ⟨rfl, he⟩ | ⟨post', hs⟩
    · obtain ⟨rfl, rfl⟩ := ProcEvent.reaped.inj he
      refine ⟨⟨c.exitCode, h.undead child c hr.child_slot hz⟩, fun par' hmem => ?_⟩
      exact (h.gone par' _ hmem).2 child c hr.child_slot rfl
    · exact h.reaps_once pre post' par' c' hs

/-- A process is born with the next pid. -/
theorem newProc (h : Obituaries k) {slot : ℕ} (hfree : k.procs.slots slot = none)
    (hslots : k'.procs.slots = (k.setSlot slot (some p')).procs.slots)
    (hpid : p'.pid = k.procs.nextPid) (hst : p'.state ≠ .zombie)
    (hn : k'.procs.nextPid = k.procs.nextPid + 1) (hfits : k.procs.nextPid + 1 < usizeBound)
    {par : ℕ} (hh : k'.history = k.history ++ [.forked par p'.pid]) : Obituaries k' := by
  refine h.update (by omega) (hn ▸ hfits) (fun i x hx => ?_) (fun i x hx hz => ?_)
    (.inr ⟨_, hh, nofun, nofun⟩)
  · rw [hslots, Kernel.setSlot_slots] at hx
    split_ifs at hx with hi
    · obtain rfl := Option.some.inj hx
      exact .inl ⟨hpid.ge, hst⟩
    · exact .inr ⟨x, hx, rfl, fun hz => ⟨hz, rfl⟩⟩
  · have hi : i ≠ slot := by
      rintro rfl
      exact Option.some_ne_none x (hx.symm.trans hfree)
    refine ⟨x, ?_, rfl, hz, rfl⟩
    rw [hslots, Kernel.setSlot_slots, if_neg hi]
    exact hx

variable {e : Event} {k0 : Kernel}

theorem move (h : Obituaries k) (ht : Tree k) (he : e.ordinary) (hm : Move e k0 k k') :
    Obituaries k' := by
  have hlive : ∀ {q}, k.procs.slots k.current = some q → q.state ≠ .zombie := by
    intro q hq
    obtain ⟨q', hq', hrun⟩ := ht.current (ht.current_ne hq)
    obtain rfl := Option.some.inj (hq.symm.trans hq')
    simp [hrun]
  have hown : ∀ {q q' : Process} {k' : Kernel}, k.procs.slots k.current = some q →
      k'.procs.slots = (k.setSlot k.current (some q')).procs.slots → q'.pid = q.pid →
      q'.state = q.state → k'.procs.nextPid = k.procs.nextPid → k'.history = k.history →
      Obituaries k' := fun hq hs hpid hst hn hh =>
    h.setSlot hq hs hpid (hlive hq) (hst ▸ hlive hq) hn (.inl hh)
  cases hm with
  | quiet hq => exact h.congr hq.procs hq.history
  | trap _ _ => exact h.congr rfl rfl
  | store _ _ _ => exact h.congr rfl rfl
  | memory _ _ _ => exact h.congr rfl rfl
  | result _ _ _ => exact h.congr rfl rfl
  | resume _ => exact h.congr rfl rfl
  | own _ hp hof =>
    obtain ⟨h1, -, h3⟩ := Tree.own_eq hof
    exact hown hp rfl h1 h3 rfl rfl
  | socket _ hp _ => exact hown hp rfl rfl rfl rfl rfl
  | close _ _ _ hp _ => exact hown hp rfl rfl rfl rfl rfl
  | fork _ hslot _ _ _ hpid =>
    have hfree := (position_some hslot).2
    exact h.newProc (Option.isNone_iff_eq_none.mp hfree) rfl rfl nofun rfl hpid rfl
  | exec _ hp _ _ _ _ _ => exact hown hp rfl rfl rfl rfl rfl
  | exit _ _ hx _ =>
    exact (h.exit ht.pid_inj (ht.pid_lt _ _ hx.proc).2 (hlive hx.proc) hx).congr rfl rfl
  | @exitReap t p c q code m1 m2 m3 k1 k2 _ _ hx hw hr =>
    have h1 := h.exit ht.pid_inj (ht.pid_lt _ _ hx.proc).2 (hlive hx.proc) hx
    have ht1 := ht.exit hx
    have hc := Tree.exit_slots hx k0.current
    rw [show (trapState t k0).current = k0.current from rfl, if_pos rfl] at hc
    have hz : c.state = .zombie := by
      rw [← Option.some.inj (hc.symm.trans hr.child_slot)]
    obtain ⟨-, q', hq', hsl⟩ := hw
    obtain rfl := Option.some.inj (hq'.symm.trans hr.par_slot)
    exact (h1.reap ht1.pid_inj hr (ht1.pid_lt _ _ hr.child_slot).2 hz (by simp [hsl])).congr rfl rfl
  | @waitReap t io p c q child m1 m2 k1 _ hp hz hr =>
    obtain ⟨c0, hc0, hpar, hzom⟩ := waitScan_zombie hz
    have hne : child ≠ k0.current := by
      rintro rfl
      exact hlive hc0 hzom
    have hc := hr.child_slot
    rw [Kernel.setSlot_slots, if_neg hne] at hc
    obtain rfl := Option.some.inj (hc0.symm.trans hc)
    have h1 : Obituaries ((trapState t k0).setSlot k0.current (some (asleep p (t.arg 11)))) :=
      h.setSlot hp rfl rfl (hlive hp) nofun rfl (.inl rfl)
    have ht1 : Tree ((trapState t k0).setSlot k0.current (some (asleep p (t.arg 11)))).idle :=
      ht.sleeps hp ⟨child, c0, hc0, hpar⟩
    have hq := hr.par_slot
    rw [Kernel.setSlot_slots, if_pos rfl] at hq
    obtain rfl := Option.some.inj hq
    exact (h1.reap ht1.pid_inj hr (ht.pid_lt _ _ hc0).2 hzom nofun).congr rfl rfl
  | waitBlock _ hp _ => exact h.setSlot hp rfl rfl (hlive hp) nofun rfl (.inl rfl)
  | waitNone _ hp _ =>
    exact h.setSlot hp rfl rfl (hlive hp) nofun rfl (.inr ⟨_, rfl, nofun, nofun⟩)
  | block _ _ hp => exact h.setSlot hp rfl rfl (hlive hp) nofun rfl (.inl rfl)
  | yield _ _ _ =>
    cases hp : k.procs.slots k.current with
    | none =>
      rw [Option.map_none, ← hp, Kernel.setSlot_same]
      exact h.congr rfl rfl
    | some p =>
      rw [Option.map_some]
      by_cases hrun : p.state = .running
      · rw [if_pos hrun]
        exact h.setSlot hp rfl rfl (hlive hp) nofun rfl (.inl rfl)
      · rw [if_neg hrun]
        exact h.setSlot hp rfl rfl (hlive hp) (hlive hp) rfl (.inl rfl)
  | wake hs hp _ _ =>
    obtain ⟨p', hp', hsl⟩ := any_some (position_some hs).2
    obtain rfl := Option.some.inj (hp.symm.trans hp')
    exact h.setSlot hp rfl rfl (by simp_all) nofun rfl (.inl rfl)
  | schedule _ hf hp =>
    obtain ⟨p', hp', hst⟩ := picked_some hf
    obtain rfl := Option.some.inj (hp.symm.trans hp')
    exact h.setSlot hp rfl rfl (by simp [hst]) nofun rfl (.inl rfl)
  | heapGrow _ _ => exact h.congr rfl rfl
  | spawnFail he' _ _ _ => exact absurd he' he.ne_spawn
  | spawn he' _ _ _ _ _ => exact absurd he' he.ne_spawn

end Obituaries

/-- Every exit and every reap of a run is accounted for. -/
theorem Reaches.obituaries (hs : Started k0) (hr : Reaches k0 k) : Obituaries k := by
  refine (hr.invariant (I := fun k => Tree k ∧ Obituaries k) ⟨hs.tree, ?_⟩ ?_).2
  · obtain ⟨hn, -, hh⟩ := hs.rest
    obtain ⟨p, -, hst, -, -, hp⟩ := hs.slots
    refine ⟨by rw [hn]; decide, by simp [hh], by simp [hh], fun i q hq hz => ?_, by simp [hh],
      by simp [hh]⟩
    rw [hp] at hq
    split_ifs at hq
    obtain rfl := Option.some.inj hq
    simp [hst] at hz
  · rintro e s s' he hn ⟨ht, ho⟩
    exact hn.keeps (I := fun k => Tree k ∧ Obituaries k) ⟨ht, ho⟩
      fun _ _ hI hmv => ⟨hI.1.move he hmv, hI.2.move hI.1 he hmv⟩

end LightOS
