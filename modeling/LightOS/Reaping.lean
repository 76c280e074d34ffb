import LightOS.Accounts
import LightOS.DeepCopy
import LightOS.Input
import LightOS.Waiting

/-!
# The completion of wait4

A step in which a wait4 completes, as a whole: the zombie was found by the call, or the
child exits while its parent sleeps. Either way the waiter gets the pid and the status,
and the slot and the root of the child are free again.
-/
namespace LightOS
open Lib

section Parked

variable {e : Event} {k0 k k' : Kernel} {i : ℕ} {p p' q : Process} {t : UserTrap} {io : Io}

theorem slot_apart (hi : ∃ q, k.procs.slots i = some q ∧ q.state ≠ p.state) {j : ℕ}
    (hp : k.procs.slots j = some p) {o : Option Process} :
    (k.setSlot i o).procs.slots j = some p := by
  obtain ⟨q, hq, hne⟩ := hi
  have hj : j ≠ i := by
    rintro rfl
    obtain rfl := Option.some.inj (hp.symm.trans hq)
    exact hne rfl
  rw [Kernel.setSlot_slots, if_neg hj]
  exact hp

/-- Zombies and sleepers in wait4 are not touched by others: one of them gets another
parent, is reaped, or is woken by an exit. -/
theorem Move.parked (ht : Tree k) (he : e.ordinary) (hm : Move e k0 k k')
    (hp : k.procs.slots i = some p) (hst : p.state = .zombie ∨ p.state = .sleepChild) :
    (∃ par, k'.procs.slots i = some { p with parent := par }) ∨
      (p.state = .zombie ∧ ∃ par, .reaped par p.pid ∈ k'.history) ∨
      p.state = .sleepChild ∧ Exits e := by
  have hsame : ∀ {k' : Kernel}, k'.procs.slots i = some p →
      ∃ par, k'.procs.slots i = some { p with parent := par } := fun h => ⟨p.parent, h⟩
  have hcur : ∀ {q}, k.procs.slots k.current = some q →
      ∃ q', k.procs.slots k.current = some q' ∧ q'.state ≠ p.state := by
    intro q hq
    obtain ⟨q', hq', hrun⟩ := ht.current (ht.current_ne hq)
    exact ⟨q', hq', by rcases hst with h | h <;> simp [hrun, h]⟩
  have hdies : ∀ {t : UserTrap} {code : ℤ}, e = .trap t →
      ((∃ io, Call e t io .exit ∧ code = toI32 (t.arg 10)) ∨
        ∃ sc, t.cause = .fault sc ∧ code = -1) → Exits e := by
    rintro t code het (⟨io, hc, -⟩ | ⟨sc, hc, -⟩)
    · exact ⟨t, het, .inr ⟨io, hc⟩⟩
    · exact ⟨t, het, .inl ⟨sc, hc⟩⟩
  have hexit : ∀ {q : Process} {code : ℤ} {m1 : Machine} {k1 : Kernel}, Exit code q m1 k k1 →
      k1.procs.slots i = some (adopt k.current (initSlot k.procs) p) := by
    intro q code m1 k1 hx
    obtain ⟨q', hq', hne⟩ := hcur hx.proc
    have hi : i ≠ k.current := by
      rintro rfl
      obtain rfl := Option.some.inj (hp.symm.trans hq')
      exact hne rfl
    rw [Tree.exit_slots hx, if_neg hi, hp, Option.map_some]
  have hadopt : ∀ cur init, ∃ par, adopt cur init p = { p with parent := par } := by
    intro cur init
    unfold adopt
    split_ifs
    · exact ⟨_, rfl⟩
    · exact ⟨p.parent, rfl⟩
  cases hm with
  | quiet hq =>
    left
    exact hsame (by rw [hq.procs, hp])
  | own _ hq _ => exact .inl (hsame (slot_apart (hcur hq) hp))
  | socket _ hq _ => exact .inl (hsame (slot_apart (hcur hq) hp))
  | close _ _ _ hq _ => exact .inl (hsame (slot_apart (hcur hq) hp))
  | fork _ hslot _ _ _ _ =>
    have hfree := Option.isNone_iff_eq_none.mp (position_some hslot).2
    refine .inl (hsame ?_)
    change ((trapState _ k0).setSlot _ _).procs.slots i = some p
    rw [Kernel.setSlot_slots, if_neg, hp]
    rintro rfl
    exact Option.some_ne_none p (hp.symm.trans hfree)
  | exec _ hq _ _ _ _ _ => exact .inl (hsame (slot_apart (hcur hq) hp))
  | exit _ _ hx _ =>
    obtain ⟨par, hpar⟩ := hadopt k0.current (initSlot k0.procs)
    exact .inl ⟨par, (hexit hx).trans (congrArg some hpar)⟩
  | @exitReap t p' c q code m1 m2 m3 k1 k2 het hcode hx hw hr =>
    rcases hst with hz | hsl
    · left
      obtain ⟨par, hpar⟩ := hadopt k0.current (initSlot k0.procs)
      refine ⟨par, ?_⟩
      rw [← hpar]
      have h1 := hexit hx
      have hne : i ≠ k0.current := by
        rintro rfl
        obtain ⟨q', hq', hne⟩ := hcur hx.proc
        obtain rfl := Option.some.inj (hp.symm.trans hq')
        exact hne rfl
      have hne' : i ≠ p'.parent := by
        rintro rfl
        obtain ⟨-, q', hq', hsl⟩ := hw
        obtain rfl := Option.some.inj (h1.symm.trans hq')
        rw [adopt_state, hz] at hsl
        cases hsl
      rw [hr.state]
      change ((Kernel.setSlot _ p'.parent _).setSlot k0.current none).procs.slots i = _
      rw [Kernel.setSlot_slots, Kernel.setSlot_slots, if_neg hne, if_neg hne']
      exact h1
    · exact .inr (.inr ⟨hsl, hdies het hcode⟩)
  | @waitReap t io p' c q child m1 m2 k1 hc hq hz hr =>
    obtain ⟨c0, hc0, -, hzom⟩ := waitScan_zombie hz
    obtain ⟨q', hq', hne⟩ := hcur hq
    have hcurne : i ≠ k0.current := by
      rintro rfl
      obtain rfl := Option.some.inj (hp.symm.trans hq')
      exact hne rfl
    by_cases hi : i = child
    · subst hi
      obtain rfl := Option.some.inj (hp.symm.trans hc0)
      have hcs := hr.child_slot
      rw [Kernel.setSlot_slots, if_neg hcurne] at hcs
      obtain rfl := Option.some.inj (hp.symm.trans hcs)
      refine .inr (.inl ⟨hzom, q.pid, ?_⟩)
      rw [hr.state]
      exact List.mem_append_right _ (List.mem_singleton_self _)
    · refine .inl (hsame ?_)
      rw [hr.state]
      change ((Kernel.setSlot _ k0.current _).setSlot child none).procs.slots i = _
      rw [Kernel.setSlot_slots, Kernel.setSlot_slots, if_neg hi, if_neg hcurne]
      change ((trapState t k0).setSlot k0.current _).procs.slots i = _
      rw [Kernel.setSlot_slots, if_neg hcurne]
      exact hp
  | waitBlock _ hq _ => exact .inl (hsame (slot_apart (hcur hq) hp))
  | waitNone _ hq _ => exact .inl (hsame (slot_apart (hcur hq) hp))
  | block _ _ hq => exact .inl (hsame (slot_apart (hcur hq) hp))
  | yield _ _ _ =>
    cases hq : k.procs.slots k.current with
    | none =>
      rw [Option.map_none, ← hq, Kernel.setSlot_same]
      exact .inl (hsame hp)
    | some q => exact .inl (hsame (slot_apart (hcur hq) hp))
  | wake hs hq _ _ =>
    obtain ⟨q', hq', hsl⟩ := any_some (position_some hs).2
    refine .inl (hsame (slot_apart ⟨q', hq', ?_⟩ hp))
    rcases hst with h | h <;> simp_all
  | schedule _ hf hq =>
    obtain ⟨q', hq', hsl⟩ := picked_some hf
    refine .inl (hsame (slot_apart ⟨q', hq', ?_⟩ hp))
    rcases hst with h | h <;> simp [hsl, h]
  | spawnFail he' _ _ _ => exact absurd he' he.ne_spawn
  | spawn he' _ _ _ _ _ => exact absurd he' he.ne_spawn
  | _ => exact .inl (hsame hp)

/-- The history only grows, and only the end of a process and wait4 add to the book of
exits and reaps. -/
theorem Move.history (he : e.ordinary) (hm : Move e k0 k k') : ∃ l, k'.history = k.history ++ l ∧
    (¬ Exits e → (∀ t io, ¬ Call e t io .wait4) → ∀ x ∈ l, ∃ par c, x = .forked par c) := by
  have hdies : ∀ {t : UserTrap} {code : ℤ}, e = .trap t →
      ((∃ io, Call e t io .exit ∧ code = toI32 (t.arg 10)) ∨
        ∃ sc, t.cause = .fault sc ∧ code = -1) → Exits e := by
    rintro t code het (⟨io, hc, -⟩ | ⟨sc, hc, -⟩)
    · exact ⟨t, het, .inr ⟨io, hc⟩⟩
    · exact ⟨t, het, .inl ⟨sc, hc⟩⟩
  cases hm with
  | quiet hq => exact ⟨[], by rw [hq.history, List.append_nil], by simp⟩
  | @fork t io p slot r m1 m2 _ _ _ _ _ _ =>
    exact ⟨[.forked p.pid k0.procs.nextPid], rfl, by simp⟩
  | @exit t p code m1 k1 het hcode hx _ =>
    refine ⟨[.exited p.pid code], ?_, fun h => absurd (hdies het hcode) h⟩
    rw [hx.state]
    rfl
  | @exitReap t p c q code m1 m2 m3 k1 k2 het hcode hx _ hr =>
    refine ⟨[.exited p.pid code, .reaped q.pid c.pid], ?_, fun h => absurd (hdies het hcode) h⟩
    rw [hr.state]
    change k1.history ++ _ = _
    rw [hx.state]
    exact List.append_assoc ..
  | @waitReap t io p c q child m1 m2 k1 hc _ _ hr =>
    refine ⟨[.reaped q.pid c.pid], ?_, fun _ h => absurd hc (h t io)⟩
    rw [hr.state]
    rfl
  | @waitNone t io p hc _ _ => exact ⟨[.noChild p.pid], rfl, fun _ h => absurd hc (h t io)⟩
  | spawnFail he' _ _ _ => exact absurd he' he.ne_spawn
  | spawn he' _ _ _ _ _ => exact absurd he' he.ne_spawn
  | _ => exact ⟨[], (List.append_nil _).symm, by simp⟩

/-- A step that ends no process and is no wait4 leaves the book of exits and reaps alone. -/
theorem Next.history (he : e.ordinary) (hn : Next e k k') : ∃ l, k'.history = k.history ++ l ∧
    (¬ Exits e → (∀ t io, ¬ Call e t io .wait4) → ∀ x ∈ l, ∃ par c, x = .forked par c) := by
  refine hn.keeps (I := fun s => ∃ l, s.history = k.history ++ l ∧
    (¬ Exits e → (∀ t io, ¬ Call e t io .wait4) → ∀ x ∈ l, ∃ par c, x = .forked par c))
    ⟨[], by simp, by simp⟩ fun s s' ⟨l, hl, hI⟩ hm => ?_
  obtain ⟨l', hl', hI'⟩ := hm.history he
  refine ⟨l ++ l', by rw [hl', hl, List.append_assoc], fun h1 h2 x hx => ?_⟩
  exact (List.mem_append.mp hx).elim (hI h1 h2 x) (hI' h1 h2 x)

/-- A zombie in a slot, by what does not change any more. -/
def ZombieAt (k : Kernel) (i c : ℕ) (code : ℤ) : Prop :=
  ∃ z, k.procs.slots i = some z ∧ z.pid = c ∧ z.state = .zombie ∧ z.exitCode = code

/-- A zombie stays until it is reaped. -/
theorem Next.zombie (ht : Tree k) (he : e.ordinary) (hn : Next e k k') {c : ℕ} {code : ℤ}
    (hz : ZombieAt k i c code) : ZombieAt k' i c code ∨ ∃ par, .reaped par c ∈ k'.history := by
  refine (hn.keeps (I := fun s => Tree s ∧ (ZombieAt s i c code ∨ ∃ par, .reaped par c ∈ s.history))
    ⟨ht, .inl hz⟩ fun s s' ⟨ht, hI⟩ hm => ⟨ht.move he hm, ?_⟩).2
  rcases hI with ⟨z, hzi, rfl, hst, rfl⟩ | ⟨par, hr⟩
  · rcases hm.parked ht he hzi (.inl hst) with ⟨par, h⟩ | ⟨-, h⟩ | ⟨h, -⟩
    · exact .inl ⟨_, h, rfl, hst, rfl⟩
    · exact .inr h
    · rw [hst] at h
      cases h
  · obtain ⟨l, hl, -⟩ := hm.history he
    exact .inr ⟨par, hl ▸ List.mem_append_left l hr⟩

/-- A sleeper in wait4 sleeps on, unless some process exits. -/
theorem Next.sleeper (ht : Tree k) (he : e.ordinary) (hne : ¬ Exits e) (hn : Next e k k')
    (hq : k.procs.slots i = some q) (hst : q.state = .sleepChild) :
    ∃ par, k'.procs.slots i = some { q with parent := par } := by
  refine (hn.keeps (I := fun s => Tree s ∧ ∃ par, s.procs.slots i = some { q with parent := par })
    ⟨ht, q.parent, hq⟩ fun s s' ⟨ht, par, hI⟩ hm => ⟨ht.move he hm, ?_⟩).2
  rcases hm.parked ht he hI (.inr hst) with h | ⟨h, -⟩ | ⟨-, h⟩
  · exact h
  · exact absurd (hst.symm.trans h) nofun
  · exact absurd h hne

/-- The end of a process, as the exit it comes to. -/
theorem Next.ends (hx : Exits e) (hcur : k.current ≠ noProc) (hn : Next e k k') :
    ∃ t code, e = .trap t ∧ ((∃ io, Call e t io .exit) ∧ code = toI32 (t.arg 10) ∨
      (∃ sc, t.cause = .fault sc) ∧ code = -1) ∧
      exitCurrent code (trapState t k) = .ok ((), k') := by
  obtain ⟨t, het, ⟨sc, hsc⟩ | ⟨io, hc⟩⟩ := hx
  · have h := step_trap het hcur (fun io => by rw [hsc]; nofun) hn
    rw [hsc] at h
    obtain ⟨r, k1, h1, h2⟩ := Prog.bind_ok.mp h
    obtain ⟨p, -, -, -, rfl⟩ := currentInfo_ok.mp h1
    exact ⟨t, -1, het, .inr ⟨⟨sc, hsc⟩, rfl⟩, h2⟩
  · obtain ⟨-, r, k1, h1, h2⟩ := step_call hc hcur hn
    obtain ⟨u, k2, h3, h4⟩ := Prog.bind_ok.mp h1
    obtain ⟨rfl, rfl⟩ := Prod.mk.inj (Prog.pure_ok.mp h4)
    obtain rfl : k' = k1 := h2
    refine ⟨t, _, het, .inl ⟨⟨io, hc⟩, rfl⟩, ?_⟩
    obtain ⟨-, hcause, -⟩ := hc
    rwa [(trapState_args hcause).1] at h3

/-- A wait4 that leaves the kernel, as the call of the process table. -/
theorem Next.waits (hc : Call e t io .wait4) (hcur : k.current ≠ noProc) (hn : Next e k k') :
    waitCurrent (t.arg 11) (trapState t k) = .ok ((), k') := by
  obtain ⟨-, r, k1, h1, h2⟩ := step_call hc hcur hn
  obtain ⟨u, k2, h3, h4⟩ := Prog.bind_ok.mp h1
  obtain ⟨rfl, rfl⟩ := Prod.mk.inj (Prog.pure_ok.mp h4)
  obtain rfl : k' = k1 := h2
  obtain ⟨-, hcause, -⟩ := hc
  rwa [(trapState_args hcause).2] at h3

end Parked

section Memory

variable {role role' : ℕ → Role} {m m' : Machine} {k k' : Kernel}

/-- Taking down the user part of one root leaves the user mappings of another. -/
theorem Shrinks.other_translation {r s va : ℕ} {x : ℕ × ℕ} (h : Shrinks (Window r) role m role' m')
    (hg : Good role m) (hr : role r = .root) (hs : role s = .root) (hne : s ≠ r) (hw : InWindow va)
    (ht : LightOS.translation m s va = some x) : LightOS.translation m' s va = some x := by
  obtain ⟨q, f⟩ := x
  have hstay : ∀ {t}, Under role s userRootSlot t → ¬ Below role (Window r) t := by
    rintro t hu ⟨r', k', hP, hu'⟩
    exact hne ((hu.unique hg.tables hu').1.trans hP.1)
  have hrole : ∀ {t}, Under role s userRootSlot t → role' t = role t := fun {t} hu =>
    (h.drop t).resolve_right fun hd => hstay hu hd.2
  obtain ⟨l0, ⟨l1, h1, h0⟩, hv, rfl, rfl⟩ := (hg.translation_iff (Or.inl hs)).mp ht
  rw [vpn_window hw.1 hw.2, home_user] at h1
  have hu1 : Under role s userRootSlot l1 := .top h1
  have hu0 : Under role s userRootSlot l0 := .step (l := 1) h0 hu1
  have hs' : role' s = .root := by
    refine ((h.drop s).resolve_right ?_).trans hs
    rintro ⟨-, r', k', -, hu⟩
    exact hu.not_root (.inl hs)
  have hpte : m'.pte l0 (vpn va 0) = m.pte l0 (vpn va 0) := by
    have hl : (role' l0).level = some 0 := by
      rw [hrole hu0, h0]
      rfl
    rcases h.pte l0 0 _ hl (vpn_lt va 0) with he | ⟨-, hP | hb⟩
    · exact he
    · rw [hP.1, hr] at h0
      cases h0
    · exact absurd hb (hstay hu0)
  refine (h.good.translation_iff (Or.inl hs')).mpr ⟨l0, ⟨l1, ?_, ?_⟩, ?_, ?_, ?_⟩
  · rw [vpn_window hw.1 hw.2, home_user, hrole hu1, h1]
  · rw [hrole hu0, h0]
  · rw [hpte, hv]
  · rw [hpte]
  · rw [hpte]

/-- The status that wait4 reports: `(code & 0xff) << 8` on 32 bits. -/
def wstatus (code : ℤ) : BitVec 32 := (BitVec.ofInt 32 code &&& 0xff) <<< 8

theorem wstatus_toNat (code : ℤ) : (wstatus code).toNat = (code % 256).toNat * 256 := by
  have hlow : (BitVec.ofInt 32 code).toNat % 256 = (code % 256).toNat := by
    rw [BitVec.toNat_ofInt]
    omega
  have hand : (BitVec.ofInt 32 code).toNat &&& 255 = (BitVec.ofInt 32 code).toNat % 256 :=
    Nat.and_two_pow_sub_one_eq_mod _ 8
  rw [wstatus, BitVec.toNat_shiftLeft, BitVec.toNat_and, show (0xff : BitVec 32).toNat = 255 from rfl,
    hand, hlow, Nat.shiftLeft_eq]
  omega

/-- What the kernel stores is that word, least significant byte first. -/
theorem wstatusBytes_eq (code : ℤ) : wstatusBytes code = leBytes 4 (wstatus code).toNat := by
  have h0 : UInt8.ofNat ((code % 256).toNat * 256) = 0 := by
    rw [← UInt8.toNat_inj]
    simp
  have h1 : (code % 256).toNat * 256 / 256 = (code % 256).toNat := Nat.mul_div_cancel _ (by decide)
  have h2 : (code % 256).toNat / 256 = 0 := by omega
  rw [wstatus_toNat]
  simp only [leBytes, h0, h1, h2, wstatusBytes]
  rfl

/-- What reaping does to memory: the waiter can read the status, and the root is free. -/
theorem Reap.settles {par child : ℕ} {c q : Process} {m1 m2 : Machine} (hm : Memory role k)
    (hr : Reap par child c q m1 m2 k k') :
    (q.waitStatusUva ≠ 0 → CopyReady k.machine q.rootPa q.waitStatusUva 4 →
      Reads m2 q.rootPa q.waitStatusUva (leBytes 4 (wstatus c.exitCode).toNat)) ∧
      k.machine.Held c.rootPa ∧ ¬ m2.Held c.rootPa := by
  obtain ⟨hdata, hrel, -⟩ := hm.reap hr
  have hfree := hrel.freed
  refine ⟨fun huva hready => ?_, (hdata.held _).mp hfree.was, fun hheld =>
    ((hfree.held _).mp hheld).2 rfl⟩
  obtain ⟨r, hcopy⟩ := hr.store huva
  rw [← wstatusBytes_eq]
  have hroot := hm.good.userRoot (hm.root _ q hr.par_slot)
  obtain ⟨hok, hstored, -⟩ := (copyOut_exact hroot _ _).ok hcopy
  have hst := hstored (hok.mpr hready)
  have hroot1 := hroot.confined (hst.confined hready.start hready.stop)
  intro i hi
  obtain ⟨b, hb, hbyte⟩ := hst.reads hroot hready.start hready.stop i hi
  have hin : InWindow (q.waitStatusUva + i) := by
    have h1 := hready.start
    have h2 := hready.stop
    have h3 : i < 4 := hi
    exact ⟨by omega, by omega⟩
  refine ⟨b, ?_, ?_⟩
  · rw [hroot1.physical_eq (fun b _ => by rw [hfree.mem]) hin]
    exact hb
  · rw [hfree.mem]
    exact hbyte

end Memory

/-- In the step a wait4 of the process in slot `w` completes with the child in slot `i`,
whose exit code is `code`; the status goes to `uva`. -/
structure Buries (k0 : Kernel) (w i uva : ℕ) (code : ℤ) (q z : Process) (k k' : Kernel) : Prop where
  waiter : k.procs.slots w = some q
  child : k.procs.slots i = some z
  parent : z.parent = w
  result : (k'.frames w).a0 = z.pid
  awake : ∃ q', k'.procs.slots w = some q' ∧ q'.pid = q.pid ∧
    (q'.state = .ready ∨ q'.state = .running)
  slot_free : k'.procs.slots i = none
  status : ReachesSparing k0 k → uva ≠ 0 → CopyReady k.machine q.rootPa uva 4 →
    Reads k'.machine q.rootPa uva (leBytes 4 (wstatus code).toNat)
  root_free : ReachesSparing k0 k → k.machine.Held z.rootPa ∧ ¬ k'.machine.Held z.rootPa

/-- The call finds a zombie. -/
structure FindsZombie (k0 : Kernel) (t : UserTrap) (q z : Process) (k k' : Kernel) : Prop where
  buries : ∃ i, Buries k0 k.current i (t.arg 11) z.exitCode q z k k'
  zombie : z.state = .zombie
  history : k'.history = k.history ++ [.reaped q.pid z.pid]

/-- The current process ends with `code` while its parent sleeps in wait4. -/
structure WakesParent (k0 : Kernel) (code : ℤ) (w : ℕ) (q z : Process) (k k' : Kernel) : Prop where
  buries : Buries k0 w k.current q.waitStatusUva code q z k k'
  sleeps : q.state = .sleepChild
  history : k'.history = k.history ++ [.exited z.pid code, .reaped q.pid z.pid]

section Completion

variable {e : Event} {k0 k k1 k' : Kernel} {t : UserTrap} {io : Io} {p q z : Process}

/-- What follows from a reap, whoever does it, once the scheduler has run. -/
theorem Reap.after {par child : ℕ} {m1 m2 : Machine} (hr : Reap par child z q m1 m2 k k1)
    (hne : par ≠ child) (hfits : z.pid < usizeBound) (hs : Scheduled k1.idle k') :
    (k'.frames par).a0 = z.pid ∧ k'.procs.slots child = none ∧ k'.machine = m2 ∧
      k'.history = k.history ++ [.reaped q.pid z.pid] ∧
      ∃ q', k'.procs.slots par = some q' ∧ q'.pid = q.pid ∧
        (q'.state = .ready ∨ q'.state = .running) := by
  obtain ⟨h1, h2, h3, h4⟩ := hs.rest
  have hst := hr.state
  have hslots : ∀ i, k1.procs.slots i = ((k.setSlot par (some { q with state := .ready })).setSlot
      child none).procs.slots i := by
    intro i
    rw [hst]
    rfl
  have hchild : k1.procs.slots child = none := by
    rw [hslots, Kernel.setSlot_slots, if_pos rfl]
  have hpar : k1.procs.slots par = some { q with state := .ready } := by
    rw [hslots, Kernel.setSlot_slots, if_neg hne, Kernel.setSlot_slots, if_pos rfl]
  refine ⟨?_, ?_, ?_, ?_, ?_⟩
  · have ha0 : (k1.frames par).a0 = z.pid % 2 ^ 64 := by
      rw [hst]
      change ((Kernel.withFrame _ par ((k.frames par).setA0 z.pid)).frames par).a0 = _
      rw [Kernel.withFrame_self, setA0_a0]
    exact (h3 par).trans (ha0.trans (Nat.mod_eq_of_lt hfits))
  · rcases h4 child with he | ⟨p, hp, -⟩
    · exact he.trans hchild
    · exact absurd (hp.symm.trans hchild) (Option.some_ne_none p)
  · rw [h1]
    change k1.machine = m2
    rw [hst]
    rfl
  · rw [h2]
    change k1.history = _
    rw [hst]
    rfl
  · rcases h4 par with he | ⟨p, hp, -, he⟩
    · exact ⟨_, he.trans hpar, rfl, .inl rfl⟩
    · obtain rfl := Option.some.inj (hpar.symm.trans hp)
      exact ⟨_, he, rfl, .inr rfl⟩

/-- A wait4 call finds a zombie, sleeps, or has no child to wait for. -/
theorem wait4_call (hs : Started k0) (ht : Tree k) (hfits : k.procs.nextPid < usizeBound)
    (hc : Call e t io .wait4) (hp : k.procs.slots k.current = some p) (hn : Next e k k') :
    (∃ z, FindsZombie k0 t p z k k') ∨
      ((∃ i c, k.procs.slots i = some c ∧ c.parent = k.current) ∧
        (∀ i c, k.procs.slots i = some c → c.parent = k.current → c.state ≠ .zombie) ∧
        k'.procs.slots k.current = some (asleep p (t.arg 11)) ∧ k'.history = k.history) ∨
      (∀ i c, k.procs.slots i = some c → c.parent ≠ k.current) ∧
        k'.history = k.history ++ [.noChild p.pid] ∧ (k'.frames k.current).a0 = ofIsize (-10) ∧
        ∃ p', k'.procs.slots k.current = some p' ∧ p'.pid = p.pid ∧
          (p'.state = .ready ∨ p'.state = .running) := by
  have hcur := ht.current_ne hp
  obtain ⟨p0, hp0, hways⟩ := waitCurrent_ok (hn.waits hc hcur)
  change k.procs.slots k.current = some p0 at hp0
  obtain rfl := Option.some.inj (hp.symm.trans hp0)
  rcases hways with ⟨child, z, q, m1, m2, k1, hz, hr, hsch⟩ | ⟨hz, hsch⟩ | ⟨hz, hsch⟩
  · left
    obtain ⟨c0, hc0, hpar, hzom⟩ := waitScan_zombie hz
    change k.procs.slots child = some c0 at hc0
    have hne : k.current ≠ child := by
      rintro rfl
      obtain ⟨p', hp', hrun⟩ := ht.current hcur
      obtain rfl := Option.some.inj (hp'.symm.trans hc0)
      simp [hzom] at hrun
    have hcs := hr.child_slot
    rw [Kernel.setSlot_slots, trapState_current, if_neg hne.symm] at hcs
    obtain rfl := Option.some.inj (hc0.symm.trans hcs)
    have hq := hr.par_slot
    rw [Kernel.setSlot_self] at hq
    obtain rfl := Option.some.inj hq
    obtain ⟨h1, h2, h3, h4, h5⟩ := hr.after hne ((ht.pid_lt _ _ hc0).2.trans hfits) hsch
    have hmem : ∀ {role}, Memory role k → Memory role
        ((trapState t k).setSlot k.current (some (asleep p (t.arg 11)))) := fun hm =>
      hm.setSlot hp rfl rfl (fun h => h) rfl rfl
    refine ⟨c0, ⟨child, hp, hc0, hpar, h1, h5, h2, fun hrs huva hready => ?_, fun hrs => ?_⟩,
      hzom, h4⟩
    · obtain ⟨role, hm⟩ := hrs.memory hs
      rw [h3]
      exact (hr.settles (hmem hm)).1 huva hready
    · obtain ⟨role, hm⟩ := hrs.memory hs
      rw [h3]
      exact (hr.settles (hmem hm)).2
  · right
    left
    obtain ⟨-, h2, -, h4⟩ := hsch.rest
    refine ⟨waitScan_child (congrArg Prod.fst hz), fun i c hi hpar => ?_, ?_, h2⟩
    · exact waitScan_no_zombie (congrArg Prod.snd hz) (ht.bound i c hi) hi hpar
    · have hself : (((trapState t k).setSlot k.current (some (asleep p (t.arg 11)))).idle).procs.slots
          k.current = some (asleep p (t.arg 11)) := Kernel.setSlot_self ..
      rcases h4 k.current with he | ⟨q, hq, hready, -⟩
      · exact he.trans hself
      · obtain rfl := Option.some.inj (hself.symm.trans hq)
        cases hready
  · right
    right
    obtain ⟨-, h2, h3, h4⟩ := hsch.rest
    refine ⟨fun i c hi => waitScan_no_child (congrArg Prod.fst hz) (ht.bound i c hi) hi, h2, ?_, ?_⟩
    · rw [h3]
      change ((Kernel.withFrame _ k.current (((trapState t k).frames k.current).setA0
        (ofIsize (-10)))).frames k.current).a0 = _
      rw [Kernel.withFrame_self, setA0_a0]
      decide
    · have hself : ∀ kb : Kernel, kb.procs = ((trapState t k).setSlot k.current
          (some { p with waitStatusUva := t.arg 11, state := .ready })).procs →
          kb.procs.slots k.current = some { p with waitStatusUva := t.arg 11, state := .ready } := by
        intro kb hkb
        rw [hkb]
        exact Kernel.setSlot_self ..
      rcases h4 k.current with he | ⟨q, hq, -, he⟩
      · exact ⟨_, he.trans (hself _ rfl), rfl, .inl rfl⟩
      · obtain rfl := Option.some.inj ((hself _ rfl).symm.trans hq)
        exact ⟨_, he, rfl, .inr rfl⟩

/-- A process ends: its parent gets its pid and status if it sleeps in wait4, and else
the process stays as a zombie. The other sleepers sleep on. -/
theorem exit_step (hs : Started k0) (ht : Tree k) (hfits : k.procs.nextPid < usizeBound)
    (hx : Exits e) (hcur : k.current ≠ noProc) (hn : Next e k k') :
    ∃ t code p, e = .trap t ∧ ((∃ io, Call e t io .exit) ∧ code = toI32 (t.arg 10) ∨
        (∃ sc, t.cause = .fault sc) ∧ code = -1) ∧
      k.procs.slots k.current = some p ∧ p.pid ≠ 1 ∧
      (ZombieAt k' k.current p.pid code ∧ k'.history = k.history ++ [.exited p.pid code] ∧
          (∀ w q, k.procs.slots w = some q → q.state = .sleepChild →
            ∃ par, k'.procs.slots w = some { q with parent := par }) ∨
        (∃ q, WakesParent k0 code p.parent q p k k') ∧
          ∀ w q, k.procs.slots w = some q → q.state = .sleepChild → w ≠ p.parent →
            ∃ par, k'.procs.slots w = some { q with parent := par }) := by
  obtain ⟨t, code, het, hcode, hrun⟩ := hn.ends hx hcur
  obtain ⟨p, m1, k1, hxit, hways⟩ := exitCurrent_ok hrun
  have hp : k.procs.slots k.current = some p := hxit.proc
  have hslots := Tree.exit_slots hxit
  rw [trapState_current, trapState_procs] at hslots
  have hh1 : k1.history = k.history ++ [.exited p.pid code] := by
    rw [hxit.state]
    rfl
  have hzom := hslots k.current
  rw [if_pos rfl] at hzom
  -- the sleepers right after the exit
  have hsleep : ∀ w q, k.procs.slots w = some q → q.state = .sleepChild → w ≠ k.current ∧
      k1.procs.slots w = some (adopt k.current (initSlot k.procs) q) := by
    intro w q hq hsl
    have hw : w ≠ k.current := by
      rintro rfl
      obtain ⟨p', hp', hrun⟩ := ht.current hcur
      obtain rfl := Option.some.inj (hp'.symm.trans hq)
      simp [hsl] at hrun
    refine ⟨hw, ?_⟩
    rw [hslots, if_neg hw, hq, Option.map_some]
  refine ⟨t, code, p, het, hcode, hp, hxit.pid, ?_⟩
  rcases hways with ⟨-, hsch⟩ | ⟨hw, c, q, m2, m3, k2, hr, hsch⟩
  · left
    obtain ⟨-, h2, -, h4⟩ := hsch.rest
    refine ⟨?_, h2.trans hh1, fun w q hq hsl => ?_⟩
    · rcases h4 k.current with he | ⟨x, hx, hready, -⟩
      · exact ⟨_, he.trans hzom, adopt_pid .., rfl, rfl⟩
      · obtain rfl := Option.some.inj (hzom.symm.trans hx)
        cases hready
    · obtain ⟨par, hpar⟩ := adopt_only k.current (initSlot k.procs) q
      have h1 := (hsleep w q hq hsl).2
      rcases h4 w with he | ⟨x, hx, hready, -⟩
      · exact ⟨par, (he.trans h1).trans (congrArg some hpar)⟩
      · obtain rfl := Option.some.inj (h1.symm.trans hx)
        rw [adopt_state, hsl] at hready
        cases hready
  · right
    obtain ⟨-, q', hq', hsl⟩ := hw
    obtain rfl := Option.some.inj (hq'.symm.trans hr.par_slot)
    have hne : p.parent ≠ k.current := by
      intro he
      rw [he] at hq'
      obtain rfl := Option.some.inj (hzom.symm.trans hq')
      cases hsl
    have hmap := hq'
    rw [hslots, if_neg hne] at hmap
    obtain ⟨q0, hq0, rfl⟩ := Option.map_eq_some_iff.mp hmap
    have hcs := hr.child_slot
    rw [trapState_current] at hcs
    obtain rfl := Option.some.inj (hzom.symm.trans hcs)
    have hpid : (adopt k.current (initSlot k.procs) p).pid < usizeBound := by
      rw [adopt_pid]
      exact (ht.pid_lt _ _ hp).2.trans hfits
    obtain ⟨h1, h2, h3, h4, q'', hq'', hid, hst⟩ := hr.after hne hpid hsch
    have hsl0 : q0.state = .sleepChild := (adopt_state ..).symm.trans hsl
    obtain ⟨par0, hpar0⟩ := adopt_only k.current (initSlot k.procs) q0
    -- the exit takes down the memory of the child, then the parent is served
    have hmem : ReachesSparing k0 k → ∃ role role', Memory role k ∧
        Shrinks (Window p.rootPa) role k.machine role' k1.machine ∧ Memory role' k1 := by
      intro hrs
      obtain ⟨role, hm⟩ := hrs.memory hs
      have hmt : Memory role (trapState t k) := hm.congr rfl rfl rfl
      obtain ⟨role', hsh, hm1⟩ := hmt.exit hxit
      have hmach : k1.machine = m1 := by
        rw [hxit.state]
        rfl
      exact ⟨role, role', hm, hmach ▸ hsh, hm1⟩
    refine ⟨⟨q0, ⟨hq0, hp, rfl, h1.trans (adopt_pid ..), ⟨q'', hq'', hid.trans (adopt_pid ..), hst⟩, h2,
      fun hrs huva hready => ?_, fun hrs => ?_⟩, hsl0, ?_⟩, fun w q hq hsl' hw => ?_⟩
    · obtain ⟨role, role', hm, hsh, hm1⟩ := hmem hrs
      have hset := (hr.settles hm1).1
      rw [hpar0] at hset
      rw [h3]
      refine hset huva ⟨hready.fits, hready.start, hready.stop, fun a hlo hhi => ?_⟩
      obtain ⟨x, hx⟩ := Option.isSome_iff_exists.mp (hready.mapped a hlo hhi)
      have hwin : InWindow a := ⟨hready.start.trans hlo, lt_of_lt_of_le hhi hready.stop⟩
      have hroots : q0.rootPa ≠ p.rootPa := fun he => hne (hm.root_inj _ _ _ _ hq0 hp he)
      refine Option.isSome_iff_exists.mpr ⟨x, ?_⟩
      have hroot := hm.root _ _ hq0
      exact hsh.other_translation hm.good (hm.root _ _ hp) hroot hroots hwin hx
    · obtain ⟨role, role', hm, hsh, hm1⟩ := hmem hrs
      have hset := (hr.settles hm1).2
      change k1.machine.Held (adopt k.current (initSlot k.procs) p).rootPa ∧
        ¬ m3.Held (adopt k.current (initSlot k.procs) p).rootPa at hset
      rw [Memory.adopt_rootPa] at hset
      rw [h3]
      exact ⟨((hsh.held _).mp hset.1).1, hset.2⟩
    · rw [h4, hh1, List.append_assoc]
      change _ ++ ([ProcEvent.exited p.pid code] ++ [ProcEvent.reaped _
        (adopt k.current (initSlot k.procs) p).pid]) = _
      rw [adopt_pid, adopt_pid]
      rfl
    · obtain ⟨hwc, hw1⟩ := hsleep w q hq hsl'
      obtain ⟨par, hpar⟩ := adopt_only k.current (initSlot k.procs) q
      obtain ⟨-, -, -, h4'⟩ := hsch.rest
      have hw2 : k2.procs.slots w = some { q with parent := par } := by
        rw [hr.state]
        change ((Kernel.setSlot _ p.parent _).setSlot k.current none).procs.slots w = _
        rw [Kernel.setSlot_slots, Kernel.setSlot_slots, if_neg hwc, if_neg hw, ← hpar]
        exact hw1
      rcases h4' w with he | ⟨x, hx, hready, -⟩
      · exact ⟨par, he.trans hw2⟩
      · obtain rfl := Option.some.inj (hw2.symm.trans hx)
        exact absurd (hsl'.symm.trans hready) nofun

end Completion

/-- What a step does with the dead and with those who wait for them. -/
structure ReapStep (k0 : Kernel) (e : Event) (k k' : Kernel) : Prop where
  /-- Who exits becomes a zombie in its slot, with its code, or is reaped at once. -/
  exits : ∀ c code, .exited c code ∈ k'.history → .exited c code ∉ k.history →
    (∃ p, k.procs.slots k.current = some p ∧ p.pid = c ∧ p.pid ≠ 1) ∧
      (∃ t, e = .trap t ∧ ((∃ io, Call e t io .exit) ∧ code = toI32 (t.arg 10) ∨
        (∃ sc, t.cause = .fault sc) ∧ code = -1)) ∧
      (ZombieAt k' k.current c code ∨ ∃ par, .reaped par c ∈ k'.history)
  /-- The zombie keeps its slot and its code until it is reaped. -/
  zombies : ∀ i c code, ZombieAt k i c code →
    ZombieAt k' i c code ∨ ∃ par, .reaped par c ∈ k'.history
  /-- A wait4 call fails exactly for a caller without child. Otherwise it returns with a
  zombie child or sleeps. -/
  calls : ∀ t io p, Call e t io .wait4 → k.procs.slots k.current = some p →
    ((k'.history = k.history ++ [.noChild p.pid] ∧ (k'.frames k.current).a0 = ofIsize (-10)) ↔
      ∀ i c, k.procs.slots i = some c → c.parent ≠ k.current) ∧
    ((∃ i c, k.procs.slots i = some c ∧ c.parent = k.current) →
      (∃ z, FindsZombie k0 t p z k k') ∨
        k'.procs.slots k.current = some (asleep p (t.arg 11)) ∧ k'.history = k.history)
  /-- A sleeping wait4 completes by the exit of a child and in no other way. -/
  sleepers : ∀ w q, k.procs.slots w = some q → q.state = .sleepChild →
    (∃ par, k'.procs.slots w = some { q with parent := par }) ∨
      ∃ code z, WakesParent k0 code w q z k k'
  /-- Every entry of the book is one of these completions. -/
  reaps : ∀ par c, .reaped par c ∈ k'.history → .reaped par c ∉ k.history →
    ∃ q z, q.pid = par ∧ z.pid = c ∧ ((∃ t io, Call e t io .wait4 ∧ FindsZombie k0 t q z k k') ∨
      ∃ code w, Exits e ∧ WakesParent k0 code w q z k k')

theorem Next.reapStep {k0 k k' : Kernel} {e : Event} (hs : Started k0) (ht : Tree k)
    (ho : Obituaries k) (he : e.ordinary) (hn : Next e k k') : ReapStep k0 e k k' := by
  obtain ⟨l, hl, hquiet⟩ := hn.history he
  have hnew : ∀ x, x ∈ k'.history → x ∉ k.history → x ∈ l := by
    intro x hx hx0
    rw [hl, List.mem_append] at hx
    exact hx.resolve_left hx0
  -- an entry for the dead is made by a process on the hart, in its exit or its wait4
  have hbook : ∀ x, x ∈ k'.history → x ∉ k.history → (∀ par c, x ≠ .forked par c) →
      k.current ≠ noProc ∧ (Exits e ∨ ∃ t io, Call e t io .wait4) := by
    intro x hx hx0 hfork
    have hev : Exits e ∨ ∃ t io, Call e t io .wait4 := by
      by_contra hno
      obtain ⟨hno1, hno2⟩ := not_or.mp hno
      obtain ⟨par, c, rfl⟩ := hquiet hno1 (fun t io hc => hno2 ⟨t, io, hc⟩) x (hnew x hx hx0)
      exact hfork par c rfl
    refine ⟨fun hcur => ?_, hev⟩
    obtain ⟨t, het⟩ : ∃ t, e = .trap t := by
      rcases hev with ⟨t, het, -⟩ | ⟨t, io, hc⟩
      · exact ⟨t, het⟩
      · exact ⟨t, hc.event⟩
    exact hx0 (hn.idle_trap het hcur ▸ hx)
  refine ⟨fun c code hx hx0 => ?_, fun i c code hz => hn.zombie ht he hz, fun t io p hc hp => ?_,
    fun w q hq hsl => ?_, fun par c hr hr0 => ?_⟩
  · obtain ⟨hcur, hev⟩ := hbook _ hx hx0 nofun
    rcases hev with hxit | ⟨t, io, hc⟩
    · obtain ⟨t, code', p, het, hcode, hp, hpid, hways⟩ := exit_step hs ht ho.fits hxit hcur hn
      rcases hways with ⟨hz, hh, -⟩ | ⟨⟨q, hw⟩, -⟩
      · have hx' := hx
        rw [hh, List.mem_append, List.mem_singleton] at hx'
        obtain ⟨rfl, rfl⟩ := ProcEvent.exited.inj (hx'.resolve_left hx0)
        exact ⟨⟨p, hp, rfl, hpid⟩, ⟨t, het, hcode⟩, .inl hz⟩
      · have hx' := hx
        rw [hw.history, List.mem_append] at hx'
        have hx'' := hx'.resolve_left hx0
        simp only [List.mem_cons, ProcEvent.exited.injEq, reduceCtorEq, List.not_mem_nil,
          or_false] at hx''
        obtain ⟨rfl, rfl⟩ := hx''
        refine ⟨⟨p, hp, rfl, hpid⟩, ⟨t, het, hcode⟩, .inr ⟨q.pid, ?_⟩⟩
        rw [hw.history]
        simp
    · obtain ⟨p, hp, -⟩ := ht.current hcur
      have hx' := hx
      rcases wait4_call hs ht ho.fits hc hp hn with ⟨z, hf⟩ | ⟨-, -, -, hh⟩ | ⟨-, hh, -⟩
      · rw [hf.history, List.mem_append] at hx'
        simp [hx0] at hx'
      · exact absurd (hh ▸ hx) hx0
      · rw [hh, List.mem_append] at hx'
        simp [hx0] at hx'
  · have hways := wait4_call hs ht ho.fits hc hp hn
    constructor
    · constructor
      · rintro ⟨hh, -⟩ i c hi hpar
        rcases hways with ⟨z, hf⟩ | ⟨-, -, -, hh'⟩ | ⟨hno, -⟩
        · have := List.append_cancel_left (hf.history.symm.trans hh)
          simp at this
        · rw [hh'] at hh
          simp at hh
        · exact hno i c hi hpar
      · intro hno
        rcases hways with ⟨z, hf⟩ | ⟨⟨i, c, hi, hpar⟩, -⟩ | ⟨-, hh, ha, -⟩
        · obtain ⟨i, hb⟩ := hf.buries
          exact absurd hb.parent (hno i z hb.child)
        · exact absurd hpar (hno i c hi)
        · exact ⟨hh, ha⟩
    · rintro ⟨i, c, hi, hpar⟩
      rcases hways with hf | ⟨-, -, hslot, hh⟩ | ⟨hno, -⟩
      · exact .inl hf
      · exact .inr ⟨hslot, hh⟩
      · exact absurd hpar (hno i c hi)
  · by_cases hxit : Exits e
    · by_cases hcur : k.current = noProc
      · obtain ⟨t, het, -⟩ := hxit
        rw [hn.idle_trap het hcur]
        exact .inl ⟨q.parent, hq⟩
      · obtain ⟨t, code, p, -, -, hp, -, hways⟩ := exit_step hs ht ho.fits hxit hcur hn
        rcases hways with ⟨-, -, hstay⟩ | ⟨⟨q', hw⟩, hstay⟩
        · exact .inl (hstay w q hq hsl)
        · by_cases hwp : w = p.parent
          · subst hwp
            obtain rfl := Option.some.inj (hq.symm.trans hw.buries.waiter)
            exact .inr ⟨code, p, hw⟩
          · exact .inl (hstay w q hq hsl hwp)
    · exact .inl (hn.sleeper ht he hxit hq hsl)
  · obtain ⟨hcur, hev⟩ := hbook _ hr hr0 nofun
    obtain ⟨p, hp, -⟩ := ht.current hcur
    have hr' := hr
    rcases hev with hxit | ⟨t, io, hc⟩
    · obtain ⟨t, code, p, -, -, hp, -, hways⟩ := exit_step hs ht ho.fits hxit hcur hn
      rcases hways with ⟨-, hh, -⟩ | ⟨⟨q, hw⟩, -⟩
      · rw [hh, List.mem_append] at hr'
        simp [hr0] at hr'
      · rw [hw.history, List.mem_append] at hr'
        have hr'' := hr'.resolve_left hr0
        simp only [List.mem_cons, ProcEvent.reaped.injEq, reduceCtorEq, List.not_mem_nil,
          or_false, false_or] at hr''
        exact ⟨q, p, hr''.1.symm, hr''.2.symm, .inr ⟨code, _, hxit, hw⟩⟩
    · rcases wait4_call hs ht ho.fits hc hp hn with ⟨z, hf⟩ | ⟨-, -, -, hh⟩ | ⟨-, hh, -⟩
      · rw [hf.history, List.mem_append] at hr'
        obtain ⟨rfl, rfl⟩ := ProcEvent.reaped.inj (List.mem_singleton.mp (hr'.resolve_left hr0))
        exact ⟨p, z, rfl, rfl, .inl ⟨t, io, hc, hf⟩⟩
      · exact absurd (hh ▸ hr) hr0
      · rw [hh, List.mem_append] at hr'
        simp [hr0] at hr'

/-- An exit happens with one code. -/
theorem Obituaries.exit_code {k : Kernel} (ho : Obituaries k) {c : ℕ} {code code' : ℤ}
    (hx : .exited c code ∈ k.history) (hx' : .exited c code' ∈ k.history) : code' = code := by
  obtain ⟨pre, post, hs⟩ := List.append_of_mem hx'
  rw [hs, List.mem_append, List.mem_cons] at hx
  rcases hx with hx | hx | hx
  · exact absurd hx (ho.exits_once pre post c code' hs code)
  · exact (ProcEvent.exited.inj hx).2.symm
  · obtain ⟨mid, post', rfl⟩ := List.append_of_mem hx
    rw [← List.cons_append, ← List.append_assoc] at hs
    exact absurd (List.mem_append_right pre (List.mem_cons_self ..))
      (ho.exits_once _ post' c code hs code')

/-- Every process that exits is reaped at most once, after its exit, and is a zombie with
its code in the meantime. A step completes a wait4 only with a child that has exited and
has not been reaped, and gives the waiter its pid and its status. -/
theorem reaped_exactly_once {k0 k : Kernel} (hs : Started k0) (hr : Reaches k0 k) :
    (∀ pre post par c, k.history = pre ++ .reaped par c :: post →
      (∃ code, .exited c code ∈ pre) ∧ ∀ par', .reaped par' c ∉ pre) ∧
    (∀ c code, .exited c code ∈ k.history → (∀ code', .exited c code' ∈ k.history → code' = code) ∧
      ((∃ par, .reaped par c ∈ k.history) ∨ ∃ i, ZombieAt k i c code)) ∧
    ∀ e k', e.ordinary → Next e k k' → ReapStep k0 e k k' := by
  have ho := hr.obituaries hs
  have ht := hr.tree hs
  refine ⟨ho.reaps_once, fun c code hx => ⟨fun code' => ho.exit_code hx, ?_⟩,
    fun e k' he hn => hn.reapStep hs ht ho he⟩
  exact (ho.dead c code hx).2

/-- A fork leaves the pages of the parent where they are. -/
theorem fork_keeps_source {k k' : Kernel} {t : UserTrap} {io : Io} {p : Process} {role : ℕ → Role}
    (hm : Memory role k) (hc : Calls t io .clone) (hcur : k.current ≠ noProc)
    (hp : k.procs.slots k.current = some p) (hn : Next (.trap t) k k')
    (hforked : k'.history ≠ k.history) (va : ℕ) :
    translation k'.machine p.rootPa va = translation k.machine p.rootPa va := by
  obtain ⟨ret, k1, hrun, hend⟩ := hn.returned hc.call hcur fun _ => rfl
  obtain ⟨e1, -, -, e4, -⟩ := resumed_rest hend
  rcases forkCurrent_ok hrun hp with ⟨hh, -⟩ | ⟨slot, r, m1, m2, -, h1, h2, hmach, -⟩
  · exact absurd (e4.trans hh) hforked
  · have he : k'.machine = m2 := e1.trans hmach
    rw [he]
    exact clone_keeps_source (hm.good.account k.procs.nextPid) (hm.root _ p hp) h1 h2 va

/-- Init waits with the address of a page of its own, and its child exits with code 7: init
finds 7 in the second byte there. -/
theorem reaped_exactly_once_child : ∃ (k0 k k' : Kernel) (p : Process) (va : ℕ), Started k0 ∧
    Reaches k0 k ∧ Next (.trap (callTrap 93 7 0 0)) k k' ∧ k.procs.slots 0 = some p ∧
    p.state = .sleepChild ∧ p.waitStatusUva = va ∧ va ≠ 0 ∧
    k'.history = k.history ++ [.exited 2 7, .reaped 1 2] ∧ (k'.frames 0).a0 = 2 ∧
    Reads k'.machine p.rootPa va [0, 7, 0, 0] := by
  obtain ⟨k1, p, hf⟩ := exists_firstRun
  obtain ⟨va, hva⟩ := hf.mappedPage
  have hready := hva 4 (by decide)
  have hfits := hready.fits
  have hlow := hready.start
  obtain ⟨k2, k3, k4, r, n2, ⟨par, hin, hout⟩, n3, r3, m3, s3, n4, -, h4⟩ := hf.reaped va 7
  obtain ⟨k0, hs, hr⟩ := r3
  have hreach : Reaches k0 k3 := Runs.mono (fun _ _ h => h.1) hr
  have harg : (callTrap 260 0 va 0).arg 11 = va := by
    change va % 2 ^ 64 = va
    exact Nat.mod_eq_of_lt (lt_of_le_of_lt (Nat.le_add_right va 4) hfits)
  rw [harg] at s3
  have hcode : toI32 ((callTrap 93 7 0 0).arg 10) = 7 := by decide
  rw [hcode, hf.pid] at h4
  have hslot : k3.procs.slots 0 = some (asleep p va) := s3.slots 0
  -- the page is still mapped after the fork
  obtain ⟨role, hm⟩ := hf.reached.memory
  have hslot1 : k1.procs.slots k1.current = some p := by
    rw [hf.shows_.current]
    exact hf.slot
  have hcur1 : k1.current ≠ noProc := by
    rw [hf.shows_.current]
    exact (show 0 ≠ noProc by decide)
  have hready3 : CopyReady k3.machine (asleep p va).rootPa va 4 := by
    refine ⟨hready.fits, hready.start, hready.stop, fun a h1 h2 => ?_⟩
    have hkept := fork_keeps_source hm (callTrap_calls 220 0 0 0 rfl) hcur1 hslot1 n2
      (fun he => hout (he ▸ hin)) a
    rw [m3]
    exact hkept.symm ▸ hready.mapped a h1 h2
  -- the entry in the book comes from the exit of the child
  have hord : (Event.trap (callTrap 93 7 0 0)).ordinary := trivial
  have hstep := (reaped_exactly_once hs hreach).2.2 _ k4 hord n4
  have hnew : .reaped 1 2 ∉ k3.history := fun hin =>
    ((hreach.obituaries hs).gone _ _ hin).2 1 _ (s3.slots 1) rfl
  obtain ⟨q, z, hq, hz, ⟨t, io, hc, -⟩ | ⟨code, w, -, hw⟩⟩ := hstep.reaps 1 2
    (by rw [h4]; exact List.mem_append_right _ (by simp)) hnew
  · obtain rfl := Event.trap.inj hc.event
    exact absurd hc.nr (by decide)
  have hwaiter := hw.buries.waiter
  rw [s3.slots] at hwaiter
  obtain ⟨rfl, rfl⟩ : w = 0 ∧ q = asleep p va := by
    rcases w with _ | _ | w
    · exact ⟨rfl, (Option.some.inj hwaiter).symm⟩
    · obtain rfl := Option.some.inj hwaiter
      exact absurd hq (show 2 ≠ 1 by decide)
    · cases hwaiter
  obtain rfl : code = 7 := by
    have := List.append_cancel_left (hw.history.symm.trans h4)
    simp only [List.cons.injEq, ProcEvent.exited.injEq] at this
    exact this.1.2
  refine ⟨k0, k3, k4, asleep p va, va, hs, hreach, n4, hslot, rfl, rfl, ?_, h4,
    hw.buries.result.trans hz, ?_⟩
  · simp only [userVaStart] at hlow
    omega
  · have hbytes : leBytes 4 (wstatus 7).toNat = [0, 7, 0, 0] := by decide
    rw [← hbytes]
    refine hw.buries.status (hr.sparing hs) ?_ hready3
    simp only [userVaStart] at hlow
    change va ≠ 0
    omega

end LightOS
