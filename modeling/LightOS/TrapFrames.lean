import LightOS.Console
import LightOS.Reaping

/-!
# Trap frames of processes that are not running

The frames lie in one array beside the process table, and four code paths write them.
From the trap on to the next entry into user mode the frame of a process keeps its
registers: only a0 is written, with the result of the call, and only once.
-/
namespace LightOS
open Lib

/-- The frames differ in a0 and in sstatus at most. -/
structure TrapFrame.Kept (f g : TrapFrame) : Prop where
  regs : ∀ i, i ≠ 10 → g.regs i = f.regs i
  sepc : g.sepc = f.sepc
  kernelSp : g.kernelSp = f.kernelSp

namespace TrapFrame.Kept

variable {f g h : TrapFrame}

theorem refl (f : TrapFrame) : Kept f f := ⟨fun _ _ => rfl, rfl, rfl⟩

theorem trans (h1 : Kept f g) (h2 : Kept g h) : Kept f h :=
  ⟨fun i hi => (h2.regs i hi).trans (h1.regs i hi), h2.sepc.trans h1.sepc,
    h2.kernelSp.trans h1.kernelSp⟩

theorem setA0 (f : TrapFrame) (v : ℕ) : Kept f (f.setA0 v) := by
  refine ⟨fun i hi => ?_, rfl, rfl⟩
  simp [TrapFrame.setA0, TrapFrame.setReg, hi]

theorem sstatus (f : TrapFrame) (v : UInt64) : Kept f { f with sstatus := v } :=
  ⟨fun _ _ => rfl, rfl, rfl⟩

end TrapFrame.Kept

section Frames

open TrapFrame

variable {e : Event} {k0 k k' : Kernel} {s : ℕ} {p q : Process}

/-- Writing a frame that keeps the registers. -/
theorem withFrame_kept {i : ℕ} {f : TrapFrame} (hf : Kept (k.frames i) f) (s : ℕ) :
    Kept (k.frames s) ((k.withFrame i f).frames s) := by
  rw [Kernel.withFrame_frames]
  split_ifs with hi
  · exact hi ▸ hf
  · exact .refl _

/-- Every move keeps the frames of the processes there are, except that the trap saves
the registers of the current process and an execve starts it anew. -/
theorem Move.kept (he : e.ordinary) (hm : Move e k0 k k') (hp : k0.procs.slots s = some p)
    (hex : k0.current = s → ∀ t io, ¬ Call e t io .execve) :
    Kept (k.frames s) (k'.frames s) ∨ ∃ t, e = .trap t ∧ k0.current = s ∧ k' = trapState t k0 := by
  have hreap : ∀ {par child : ℕ} {c q : Process} {m1 m2 : Machine} {k k' : Kernel},
      Reap par child c q m1 m2 k k' → Kept (k.frames s) (k'.frames s) := by
    intro par child c q m1 m2 k k' hr
    rw [hr.state]
    exact withFrame_kept (k := k) (.setA0 _ _) s
  have hexit : ∀ {code : ℤ} {q : Process} {m1 : Machine} {k k' : Kernel},
      Exit code q m1 k k' → k'.frames s = k.frames s := by
    intro code q m1 k k' hx
    rw [hx.state]
    rfl
  cases hm with
  | quiet hq => exact .inl (hq.frames ▸ .refl _)
  | @trap t het hc =>
    by_cases hs : k0.current = s
    · exact .inr ⟨t, het, hs, rfl⟩
    · left
      change Kept _ ((Kernel.withFrame _ k0.current _).frames s)
      rw [Kernel.withFrame_frames, if_neg (Ne.symm hs)]
      exact .refl _
  | result ret _ _ => exact .inl (withFrame_kept (.setA0 _ _) s)
  | resume _ => exact .inl (withFrame_kept (.sstatus _ _) s)
  | @fork t io q slot r m1 m2 _ hslot _ _ _ _ =>
    left
    have hfree := Option.isNone_iff_eq_none.mp (position_some hslot).2
    have hs : s ≠ slot := by
      rintro rfl
      exact Option.some_ne_none p (hp.symm.trans hfree)
    change Kept _ ((Kernel.withFrame _ slot _).frames s)
    rw [Kernel.withFrame_frames, if_neg hs]
    exact .refl _
  | @exec t io q name image r entry brk m1 m2 m3 hc _ _ _ _ _ _ =>
    left
    have hs : s ≠ k0.current := fun hs => hex hs.symm t io hc
    change Kept _ ((Kernel.withFrame _ k0.current _).frames s)
    rw [Kernel.withFrame_frames, if_neg hs]
    exact .refl _
  | exit _ _ hx _ =>
    left
    rw [← hexit hx]
    exact .refl _
  | exitReap _ _ hx _ hr =>
    left
    rw [← hexit hx]
    have h := hreap hr
    exact h
  | waitReap _ _ _ hr =>
    left
    have h := hreap hr
    exact h
  | @waitNone t io q _ _ _ =>
    exact .inl (withFrame_kept (k := (trapState t k0).setSlot k0.current _) (.setA0 _ _) s)
  | @wake k q slot bytes rx r m' _ _ _ _ =>
    exact .inl (withFrame_kept (k := { k with machine := m', rx := rx }) (.setA0 _ _) s)
  | schedule _ _ _ =>
    refine .inl ?_
    change Kept _ (Kernel.frames (Kernel.withFrame _ _ _) s)
    exact withFrame_kept (.sstatus _ _) s
  | spawnFail he' _ _ _ => exact absurd he' he.ne_spawn
  | spawn he' _ _ _ _ _ => exact absurd he' he.ne_spawn
  | _ => exact .inl (.refl _)

/-- What the process `p`, which is not on the hart, may have met: it has been entered, its
wait4 has been completed and the pid is in a0, or it has been woken at the console. -/
inductive Met (s : ℕ) (p : Process) (k k' : Kernel) : ProcState → Prop
  | nothing (ha : (k'.frames s).a0 = (k.frames s).a0) : Met s p k k' p.state
  | entered (hst : p.state = .ready) (ha : (k'.frames s).a0 = (k.frames s).a0) :
      Met s p k k' .running
  | reaped {c : ℕ} {st : ProcState} (hst : p.state = .sleepChild)
      (hst' : st = .ready ∨ st = .running)
      (hc : ∃ l, k'.history = k.history ++ l ∧ .reaped p.pid c ∈ l)
      (ha : (k'.frames s).a0 = c % 2 ^ 64) : Met s p k k' st
  | woken {st : ProcState} (hst : p.state = .sleepConsole) (hst' : st = .ready ∨ st = .running) :
      Met s p k k' st

/-- From `k` to `k'` the process in slot `s` has stayed off the hart, but for a last entry. -/
structure Beside (s : ℕ) (k k' : Kernel) : Prop where
  history : ∃ l, k'.history = k.history ++ l
  kept : Kept (k.frames s) (k'.frames s)
  met : ∀ p, k.procs.slots s = some p → p.state ≠ .zombie → ∃ st par,
    k'.procs.slots s = some { p with state := st, parent := par } ∧ Met s p k k' st

theorem Met.not_zombie {st : ProcState} (h : Met s p k k' st) (hz : p.state ≠ .zombie) :
    st ≠ .zombie := by
  cases h with
  | nothing _ => exact hz
  | entered _ _ => nofun
  | reaped _ hst _ _ => rcases hst with rfl | rfl <;> nofun
  | woken _ hst => rcases hst with rfl | rfl <;> nofun

theorem Beside.refl (s : ℕ) (k : Kernel) : Beside s k k :=
  ⟨⟨[], by simp⟩, .refl _, fun p hp _ => ⟨p.state, p.parent, hp, .nothing rfl⟩⟩

theorem Beside.trans {k'' : Kernel} (h : Beside s k k') (h' : Beside s k' k'') : Beside s k k'' := by
  obtain ⟨l, hl⟩ := h.history
  obtain ⟨l', hl'⟩ := h'.history
  have hhist : k''.history = k.history ++ (l ++ l') := by rw [hl', hl, List.append_assoc]
  refine ⟨⟨l ++ l', hhist⟩, h.kept.trans h'.kept, fun p hp hz => ?_⟩
  obtain ⟨st, par, hp', hm⟩ := h.met p hp hz
  obtain ⟨st', par', hp'', hm'⟩ := h'.met _ hp' (hm.not_zombie hz)
  refine ⟨st', par', hp'', ?_⟩
  -- what the second part does depends on the state that the first one has left
  have hdone : ∀ {st}, (st = ProcState.ready ∨ st = .running) →
      Met s { p with state := st, parent := par } k' k'' st' →
      (k''.frames s).a0 = (k'.frames s).a0 ∧ (st' = .ready ∨ st' = .running) := by
    intro st hst hm'
    cases hm' with
    | nothing ha => exact ⟨ha, hst⟩
    | entered _ ha => exact ⟨ha, .inr rfl⟩
    | reaped hsl _ _ _ => rcases hst with rfl | rfl <;> cases hsl
    | woken hsl _ => rcases hst with rfl | rfl <;> cases hsl
  cases hm with
  | nothing ha =>
    cases hm' with
    | nothing ha' => exact .nothing (ha'.trans ha)
    | entered hst ha' => exact .entered hst (ha'.trans ha)
    | reaped hst hst' hc ha' =>
      obtain ⟨l2, hl2, hmem⟩ := hc
      refine .reaped hst hst' ⟨l ++ l2, ?_, List.mem_append_right _ hmem⟩ ha'
      rw [hl2, hl, List.append_assoc]
    | woken hst hst' => exact .woken hst hst'
  | entered hst ha =>
    cases hm' with
    | nothing ha' => exact .entered hst (ha'.trans ha)
    | entered _ ha' => exact .entered hst (ha'.trans ha)
    | reaped hsl _ _ _ => cases hsl
    | woken hsl _ => cases hsl
  | reaped hst hst' hc ha =>
    obtain ⟨ha', hst''⟩ := hdone hst' hm'
    obtain ⟨l2, hl2, hmem⟩ := hc
    refine .reaped hst hst'' ⟨l2 ++ l', ?_, List.mem_append_left _ hmem⟩ (ha'.trans ha)
    rw [hl', hl2, List.append_assoc]
  | woken hst hst' => exact .woken hst (hdone hst' hm').2

/-- A process that is not asleep keeps its a0. -/
theorem Beside.awake (hb : Beside s k k') (hp : k.procs.slots s = some p)
    (hst : p.state = .ready ∨ p.state = .running) : (k'.frames s).a0 = (k.frames s).a0 := by
  obtain ⟨st, par, -, hm⟩ := hb.met p hp (by rcases hst with h | h <;> simp [h])
  cases hm with
  | nothing ha => exact ha
  | entered _ ha => exact ha
  | reaped hsl _ _ _ => rcases hst with h | h <;> cases h.symm.trans hsl
  | woken hsl _ => rcases hst with h | h <;> cases h.symm.trans hsl

/-- Every move of a step that another process takes. -/
theorem Move.beside (ht : Tree k) (he : e.ordinary) (hm : Move e k0 k k')
    (hp : k0.procs.slots s = some p) (hs : k0.current ≠ s) : Beside s k k' := by
  have hkept := (hm.kept he hp fun h => absurd h hs).resolve_right fun ⟨_, _, h, _⟩ => hs h
  obtain ⟨l, hl, -⟩ := hm.history he
  refine ⟨⟨l, hl⟩, hkept, fun q hq hz => ?_⟩
  have hsame : k'.procs.slots s = some q → (k'.frames s).a0 = (k.frames s).a0 → ∃ st par,
      k'.procs.slots s = some { q with state := st, parent := par } ∧ Met s q k k' st :=
    fun h ha => ⟨q.state, q.parent, h, .nothing ha⟩
  have hset : ∀ (k : Kernel) {i : ℕ} {o : Option Process}, k.procs.slots s = some q → i ≠ s →
      (k.setSlot i o).procs.slots s = some q := by
    intro k i o h hi
    rw [Kernel.setSlot_slots, if_neg (Ne.symm hi)]
    exact h
  have hframe : ∀ (k : Kernel) {i : ℕ} {f : TrapFrame}, i ≠ s →
      ((k.withFrame i f).frames s).a0 = (k.frames s).a0 := by
    intro k i f hi
    rw [Kernel.withFrame_frames, if_neg (Ne.symm hi)]
  have hexit : ∀ {code : ℤ} {x : Process} {m1 : Machine} {t : UserTrap} {k1 : Kernel},
      Exit code x m1 (trapState t k0) k1 → k0.procs.slots s = some q →
      k1.procs.slots s = some (adopt k0.current (initSlot k0.procs) q) ∧
        (k1.frames s).a0 = ((trapState t k0).frames s).a0 := by
    intro code x m1 t k1 hx hq
    constructor
    · have h := Tree.exit_slots hx s
      rw [trapState_current, trapState_procs, if_neg (Ne.symm hs), hq, Option.map_some] at h
      exact h
    · rw [hx.state]
      rfl
  cases hm with
  | quiet hq' => exact hsame (by rw [hq'.procs, hq]) (by rw [hq'.frames])
  | trap _ _ => exact hsame hq (hframe { k0 with sstatus := _ } hs)
  | @result k t io no ret _ hcur => exact hsame hq (hframe k (hcur ▸ hs))
  | @resume k x _ =>
    refine hsame hq ?_
    rw [Kernel.withFrame_frames]
    split_ifs with hi
    · rw [hi]
      rfl
    · rfl
  | @own k x x' hcur _ _ => exact hsame (hset k hq (hcur ▸ hs)) rfl
  | @socket k x idx st hcur _ _ => exact hsame (hset _ hq (hcur ▸ hs)) rfl
  | close _ _ _ _ _ => exact hsame (hset _ hq hs) rfl
  | @fork t io x slot r m1 m2 _ hslot _ _ _ _ =>
    have hfree := Option.isNone_iff_eq_none.mp (position_some hslot).2
    have hne : slot ≠ s := by
      rintro rfl
      exact Option.some_ne_none p (hp.symm.trans hfree)
    refine hsame (hset _ hq hne) ?_
    exact hframe { trapState t k0 with machine := _, procs := _ } hne
  | @exec t io x name image r entry brk m1 m2 m3 _ _ _ _ _ _ _ =>
    refine hsame (hset { trapState t k0 with machine := m3 } hq hs) ?_
    exact hframe (({ trapState t k0 with machine := m3 }).setSlot k0.current _) hs
  | exit _ _ hx _ =>
    obtain ⟨h1, h2⟩ := hexit hx hq
    obtain ⟨par, hpar⟩ := adopt_only k0.current (initSlot k0.procs) q
    exact ⟨q.state, par, h1.trans (congrArg some hpar), .nothing h2⟩
  | @exitReap t x c y code m1 m2 m3 k1 k2 _ _ hx hw hr =>
    obtain ⟨h1, h2⟩ := hexit hx hq
    obtain ⟨par, hpar⟩ := adopt_only k0.current (initSlot k0.procs) q
    rw [hpar] at h1
    by_cases hsx : s = x.parent
    · subst hsx
      obtain ⟨-, y', hy', hsl⟩ := hw
      obtain rfl := Option.some.inj (hy'.symm.trans hr.par_slot)
      obtain rfl := Option.some.inj (h1.symm.trans hy')
      refine ⟨.ready, par, ?_, .reaped (c := c.pid) hsl (.inl rfl)
        ⟨[.exited x.pid code, .reaped q.pid c.pid], ?_, by simp⟩ ?_⟩
      · rw [hr.state]
        change ((Kernel.setSlot _ x.parent _).setSlot k0.current none).procs.slots x.parent = _
        rw [Kernel.setSlot_slots, if_neg (Ne.symm hs), Kernel.setSlot_slots, if_pos rfl]
      · rw [hr.state]
        change k1.history ++ _ = _
        rw [hx.state]
        exact List.append_assoc ..
      · rw [hr.state]
        change ((Kernel.withFrame _ x.parent _).frames x.parent).a0 = _
        rw [Kernel.withFrame_self, setA0_a0]
    · refine ⟨q.state, par, ?_, .nothing ?_⟩
      · rw [hr.state]
        change ((Kernel.setSlot _ x.parent _).setSlot k0.current none).procs.slots s = _
        rw [Kernel.setSlot_slots, if_neg (Ne.symm hs), Kernel.setSlot_slots, if_neg hsx]
        exact h1
      · rw [← h2, hr.state]
        exact hframe k1 (Ne.symm hsx)
  | @waitReap t io x c y child m1 m2 k1 _ hx hz' hr =>
    obtain ⟨c0, hc0, -, hzom⟩ := waitScan_zombie hz'
    have hne : child ≠ s := by
      rintro rfl
      obtain rfl := Option.some.inj (hc0.symm.trans hq)
      exact hz hzom
    have hst := hr.state
    refine hsame ?_ ?_
    · rw [hst]
      change ((Kernel.setSlot _ k0.current (some { y with state := .ready })).setSlot child
        none).procs.slots s = _
      rw [Kernel.setSlot_slots, if_neg hne.symm, Kernel.setSlot_slots, if_neg (Ne.symm hs)]
      exact hset (trapState t k0) hq hs
    · rw [hst]
      exact hframe ((trapState t k0).setSlot k0.current (some (asleep x (t.arg 11)))) hs
  | waitBlock _ _ _ => exact hsame (hset _ hq hs) rfl
  | @waitNone t io x _ _ _ =>
    exact hsame (hset _ hq hs) (hframe ((trapState t k0).setSlot k0.current _) hs)
  | @block k t io x _ hcur _ => exact hsame (hset k hq (hcur ▸ hs)) rfl
  | @yield k t _ _ hcur => exact hsame (hset k hq (hcur ▸ hs)) rfl
  | @wake k x slot bytes rx r m' hpos hx _ _ =>
    by_cases hi : slot = s
    · subst hi
      obtain rfl := Option.some.inj (hx.symm.trans hq)
      obtain ⟨y, hy, hsl⟩ := any_some (position_some hpos).2
      obtain rfl := Option.some.inj (hy.symm.trans hq)
      exact ⟨.ready, y.parent, Kernel.setSlot_self .., .woken (by simpa using hsl) (.inl rfl)⟩
    · exact hsame (hset _ hq hi) (hframe { k with machine := m', rx := rx } hi)
  | @schedule k x slot _ hpick hx =>
    by_cases hi : slot = s
    · subst hi
      obtain rfl := Option.some.inj (hx.symm.trans hq)
      obtain ⟨y, hy, hready⟩ := picked_some hpick
      obtain rfl := Option.some.inj (hy.symm.trans hq)
      refine ⟨.running, y.parent, Kernel.setSlot_self .., .entered hready ?_⟩
      change ((Kernel.withFrame _ slot _).frames slot).a0 = _
      rw [Kernel.withFrame_self]
      rfl
    · exact hsame (hset k hq hi) (hframe { k with procs := _, current := slot } hi)
  | spawnFail he' _ _ _ => exact absurd he' he.ne_spawn
  | spawn he' _ _ _ _ _ => exact absurd he' he.ne_spawn
  | _ => exact hsame hq rfl

theorem Next.beside (ht : Tree k) (he : e.ordinary) (hn : Next e k k')
    (hp : k.procs.slots s = some p) (hs : k.current ≠ s) : Beside s k k' :=
  (hn.keeps (I := fun x => Tree x ∧ Beside s k x) ⟨ht, .refl s k⟩
    fun _ _ h hm => ⟨h.1.move he hm, h.2.trans (hm.beside h.1 he hp hs)⟩).2

/-- A process stays off the hart for a while, and may be entered at the end. -/
theorem ReachesIf.beside (ht : Tree k) (hp : k.procs.slots s = some p) (hz : p.state ≠ .zombie)
    (hr : ReachesIf (fun _ x => x.current ≠ s) k k') : Beside s k k' := by
  refine (hr.invariant (I := fun x => Tree x ∧ Beside s k x) ⟨ht, .refl s k⟩ ?_).2
  rintro e x y ⟨he, hs⟩ hn ⟨ht, hb⟩
  obtain ⟨st, par, hx, -⟩ := hb.met p hp hz
  exact ⟨ht.step he hn, hb.trans (hn.beside ht he hx hs)⟩

/-! ### The wake-up of a read -/

theorem ofIsize_lt (z : ℤ) : ofIsize z < 2 ^ 64 := by
  unfold ofIsize
  omega

theorem wokenResult_lt (bytes : List UInt8) (r : Except String Unit) (h : bytes.length ≤ 128) :
    wokenResult bytes r < 2 ^ 64 := by
  cases r with
  | ok u => exact lt_of_le_of_lt h (by decide)
  | error err => exact ofIsize_lt _

/-- The step wakes `p`, the first process that sleeps at the console. It gives it bytes from
the ring, after the input of the step, and copies them to the memory that it meets; a0 says
how many they are, or that the copy has failed. -/
structure Wakes (s : ℕ) (e : Event) (k k' : Kernel) (p : Process) (bytes : List UInt8)
    (r : Except String Unit) : Prop where
  step : Next e k k'
  slot : k.procs.slots s = some p
  first : firstReader k = some s
  bytes_eq : ∃ rx, (k.rx.receiveAll (e.uartInput k)).1.readBytes (min p.readLen 128) = (bytes, rx)
  some_bytes : bytes ≠ []
  copy : ∃ m, copyOut p.rootPa p.readBufUva bytes k.machine = .ok (r, m)
  result : (k'.frames s).a0 = wokenResult bytes r

/-- Only a wake-up ends the read of a process that is not on the hart. -/
theorem Next.wakes (ht : Tree k) (he : e.ordinary) (hn : Next e k k')
    (hp : k.procs.slots s = some p) (hsl : p.state = .sleepConsole) (hs : k.current ≠ s)
    (hover : k'.reader s = none) : ∃ bytes r, Wakes s e k k' p bytes r := by
  have hwait : k.reader s = some (p.readBufUva, p.readLen) := by
    rw [Kernel.reader, hp, Option.bind_some, Process.reading, if_pos hsl]
  have hgone : ∀ {x : Kernel}, x.reader s = k.reader s → k'.reader s = x.reader s → False := by
    intro x hx hx'
    rw [hx', hx, hwait] at hover
    cases hover
  by_cases hcall : ∃ t io, ConsoleCall e k t io
  · obtain ⟨t, io, h⟩ := hcall
    obtain ⟨hsame, -⟩ | ⟨-, -, hjoin⟩ := h.after hn
    · exact (hgone (hsame s) rfl).elim
    · exact (hgone ((hjoin s).trans (if_neg (Ne.symm hs))) rfl).elim
  push Not at hcall
  by_cases huart : e.uartInput k = []
  · exact (hgone ((hn.calm ht he huart hcall).reader s) rfl).elim
  obtain ⟨k₀, k₁, hprocs, hmach, hrx, hrun, hsettle, hcalm⟩ := hn.uart huart
  have hreader₀ : k₀.reader s = k.reader s := by rw [Kernel.reader, Kernel.reader, hprocs]
  rcases handleInterrupt_ok hrun with ⟨-, rfl⟩ | ⟨-, slot, q, bytes, rx, hslot, hq, hb, hways⟩
  · exact (hgone hreader₀ (hcalm.reader s)).elim
  rcases hways with ⟨-, rfl⟩ | ⟨hne, r, m, hcopy, rfl⟩
  · exact (hgone hreader₀ (hcalm.reader s)).elim
  have hsame : slot = s := by
    by_contra hi
    refine hgone (x := woken k₀ slot q bytes rx r m) ?_ (hcalm.reader s)
    rw [← hreader₀, Kernel.reader, Kernel.reader, woken_slot, if_neg (Ne.symm hi)]
  subst hsame
  rw [hprocs, hp] at hq
  obtain rfl := Option.some.inj hq
  rw [hrx] at hb
  rw [hmach] at hcopy
  have hlen : bytes.length ≤ 128 := by
    rw [length_taken hb]
    exact (Nat.min_le_left _ _).trans (Nat.min_le_right _ _)
  refine ⟨bytes, r, hn, hp, ?_, ⟨rx, hb⟩, hne, ⟨m, hcopy⟩, ?_⟩
  · rw [← hslot, firstReader, firstReader, hprocs]
  · rw [hsettle.a0, woken_a0, Nat.mod_eq_of_lt (wokenResult_lt bytes r hlen)]

/-- A run in which the slot `s` is not on the hart before any step. -/
abbrev Off (s : ℕ) (k k' : Kernel) : Prop := ReachesIf (fun _ x => x.current ≠ s) k k'

theorem ReachesIf.off {k'' : Kernel} (h : Off s k k') (he : e.ordinary) (hn : Next e k' k'')
    (hs : k'.current ≠ s) : Off s k k'' := Runs.snoc h ⟨he, hs⟩ hn

/-- The read of `p` has been completed by a step of the run, and nobody has written to its
frame since. -/
structure Woken (s : ℕ) (p : Process) (k k' : Kernel) (bytes : List UInt8)
    (r : Except String Unit) : Prop where
  wake : ∃ e ka kb par, Off s k ka ∧ e.ordinary ∧ ka.current ≠ s ∧
    Wakes s e ka kb { p with parent := par } bytes r ∧ Off s kb k'
  result : (k'.frames s).a0 = wokenResult bytes r

/-- While a process that reads is off the hart, it sleeps and its frame is left alone, or a
step of the run has completed its read. -/
theorem ReachesIf.wakes (ht : Tree k) (hp : k.procs.slots s = some p)
    (hsl : p.state = .sleepConsole) (hr : Off s k k') :
    (∃ par, k'.procs.slots s = some { p with parent := par }) ∧
        (k'.frames s).a0 = (k.frames s).a0 ∨
      (∃ q, k'.procs.slots s = some q ∧ (q.state = .ready ∨ q.state = .running)) ∧
        ∃ bytes r, Woken s p k k' bytes r := by
  refine (hr.invariant (I := fun x => Tree x ∧ Off s k x ∧
    ((∃ par, x.procs.slots s = some { p with parent := par }) ∧
        (x.frames s).a0 = (k.frames s).a0 ∨
      (∃ q, x.procs.slots s = some q ∧ (q.state = .ready ∨ q.state = .running)) ∧
        ∃ bytes r, Woken s p k x bytes r)) ⟨ht, .refl k, .inl ⟨⟨p.parent, hp⟩, rfl⟩⟩ ?_).2.2
  rintro e x y ⟨he, hs⟩ hn ⟨ht, hkx, hx⟩
  refine ⟨ht.step he hn, hkx.off he hn hs, ?_⟩
  rcases hx with ⟨⟨par, hslot⟩, ha⟩ | ⟨⟨q, hq, hst⟩, bytes, r, hw⟩
  · obtain ⟨st, par', hslot', hm⟩ := (hn.beside ht he hslot hs).met _ hslot (by simp [hsl])
    cases hm with
    | nothing ha' => exact .inl ⟨⟨par', hslot'⟩, ha'.trans ha⟩
    | entered hst _ => cases hsl.symm.trans hst
    | reaped hst _ _ _ => cases hsl.symm.trans hst
    | woken _ hst =>
      have hover : y.reader s = none := Kernel.reader_none hslot' (by rcases hst with h | h <;> simp [h])
      obtain ⟨bytes, r, hw⟩ := hn.wakes ht he hslot hsl hs hover
      exact .inr ⟨⟨_, hslot', hst⟩, bytes, r, ⟨e, x, y, par, hkx, he, hs, hw, .refl y⟩, hw.result⟩
  · have hb := hn.beside ht he hq hs
    have hawake : q.state ≠ .zombie := by rcases hst with h | h <;> simp [h]
    obtain ⟨st, par', hslot', hm⟩ := hb.met q hq hawake
    have hst' : st = .ready ∨ st = .running := by
      cases hm with
      | nothing _ => exact hst
      | entered _ _ => exact .inr rfl
      | reaped _ hst' _ _ => exact hst'
      | woken _ hst' => exact hst'
    obtain ⟨ea, ka, kb, par, h1, hea, hsa, hwa, h2⟩ := hw.wake
    exact .inr ⟨⟨_, hslot', hst'⟩, bytes, r, ⟨ea, ka, kb, par, h1, hea, hsa, hwa, h2.off he hn hs⟩,
      (hb.awake hq hst).trans hw.result⟩

/-- A trap saves the registers and then takes its moves. -/
theorem Next.trap_moves {t : UserTrap} (hn : Next (.trap t) k k') (hcur : k.current ≠ noProc) :
    Moves (.trap t) k (trapState t k) k' := by
  unfold Next LightOS.step at hn
  rw [Prog.get_bind_ok] at hn
  dsimp only at hn
  rw [if_neg hcur] at hn
  obtain ⟨_, k1, h1, h2⟩ := Prog.bind_ok.mp hn
  unfold userVec at h1
  rw [Prog.get_bind_ok] at h1
  obtain ⟨_, k2, h3, h4⟩ := Prog.bind_ok.mp h1
  obtain rfl := Prog.set_ok.mp h3
  obtain rfl := setFrame_ok.mp h4
  exact usertrap_moves rfl h2

/-- What the moves after the saving of the registers keep, the trap keeps. -/
theorem Next.trap_keeps {I : Kernel → Prop} {t : UserTrap} (hn : Next (.trap t) k k')
    (hcur : k.current ≠ noProc) (h : I (trapState t k))
    (hmove : ∀ a b, I a → Move (.trap t) k a b → I b) : I k' := by
  have hm := hn.trap_moves hcur
  clear hn
  induction hm with
  | refl => exact h
  | tail _ hlast ih => exact hmove _ _ ih hlast

/-- The trap of a process, and whatever it leads to except an execve, keep the registers. -/
theorem Next.trap_kept {t : UserTrap} (hn : Next (.trap t) k k') (hcur : k.current ≠ noProc)
    (hp : k.procs.slots k.current = some p) (hex : ∀ io, ¬ Call (.trap t) t io .execve) :
    Kept ((trapState t k).frames k.current) (k'.frames k.current) := by
  refine hn.trap_keeps (I := fun x => Kept ((trapState t k).frames k.current) (x.frames k.current))
    hcur (.refl _) fun a b hI hm => ?_
  have hno : k.current = k.current → ∀ t' io, ¬ Call (.trap t) t' io .execve := by
    intro _ t' io hc
    obtain rfl := Event.trap.inj hc.event
    exact hex io hc
  have hord : (Event.trap t).ordinary := trivial
  rcases hm.kept hord hp hno with h | ⟨t', het, -, rfl⟩
  · exact hI.trans h
  · obtain rfl := Event.trap.inj het
    exact .refl _

/-- The moves of an interrupt leave the interrupted process ready or on the hart, with its a0. -/
theorem Move.interrupted {t : UserTrap} {i : Interrupt} (hm : Move (.trap t) k0 k k')
    (hi : t.cause = .interrupt i) (hq : k.procs.slots k0.current = some q)
    (hst : q.state = .ready ∨ q.state = .running)
    (ha : (k.frames k0.current).a0 = ((trapState t k0).frames k0.current).a0) :
    (∃ q, k'.procs.slots k0.current = some q ∧ (q.state = .ready ∨ q.state = .running)) ∧
      (k'.frames k0.current).a0 = ((trapState t k0).frames k0.current).a0 := by
  have hno : ∀ {t' io no}, ¬ Call (.trap t) t' io no := by
    intro t' io no hc
    obtain rfl := Event.trap.inj hc.event
    exact nomatch hi.symm.trans hc.cause
  have hdies : ∀ {t' : UserTrap} {code : ℤ}, Event.trap t = .trap t' →
      ¬ ((∃ io, Call (.trap t) t' io .exit ∧ code = toI32 (t'.arg 10)) ∨
        ∃ sc, t'.cause = .fault sc ∧ code = -1) := by
    rintro t' code het (⟨io, hc, -⟩ | ⟨sc, hc, -⟩)
    · exact hno hc
    · obtain rfl := Event.trap.inj het
      exact nomatch hi.symm.trans hc
  have hself : ∀ (k : Kernel) (q' : Process), k.procs.slots k0.current = some q →
      q'.state = q.state → ∃ x, (k.setSlot k0.current (some q')).procs.slots k0.current = some x ∧
        (x.state = .ready ∨ x.state = .running) :=
    fun k q' _ he => ⟨q', Kernel.setSlot_self .., he ▸ hst⟩
  cases hm with
  | quiet hq' => exact ⟨⟨q, by rw [hq'.procs, hq], hst⟩, by rw [hq'.frames, ha]⟩
  | @trap t' het _ =>
    obtain rfl := Event.trap.inj het
    exact ⟨⟨q, hq, hst⟩, rfl⟩
  | result _ hc _ => exact absurd hc hno
  | resume _ =>
    refine ⟨⟨q, hq, hst⟩, Eq.trans ?_ ha⟩
    rw [Kernel.withFrame_frames]
    split_ifs with hj
    · rw [hj]
      rfl
    · rfl
  | @own k x x' hcur hx hof =>
    rw [hcur] at hx ⊢
    obtain rfl := Option.some.inj (hx.symm.trans hq)
    exact ⟨hself k x' hq (Tree.own_eq hof).2.2, ha⟩
  | @socket k x idx st hcur hx _ =>
    rw [hcur] at hx ⊢
    obtain rfl := Option.some.inj (hx.symm.trans hq)
    exact ⟨hself { k with net := { k.net with sockets := st } } _ hq rfl, ha⟩
  | close hc _ _ _ _ => exact absurd hc hno
  | fork hc _ _ _ _ _ => exact absurd hc hno
  | exec hc _ _ _ _ _ _ => exact absurd hc hno
  | exit het hcode _ _ => exact absurd hcode (hdies het)
  | exitReap het hcode _ _ _ => exact absurd hcode (hdies het)
  | waitReap hc _ _ _ => exact absurd hc hno
  | waitBlock hc _ _ => exact absurd hc hno
  | waitNone hc _ _ => exact absurd hc hno
  | block hc _ _ => exact absurd hc hno
  | @yield k t' _ _ hcur =>
    rw [hcur, hq, Option.map_some]
    refine ⟨⟨_, Kernel.setSlot_self .., ?_⟩, ha⟩
    split_ifs
    · exact .inl rfl
    · exact hst
  | @wake k x slot bytes rx r m' hpos hx _ _ =>
    obtain ⟨y, hy, hsl⟩ := any_some (position_some hpos).2
    have hne : k0.current ≠ slot := by
      rintro rfl
      obtain rfl := Option.some.inj (hy.symm.trans hq)
      rcases hst with h | h <;> simp [h] at hsl
    refine ⟨⟨q, ?_, hst⟩, Eq.trans ?_ ha⟩
    · change (Kernel.setSlot _ slot _).procs.slots k0.current = _
      rw [Kernel.setSlot_slots, if_neg hne]
      exact hq
    · change ((Kernel.withFrame _ slot _).frames k0.current).a0 = _
      rw [Kernel.withFrame_frames, if_neg hne]
  | @schedule k x slot _ hpick hx =>
    refine ⟨?_, Eq.trans ?_ ha⟩
    · change ∃ y, (k.setSlot slot (some { x with state := .running })).procs.slots k0.current = some y ∧ _
      rw [Kernel.setSlot_slots]
      split_ifs
      · exact ⟨_, rfl, .inr rfl⟩
      · exact ⟨q, hq, hst⟩
    · change ((Kernel.withFrame _ slot _).frames k0.current).a0 = _
      rw [Kernel.withFrame_frames]
      split_ifs with hj
      · rw [hj]
        rfl
      · rfl
  | store _ _ _ => exact ⟨⟨q, hq, hst⟩, ha⟩
  | memory _ _ _ => exact ⟨⟨q, hq, hst⟩, ha⟩
  | heapGrow he _ => cases he
  | spawnFail he _ _ _ => cases he
  | spawn he _ _ _ _ _ => cases he

theorem Next.interrupted {t : UserTrap} {i : Interrupt} (ht : Tree k) (hn : Next (.trap t) k k')
    (hi : t.cause = .interrupt i) (hp : k.procs.slots k.current = some p) :
    (∃ q, k'.procs.slots k.current = some q ∧ (q.state = .ready ∨ q.state = .running)) ∧
      (k'.frames k.current).a0 = ((trapState t k).frames k.current).a0 := by
  obtain ⟨p', hp', hrun⟩ := ht.current (ht.current_ne hp)
  obtain rfl := Option.some.inj (hp.symm.trans hp')
  exact hn.trap_keeps (I := fun x => (∃ q, x.procs.slots k.current = some q ∧
      (q.state = .ready ∨ q.state = .running)) ∧
      (x.frames k.current).a0 = ((trapState t k).frames k.current).a0)
    (ht.current_ne hp) ⟨⟨p, hp, .inr hrun⟩, rfl⟩ fun a b ⟨⟨q, hq, hst⟩, ha⟩ hm =>
      hm.interrupted hi hq hst ha

/-! ### System calls -/

variable {io : Io} {t : UserTrap} {no : Sysno}

/-- Only exit, wait4 and read give up the hart. -/
theorem syscall_none {tf : TrapFrame} (h : syscall io tf no k = .ok (none, k')) :
    no = .exit ∨ no = .wait4 ∨ no = .read := by
  have hsome : ∀ {x : KernelM ℤ}, (some <$> x) k ≠ .ok (none, k') := by
    intro x hx
    obtain ⟨a, k1, -, he⟩ := Prog.map_ok.mp hx
    cases he
  cases no with
  | exit => exact .inl rfl
  | wait4 => exact .inr (.inl rfl)
  | read => exact .inr (.inr rfl)
  | unknown =>
    have he := Prog.pure_ok.mp h
    cases he
  | _ => exact absurd h hsome

/-- A read that gives up the hart leaves its caller asleep at the console. -/
theorem sysRead_parks {tf : TrapFrame} (h : sysRead io tf k = .ok (none, k')) :
    ∃ p rx, k.procs.slots k.current = some p ∧
      Scheduled ({ k with rx := rx }.setSlot k.current (some { p with
        state := .sleepConsole, readBufUva := tf.a1, readLen := tf.a2 })).idle k' := by
  have hfd : toIsize tf.a0 = 0 := by
    by_contra hne
    unfold sysRead at h
    dsimp only at h
    split_ifs at h with h1
    · obtain ⟨a, k1, -, h5⟩ := Prog.bind_ok.mp h
      cases Prog.pure_ok.mp h5
    · cases Prog.pure_ok.mp h
  rcases sysRead_console hfd h with ⟨-, hres, -⟩ | ⟨-, p, bytes, rx, hp, -, ⟨-, -, hs⟩ | hrest⟩
  · cases hres
  · exact ⟨p, rx, hp, hs⟩
  · obtain ⟨-, out, m, -, -, ret, hres, -⟩ := hrest
    cases hres

/-- A call gives its caller the result in a0, or it has given up the hart. -/
theorem Next.answered (ht : Tree k) (hc : Call (.trap t) t io no) (hn : Next (.trap t) k k')
    (hp : k.procs.slots k.current = some p) :
    (∃ ret kr, syscall io ((trapState t k).frames k.current) no (trapState t k) = .ok (some ret, kr) ∧
      (k'.frames k.current).a0 = ofIsize ret ∧ k'.current = k.current) ∨
    syscall io ((trapState t k).frames k.current) no (trapState t k) = .ok (none, k') := by
  obtain ⟨-, r, k1, hcall, hend⟩ := step_call hc (ht.current_ne hp) hn
  cases r with
  | none =>
    obtain rfl : k' = k1 := hend
    exact .inr hcall
  | some ret =>
    have hcur := (syscall_moves hc (fun _ => ⟨p, hp⟩) hcall).2 rfl
    obtain ⟨-, rfl⟩ := resumeCurrent_ok hend
    refine .inl ⟨ret, k1, hcall, ?_, hcur⟩
    change ((Kernel.withFrame _ k1.current _).frames k.current).a0 = _
    rw [hcur, Kernel.withFrame_self]
    change TrapFrame.a0 (((k1.withFrame k.current _)).frames k1.current) = _
    rw [hcur, Kernel.withFrame_self, setA0_a0, Nat.mod_eq_of_lt (ofIsize_lt ret)]

/-- A wait4 that blocks does not write to the frame. -/
theorem Next.wait_calm (hn : Next (.trap t) k k') (hc : Call (.trap t) t io .wait4)
    (hh : k'.history = k.history) (hcur : k.current ≠ noProc) :
    (k'.frames k.current).a0 = ((trapState t k).frames k.current).a0 := by
  obtain ⟨p', -, ⟨child, z, q, m1, m2, k1, -, hr, hsch⟩ | ⟨-, hsch⟩ | ⟨-, hsch⟩⟩ :=
    waitCurrent_ok (hn.waits hc hcur)
  · have h := hsch.rest.2.1.symm.trans hh
    rw [show k1.idle.history = k1.history from rfl, hr.state] at h
    exact absurd (List.append_right_eq_self.mp h) (by simp)
  · exact hsch.rest.2.2.1 k.current
  · have h := hsch.rest.2.1.symm.trans hh
    exact absurd (List.append_right_eq_self.mp h) (by simp)

/-- What a call of `p` has come to in `k2`, after its trap led to `k1`. -/
inductive Result (k0 : Kernel) (t : UserTrap) (io : Io) (no : Sysno) (p : Process)
    (k k1 k2 : Kernel) : Prop
  /-- The dispatcher has written the result. -/
  | returned {ret : ℤ} {kr : Kernel}
      (hrun : syscall io ((trapState t k).frames k.current) no (trapState t k) = .ok (some ret, kr))
      (ha : (k2.frames k.current).a0 = ofIsize ret)
  /-- A wait4 has found a zombie. -/
  | found {z : Process} (hno : no = .wait4) (hz : FindsZombie k0 t p z k k1)
      (ha : (k2.frames k.current).a0 = z.pid)
  | childless (hno : no = .wait4) (hz : ∀ i c, k.procs.slots i = some c → c.parent ≠ k.current)
      (ha : (k2.frames k.current).a0 = ofIsize (-10))
  /-- It sleeps, and nobody has written to its frame. -/
  | waits {par : ℕ} (hno : no = .wait4)
      (hk2 : k2.procs.slots k.current = some { asleep p (t.arg 11) with parent := par })
      (ha : (k2.frames k.current).a0 = t.arg 10)
  | waited {c : ℕ} {l : List ProcEvent} (hno : no = .wait4) (hl : k2.history = k1.history ++ l)
      (hc : .reaped p.pid c ∈ l) (ha : (k2.frames k.current).a0 = c)
  | reads {par : ℕ} (hno : no = .read) (hk2 : k2.procs.slots k.current = some { p with
        state := .sleepConsole, readBufUva := t.arg 11, readLen := t.arg 12, parent := par })
      (ha : (k2.frames k.current).a0 = t.arg 10)
  /-- Console input has completed a read, in a step of another process or of the idle hart. -/
  | read {bytes : List UInt8} {r : Except String Unit} (hno : no = .read)
      (hw : Woken k.current { p with
        state := .sleepConsole, readBufUva := t.arg 11, readLen := t.arg 12 } k1 k2 bytes r)

/-- A process outlives every call but exit. -/
theorem Next.survives (hs : Started k0) (hr : Reaches k0 k) (hp : k.procs.slots k.current = some p)
    (hc : Call (.trap t) t io no) (hexit : no ≠ .exit) (hn : Next (.trap t) k k') :
    ∃ q, k'.procs.slots k.current = some q ∧ q.state ≠ .zombie := by
  have ht := hr.tree hs
  have hord : (Event.trap t).ordinary := trivial
  have awake : ∀ {q : Process}, q.state = .ready ∨ q.state = .running → q.state ≠ .zombie := by
    rintro q (h | h) <;> simp [h]
  rcases hn.answered ht hc hp with ⟨ret, kr, -, -, hcur⟩ | hpark
  · obtain ⟨q, hq, hrun⟩ := (ht.step hord hn).current (by rw [hcur]; exact ht.current_ne hp)
    rw [hcur] at hq
    exact ⟨q, hq, awake (.inr hrun)⟩
  rcases syscall_none hpark with h | rfl | rfl
  · exact absurd h hexit
  · rcases wait4_call hs ht (hr.obituaries hs).fits hc hp hn with
      ⟨z, hz⟩ | ⟨-, -, hslot, -⟩ | ⟨-, -, -, q, hq, -, hst⟩
    · obtain ⟨i, hb⟩ := hz.buries
      obtain ⟨q, hq, -, hst⟩ := hb.awake
      exact ⟨q, hq, awake hst⟩
    · exact ⟨_, hslot, by simp [asleep]⟩
    · exact ⟨q, hq, awake hst⟩
  · obtain ⟨p', rx, -, hsch⟩ := sysRead_parks hpark
    obtain ⟨-, -, -, hslots⟩ := hsch.rest
    rcases hslots k.current with he | ⟨q, -, -, he⟩
    · exact ⟨_, he.trans (Kernel.setSlot_self ..), fun h => by cases h⟩
    · exact ⟨_, he, fun h => by cases h⟩

/-- The result of a call goes to its caller, and nobody else writes to its a0. -/
theorem Next.result (hs : Started k0) (hr : Reaches k0 k) (hp : k.procs.slots k.current = some p)
    (hc : Call (.trap t) t io no) (hexit : no ≠ .exit) (hn : Next (.trap t) k k')
    {k2 : Kernel} (hrun : ReachesIf (fun _ x => x.current ≠ k.current) k' k2) :
    Result k0 t io no p k k' k2 := by
  have ht := hr.tree hs
  have hord : (Event.trap t).ordinary := trivial
  have ht' := ht.step hord hn
  have hr2 : Reaches k0 k2 :=
    Runs.trans (Runs.snoc hr hord hn) (Runs.mono (fun _ _ h => h.1) hrun)
  -- a process that is not asleep keeps its a0
  have awake : ∀ {q}, k'.procs.slots k.current = some q → (q.state = .ready ∨ q.state = .running) →
      (k2.frames k.current).a0 = (k'.frames k.current).a0 := by
    intro q hq hst
    exact (hrun.beside ht' hq (by rcases hst with h | h <;> simp [h])).awake hq hst
  rcases hn.answered ht hc hp with ⟨ret, kr, hcall, ha, hcur⟩ | hpark
  · obtain ⟨q, hq, hrunq⟩ := ht'.current (by rw [hcur]; exact ht.current_ne hp)
    rw [hcur] at hq
    exact .returned hcall ((awake hq (.inr hrunq)).trans ha)
  have ha0 : ((trapState t k).frames k.current).a0 = t.arg 10 := (trapState_args hc.cause).1
  have hfits := (hr.obituaries hs).fits
  rcases syscall_none hpark with h | rfl | rfl
  · exact absurd h hexit
  · rcases wait4_call hs ht hfits hc hp hn with ⟨z, hz⟩ | ⟨-, -, hslot, hh⟩ | ⟨hnone, -, ha, q, hq, -, hst⟩
    · obtain ⟨i, hb⟩ := hz.buries
      obtain ⟨q, hq, -, hst⟩ := hb.awake
      exact .found rfl hz ((awake hq hst).trans hb.result)
    · have hcalm := hn.wait_calm hc hh (ht.current_ne hp)
      have hz : (asleep p (t.arg 11)).state ≠ .zombie := nofun
      have hb := hrun.beside ht' hslot hz
      obtain ⟨st, par, hslot2, hm⟩ := hb.met _ hslot hz
      cases hm with
      | nothing ha => exact .waits rfl hslot2 (ha.trans (hcalm.trans ha0))
      | entered hst _ => cases hst
      | reaped _ _ hl ha =>
        obtain ⟨l, hl, hmem⟩ := hl
        have ho := hr2.obituaries hs
        have hlt := (ho.gone _ _ (hl ▸ List.mem_append_right _ hmem)).1
        rw [Nat.mod_eq_of_lt (hlt.trans ho.fits)] at ha
        exact .waited rfl hl hmem ha
      | woken hst _ => cases hst
    · exact .childless rfl hnone ((awake hq hst).trans ha)
  · obtain ⟨p', rx, hp', hsch⟩ := sysRead_parks hpark
    obtain rfl := Option.some.inj (hp.symm.trans hp')
    obtain ⟨-, -, hfr, hslots⟩ := hsch.rest
    have ha1 := (trapState_args (k := k) hc.cause).2
    have ha2 : ((trapState t k).frames k.current).a2 = t.arg 12 := by
      rw [TrapFrame.a2, trapState_frame, trapFrame_reg hc.cause _ (by decide)]
    rw [ha1, ha2] at hslots
    have hself : ∀ o, (({ trapState t k with rx := rx }.setSlot k.current o).idle).procs.slots
        k.current = o := fun o => Kernel.setSlot_self ..
    have hslot : k'.procs.slots k.current = some { p with
        state := .sleepConsole, readBufUva := t.arg 11, readLen := t.arg 12 } := by
      rcases hslots k.current with he | ⟨q, hq, hready, -⟩
      · exact he.trans (hself _)
      · obtain rfl := Option.some.inj ((hself _).symm.trans hq)
        cases hready
    rcases hrun.wakes ht' hslot rfl with ⟨⟨par, hslot2⟩, ha⟩ | ⟨-, bytes, r, hw⟩
    · exact .reads rfl hslot2 (ha.trans ((hfr k.current).trans ha0))
    · exact .read rfl hw

/-- A failed execve keeps the registers as well. -/
theorem Next.execve_kept (hn : Next (.trap t) k k') (hcur : k.current ≠ noProc)
    (hp : k.procs.slots k.current = some p) (hc : Call (.trap t) t io .execve)
    (hfail : ∀ ret kr, sysExecve io ((trapState t k).frames k.current) (trapState t k) =
      .ok (ret, kr) → ret < 0) :
    Kept ((trapState t k).frames k.current) (k'.frames k.current) := by
  obtain ⟨ret, k1, hrun, hend⟩ := hn.returned hc hcur fun _ => rfl
  rcases sysExecve_ends (k := trapState t k) hrun hp with ⟨-, m, rfl⟩ | ⟨rfl, -⟩
  · obtain ⟨-, rfl⟩ := resumeCurrent_ok hend
    have h1 : Kept ((trapState t k).frames k.current) (((trapState t k).withFrame k.current
        (((trapState t k).frames k.current).setA0 (ofIsize ret))).frames k.current) :=
      withFrame_kept (.setA0 _ _) _
    exact h1.trans (withFrame_kept (k := { trapState t k with machine := m }.withFrame k.current
      (((trapState t k).frames k.current).setA0 (ofIsize ret))) (.sstatus _ _) _)
  · exact absurd (hfail 0 _ hrun) (lt_irrefl 0)

/-! ### The kernel stack of a frame -/

theorem trapFrame_kernelSp (t : UserTrap) (f : TrapFrame) : (trapFrame t f).kernelSp = f.kernelSp := by
  unfold trapFrame
  split <;> rfl

/-- Every frame of a process names the one kernel stack. -/
def KernelStacks (k : Kernel) : Prop :=
  ∀ i p, k.procs.slots i = some p → (k.frames i).kernelSp = k.kernelStackTop

theorem KernelStacks.congr (h : KernelStacks k)
    (hp : ∀ i p, k'.procs.slots i = some p → ∃ q, k.procs.slots i = some q)
    (hf : ∀ i, (k'.frames i).kernelSp = (k.frames i).kernelSp)
    (ht : k'.kernelStackTop = k.kernelStackTop) : KernelStacks k' := by
  intro i p hp'
  obtain ⟨q, hq⟩ := hp i p hp'
  rw [hf, ht]
  exact h i q hq

theorem KernelStacks.setSlot (h : KernelStacks k) {i : ℕ} {o : Option Process}
    (ho : o ≠ none → ∃ q, k.procs.slots i = some q)
    (hs : k'.procs.slots = (k.setSlot i o).procs.slots)
    (hf : ∀ j, Kept (k.frames j) (k'.frames j)) (ht : k'.kernelStackTop = k.kernelStackTop) :
    KernelStacks k' := by
  refine h.congr (fun j p hp => ?_) (fun j => (hf j).kernelSp) ht
  rw [hs, Kernel.setSlot_slots] at hp
  split_ifs at hp with hj
  · obtain ⟨q, hq⟩ := ho (by rw [hp]; nofun)
    exact ⟨q, hj ▸ hq⟩
  · exact ⟨p, hp⟩

theorem KernelStacks.exit (h : KernelStacks k) {code : ℤ} {m1 : Machine} (hx : Exit code p m1 k k') :
    KernelStacks k' := by
  refine h.congr (fun j q hq => ?_) (fun j => ?_) ?_
  · rw [Tree.exit_slots hx] at hq
    split_ifs at hq with hj
    · exact ⟨p, hj ▸ hx.proc⟩
    · obtain ⟨q0, hq0, -⟩ := Option.map_eq_some_iff.mp hq
      exact ⟨q0, hq0⟩
  · rw [hx.state]
    rfl
  · rw [hx.state]
    rfl

theorem KernelStacks.reap (h : KernelStacks k) {par child : ℕ} {c q : Process} {m1 m2 : Machine}
    (hr : Reap par child c q m1 m2 k k') : KernelStacks k' := by
  have hst := hr.state
  have h1 : KernelStacks ({ k with machine := m2 }.setSlot par (some { q with state := .ready })) :=
    h.setSlot (fun _ => ⟨q, hr.par_slot⟩) rfl (fun _ => .refl _) rfl
  have h2 : KernelStacks (({ k with machine := m2 }.setSlot par
      (some { q with state := .ready })).withFrame par ((k.frames par).setA0 c.pid)) :=
    h1.congr (fun j p hp => ⟨p, hp⟩) (fun j => (withFrame_kept (k := { k with machine := m2 }.setSlot par
      (some { q with state := .ready })) (.setA0 (k.frames par) c.pid) j).kernelSp) rfl
  rw [hst]
  exact h2.setSlot (i := child) (o := none) (fun hne => absurd rfl hne) rfl (fun _ => .refl _) rfl

theorem KernelStacks.move (h : KernelStacks k) (he : e.ordinary) (hm : Move e k0 k k') :
    KernelStacks k' := by
  cases hm with
  | quiet hq =>
    exact h.congr (fun j p hp => ⟨p, by rw [← hq.procs]; exact hp⟩) (fun j => by rw [hq.frames])
      hq.kernelStackTop
  | @trap t _ _ =>
    intro i p hp
    change ((Kernel.withFrame _ k0.current _).frames i).kernelSp = _
    rw [Kernel.withFrame_frames]
    split_ifs with hi
    · rw [← hi]
      exact (trapFrame_kernelSp t _).trans (h i p hp)
    · exact h i p hp
  | result ret _ _ =>
    exact h.congr (fun j p hp => ⟨p, hp⟩) (fun j => (withFrame_kept (.setA0 _ _) j).kernelSp) rfl
  | resume _ =>
    exact h.congr (fun j p hp => ⟨p, hp⟩) (fun j => (withFrame_kept (.sstatus _ _) j).kernelSp) rfl
  | own _ hq _ => exact h.setSlot (fun _ => ⟨_, hq⟩) rfl (fun _ => .refl _) rfl
  | socket _ hq _ => exact h.setSlot (fun _ => ⟨_, hq⟩) rfl (fun _ => .refl _) rfl
  | close _ _ _ hq _ => exact h.setSlot (fun _ => ⟨_, hq⟩) rfl (fun _ => .refl _) rfl
  | @fork t io p slot r m1 m2 _ _ _ _ _ _ =>
    intro i x hx
    change ((Kernel.setSlot _ slot _).procs.slots i) = some x at hx
    change ((Kernel.withFrame _ slot _).frames i).kernelSp = k0.kernelStackTop
    rw [Kernel.withFrame_frames]
    rw [Kernel.setSlot_slots] at hx
    split_ifs at hx ⊢ with hi
    · rfl
    · exact h i x hx
  | @exec t io p name image q entry brk m1 m2 m3 _ hp _ _ _ _ _ =>
    intro i x hx
    change ((Kernel.withFrame _ k0.current _).frames i).kernelSp = k0.kernelStackTop
    rw [Kernel.withFrame_frames]
    split_ifs with hi
    · rfl
    · change ((Kernel.setSlot _ k0.current _).procs.slots i) = some x at hx
      rw [Kernel.setSlot_slots, if_neg hi] at hx
      exact h i x hx
  | exit _ _ hx _ => exact (h.exit hx).congr (fun j p hp => ⟨p, hp⟩) (fun _ => rfl) rfl
  | exitReap _ _ hx _ hr =>
    exact ((h.exit hx).reap hr).congr (fun j p hp => ⟨p, hp⟩) (fun _ => rfl) rfl
  | @waitReap t io q c r child m1 m2 k1 _ hq _ hr =>
    have h1 : KernelStacks ((trapState t k0).setSlot k0.current (some (asleep q (t.arg 11)))) :=
      h.setSlot (fun _ => ⟨_, hq⟩) rfl (fun _ => .refl _) rfl
    exact (h1.reap hr).congr (fun j p hp => ⟨p, hp⟩) (fun _ => rfl) rfl
  | waitBlock _ hq _ => exact h.setSlot (fun _ => ⟨_, hq⟩) rfl (fun _ => .refl _) rfl
  | @waitNone t io p _ hq _ =>
    refine h.setSlot (fun _ => ⟨_, hq⟩) rfl (fun j => ?_) rfl
    exact withFrame_kept (k := (trapState t k0).setSlot k0.current _) (.setA0 _ _) j
  | block _ _ hq => exact h.setSlot (fun _ => ⟨_, hq⟩) rfl (fun _ => .refl _) rfl
  | yield _ _ _ =>
    refine h.setSlot (fun hne => ?_) rfl (fun _ => .refl _) rfl
    cases hq : k.procs.slots k.current with
    | none =>
      rw [hq] at hne
      exact absurd rfl hne
    | some q => exact ⟨q, rfl⟩
  | @wake k q slot bytes rx r m' _ hq _ _ =>
    refine h.setSlot (fun _ => ⟨_, hq⟩) rfl (fun j => ?_) rfl
    exact withFrame_kept (k := { k with machine := m', rx := rx }) (.setA0 _ _) j
  | @schedule k q slot _ _ hq =>
    refine h.setSlot (fun _ => ⟨_, hq⟩) rfl (fun j => ?_) rfl
    change Kept _ (Kernel.frames (Kernel.withFrame _ _ _) j)
    exact withFrame_kept (.sstatus _ _) j
  | spawnFail he' _ _ _ => exact absurd he' he.ne_spawn
  | spawn he' _ _ _ _ _ => exact absurd he' he.ne_spawn
  | _ => exact h.congr (fun j p hp => ⟨p, hp⟩) (fun _ => rfl) rfl

theorem Reaches.kernelStacks (hs : Started k0) (hr : Reaches k0 k) : KernelStacks k := by
  refine hr.invariant (I := KernelStacks) ?_ fun e x y he hn h =>
    hn.keeps h fun _ _ hI hm => hI.move he hm
  obtain ⟨kb, image, q, entry, brk, m, -, -, rfl⟩ := hs.spawned
  obtain ⟨p, -, -, -, -, hslots⟩ := hs.slots
  intro i x hx
  rw [hslots] at hx
  split_ifs at hx with hi
  rw [hi]
  rfl

/-! ### From the trap to the next entry -/

/-- A new child: it starts with the registers of its parent, and a0 is zero. -/
theorem Next.child_frame (hs : Started k0) (hr : Reaches k0 k)
    (hp : k.procs.slots k.current = some p) (hc : Call (.trap t) t io .clone)
    (hn : Next (.trap t) k k') {c : ℕ} {child : Process} (hfree : k.procs.slots c = none)
    (hchild : k'.procs.slots c = some child) :
    child.state = .ready ∧ (k'.frames c).a0 = 0 ∧
      Kept ((trapState t k).frames k.current) (k'.frames c) := by
  have ht := hr.tree hs
  obtain ⟨ret, k1, hrun, hend⟩ := hn.returned hc (ht.current_ne hp) fun _ => rfl
  obtain ⟨-, rfl⟩ := resumeCurrent_ok hend
  have hfork : forkCurrent ((trapState t k).frames k.current) (trapState t k) = .ok (ret, k1) := hrun
  rcases forkCurrent_ok (k := trapState t k) hfork hp with
    ⟨-, hsame⟩ | ⟨slot, r, m1, m2, hslot, -, -, -, -, hprocs, -, hframes⟩
  · have h1 : k1.procs.slots c = some child := hchild
    rw [hsame, trapState_procs, hfree] at h1
    cases h1
  have hne : c ≠ k.current := by
    rintro rfl
    exact Option.some_ne_none p (hp.symm.trans hfree)
  have h1 : (Kernel.setSlot _ slot (some (forkChild (trapState t k) p r))).procs.slots c =
      some child := (congrArg (fun t => t.slots c) hprocs).symm.trans hchild
  rw [Kernel.setSlot_slots] at h1
  split_ifs at h1 with hcs
  · obtain rfl := Option.some.inj h1
    have hstack : ((trapState t k).frames k.current).kernelSp = k.kernelStackTop := by
      rw [trapState_frame, trapFrame_kernelSp]
      exact hr.kernelStacks hs _ _ hp
    obtain ⟨f, hf⟩ : ∃ f, f = { ((trapState t k).frames k.current).setA0 0 with
        kernelSp := k.kernelStackTop } := ⟨_, rfl⟩
    have hframe : (k1.withFrame k.current ((k1.frames k.current).setA0 (ofIsize ret))).frames c = f := by
      rw [Kernel.withFrame_frames, if_neg hne, hframes, if_pos hcs, hf]
      rfl
    have hkept : Kept ((trapState t k).frames k.current) f := by
      rw [hf]
      exact ⟨(Kept.setA0 ((trapState t k).frames k.current) 0).regs, rfl, hstack.symm⟩
    have ha : f.a0 = 0 := by
      rw [hf]
      exact setA0_a0 ((trapState t k).frames k.current) 0
    refine ⟨rfl, ?_, hkept.trans (hframe ▸ withFrame_kept (.sstatus _ _) c)⟩
    rw [← ha, ← hframe, Kernel.withFrame_frames]
    split_ifs with hi
    · rw [← hi]
      rfl
    · rfl
  · exact absurd (h1.symm.trans hfree) (Option.some_ne_none child)

/-- From the trap of a process to its next entry into user mode its frame keeps the registers.
After an interrupt nothing has changed; after a call a0 holds its result, or the process still
waits for it; and a child of clone starts like its parent, with zero in a0. -/
theorem frame_kept (hs : Started k0) (hr : Reaches k0 k) (hp : k.procs.slots k.current = some p)
    (hn : Next (.trap t) k k') {k2 : Kernel}
    (hrun : ReachesIf (fun _ x => x.current ≠ k.current) k' k2) :
    (∀ i, t.cause = .interrupt i → (∀ r, r ≠ 0 → (k2.frames k.current).regs r = t.regs r) ∧
      (k2.frames k.current).sepc = t.sepc) ∧
    (∀ io no, Call (.trap t) t io no → no ≠ .exit →
      (no = .execve → ∀ ret kr, sysExecve io ((trapState t k).frames k.current) (trapState t k) =
        .ok (ret, kr) → ret < 0) →
      (∀ r, r ≠ 0 → r ≠ 10 → (k2.frames k.current).regs r = t.regs r) ∧
      (k2.frames k.current).sepc = UInt64.ofNat (t.sepc.toNat + 4) ∧ Result k0 t io no p k k' k2) ∧
    ∀ io, Call (.trap t) t io .clone → ∀ c child, k.procs.slots c = none →
      k'.procs.slots c = some child → ∀ k3, ReachesIf (fun _ x => x.current ≠ c) k' k3 →
      (k3.frames c).a0 = 0 ∧ Kept ((trapState t k).frames k.current) (k3.frames c) := by
  have ht := hr.tree hs
  have hcur := ht.current_ne hp
  have hord : (Event.trap t).ordinary := trivial
  have ht' := ht.step hord hn
  refine ⟨fun i hi => ?_, fun io no hc hexit hexec => ?_, fun io hc c child hfree hchild k3 h3 => ?_⟩
  · have hno : ∀ io, ¬ Call (.trap t) t io .execve := fun io hc => by
      have h := hi.symm.trans hc.cause
      cases h
    obtain ⟨⟨q, hq, hst⟩, ha⟩ := hn.interrupted ht hi hp
    have hb := hrun.beside ht' hq (by rcases hst with h | h <;> simp [h])
    have hkept := (hn.trap_kept hcur hp hno).trans hb.kept
    have hsaved : (trapState t k).frames k.current = saveFrame (k.frames k.current) t := by
      rw [trapState_frame, trapFrame, hi]
    have ha0 := (hb.awake hq hst).trans ha
    refine ⟨fun r hr0 => ?_, hkept.sepc.trans (by rw [hsaved]; rfl)⟩
    have hreg : ((trapState t k).frames k.current).regs r = t.regs r := by
      rw [hsaved, saveFrame]
      exact if_neg hr0
    by_cases h10 : r = 10
    · subst h10
      exact (UInt64.toNat_inj.mp ha0).trans hreg
    · exact (hkept.regs r h10).trans hreg
  · have hres := hn.result hs hr hp hc hexit hrun
    have hfirst : Kept ((trapState t k).frames k.current) (k'.frames k.current) := by
      by_cases he : no = .execve
      · subst he
        exact hn.execve_kept hcur hp hc (hexec rfl)
      · refine hn.trap_kept hcur hp fun io' hc' => he ?_
        rw [← hc.nr, hc'.nr]
    obtain ⟨q, hq, hz⟩ := hn.survives hs hr hp hc hexit
    have hkept := hfirst.trans (hrun.beside ht' hq hz).kept
    have hsaved : (trapState t k).frames k.current =
        { saveFrame (k.frames k.current) t with sepc := UInt64.ofNat (t.sepc.toNat + 4) } := by
      rw [trapState_frame, trapFrame, hc.cause]
    refine ⟨fun r hr0 h10 => ?_, hkept.sepc.trans (by rw [hsaved]), hres⟩
    rw [hkept.regs r h10, hsaved]
    exact if_neg hr0
  · obtain ⟨hready, ha, hkept⟩ := hn.child_frame hs hr hp hc hfree hchild
    have hb := h3.beside ht' hchild (by simp [hready])
    exact ⟨(hb.awake hchild (.inl hready)).trans ha, hkept.trans hb.kept⟩

/-- Init forks and reads the console; its child runs for the first time and exits, and a byte
comes in that wakes init. -/
theorem frame_kept_read : ∃ (k0 k1 k2 k3 k5 : Kernel) (p : Process), Started k0 ∧ Reaches k0 k1 ∧
    Next (.trap (callTrap 220 0 0 0)) k1 k2 ∧ Next (.trap (callTrap 63 0 0x7fffe000 1)) k2 k3 ∧
    k3.current = 1 ∧ (k3.frames 1).a0 = 0 ∧ Off 0 k3 k5 ∧ k5.current = 0 ∧
    (∀ r, r ≠ 0 → r ≠ 10 → (k5.frames 0).regs r = (callTrap 63 0 0x7fffe000 1).regs r) ∧
    ∃ bytes r, Woken 0 (listening p 0x7fffe000 1) k3 k5 bytes r := by
  obtain ⟨k1, p, hf⟩ := exists_firstRun
  have hfork := callTrap_calls 220 0 0 0 rfl
  have hread := callTrap_calls 63 0 0x7fffe000 1 rfl
  have hord (t : UserTrap) : (Event.trap t).ordinary := trivial
  obtain ⟨k2, root, n2, r2, -, s2, -, a2⟩ := hf.shows_.fork hf.reached hfork rfl
    (show 1 < 8 by decide) hf.room
  replace s2 : Shows k2 ⟨0, 0, [p, kid p 2 0 root .ready]⟩ := s2
  have rx2 : k2.rx = RxRing.empty := a2.rx.trans hf.rx
  obtain ⟨k3, n3, r3, s3, -, a3⟩ := s2.read r2 hread rfl rfl (show (1 : ℕ) ≠ 0 by decide)
    (by rw [rx2]; rfl)
  replace s3 : Shows k3 ⟨1, 1, [listening p 0x7fffe000 1, kid p 2 0 root .running]⟩ :=
    s3.enters 0 1 [.sleepConsole, .ready] rfl rfl (by decide)
  -- the child exits, and the hart is idle
  obtain ⟨k4, n4, r4, s4, a4⟩ := s3.exit r3 (callTrap_calls 93 0 0 0 rfl) rfl
    (show 2 ≠ 1 by decide) rfl hf.pid rfl (show ProcState.sleepConsole ≠ .sleepChild by decide)
    (show 0 ≠ 1 by decide)
  have e4 : Shape.exit ⟨1, 1, [listening p 0x7fffe000 1, kid p 2 0 root .running]⟩
      (toI32 ((callTrap 93 0 0 0).arg 10)) =
      ⟨1, 1, [listening p 0x7fffe000 1, kid p 2 0 root .zombie]⟩ := by
    have hparent : p.parent ≠ 1 := by
      rw [hf.parent]
      decide
    simp [Shape.exit, adopt, listening, kid, freshProcess, hparent, callTrap, UserTrap.arg, toI32]
  rw [e4] at s4
  replace s4 : Shows k4 ⟨noProc, 1, [listening p 0x7fffe000 1, kid p 2 0 root .zombie]⟩ :=
    s4.idles 1 [.sleepConsole, .zombie] rfl rfl (by decide)
  -- a byte wakes init, which is entered
  have hfirst : firstReader k4 = some 0 := by
    refine List.find?_range_eq_some.mpr ⟨?_, by decide, fun j hj => absurd hj (by omega)⟩
    rw [s4.slots]
    rfl
  have hgot : k4.rx.accepted [65] ≠ [] := by
    rw [a4.rx, a3.rx, rx2]
    decide
  obtain ⟨k5, -, -, n5, r5, s5, -⟩ := s4.input r4 s4.current hfirst rfl
    (show (1 : ℕ) ≠ 0 by decide) hgot
  replace s5 := s5.enters 1 0 [.ready, .zombie] rfl rfl (by decide)
  obtain ⟨k0, hs, hr⟩ := hf.reached
  have hreach : Reaches k0 k1 := Runs.mono (fun _ _ h => h.1) hr
  have hreach2 : Reaches k0 k2 := hreach.snoc (hord _) n2
  have c1 : k1.current = 0 := hf.shows_.current
  have c2 : k2.current = 0 := s2.current
  have c3 : k3.current = 1 := s3.current
  have c4 : k4.current = noProc := s4.current
  -- the fork, up to the first entry of the child
  have hfree : k1.procs.slots 1 = none := by
    rw [hf.shows_.slots]
    rfl
  have hoff1 : Off 1 k2 k3 := ReachesIf.off (.refl k2) (hord _) n3 (by rw [c2]; decide)
  have hp1 : k1.procs.slots k1.current = some p := c1 ▸ hf.slot
  have hchild := (frame_kept hs hreach hp1 n2 (.refl k2)).2.2 noIo
    hfork.call 1 _ hfree (s2.slots 1) k3 hoff1
  -- the read, up to the next entry of init
  have hoff0 : Off 0 k3 k5 := by
    have h4 : Off 0 k3 k4 := ReachesIf.off (.refl k3) (hord _) n4 (by rw [c3]; decide)
    have hinput : (Event.idle (some (.external irqUart0 [65]))).ordinary := trivial
    exact h4.off hinput n5 (by rw [c4]; decide)
  have hp2 : k2.procs.slots k2.current = some p := c2 ▸ s2.slots 0
  obtain ⟨hregs, -, hres⟩ := (frame_kept hs hreach2 hp2 n3 (c2 ▸ hoff0)).2.1 noIo .read hread.call
    (fun h => by cases h) fun h => by cases h
  rw [c2] at hregs
  refine ⟨k0, k1, k2, k3, k5, p, hs, hreach, n2, n3, c3, hchild.1, hoff0, s5.current, hregs, ?_⟩
  cases hres with
  | returned hrun _ =>
    -- the dispatcher has not returned: the hart has gone to the child
    rcases n3.answered (hreach2.tree hs) hread.call hp2 with ⟨-, -, -, -, hcur⟩ | hpark
    · exact absurd (c3.symm.trans (hcur.trans c2)) (by decide)
    · cases (Prod.mk.inj (Except.ok.inj (hrun.symm.trans hpark))).1
  | found hno _ _ => cases hno
  | childless hno _ _ => cases hno
  | waits hno _ _ => cases hno
  | waited hno _ _ _ => cases hno
  | reads _ hslot _ =>
    rw [c2, s5.slots] at hslot
    have hstate := congrArg (Option.map Process.state) hslot
    cases hstate
  | read _ hw =>
    rw [c2] at hw
    exact ⟨_, _, hw⟩

end Frames

end LightOS
