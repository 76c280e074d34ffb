import LightOS.Obituaries
import LightOS.Rollback
import LightOS.Sparing

/-!
# What a process owes

The ledger of the allocator says on whose behalf each frame was handed out. As long as
a process lives, every frame on its account is its root or a table or page of its user
window; as a zombie it owes its root and nothing else; the reap returns that too.
-/
namespace LightOS
open Lib PageAllocator

/-- The root of an address space, or a table or page of its user window. -/
def InSpace (role : ℕ → Role) (r q : ℕ) : Prop := q = r ∨ Under role r userRootSlot q

/-- Every frame on the account of `a` since the ledger stood at `log0` is in the set. -/
def Owes (a : ℕ) (log0 log : List (Loan ℕ ℕ)) (S : ℕ → Prop) : Prop :=
  ∃ log1, log = log0 ++ log1 ∧ ∀ f, Loan.holder f log1 = some a → S (frameToAddr f)

namespace Owes

variable {a w : ℕ} {log0 log : List (Loan ℕ ℕ)} {S S' : ℕ → Prop}

theorem mono (h : Owes a log0 log S) (hs : ∀ q, S q → S' q) : Owes a log0 log S' := by
  obtain ⟨log1, hlog, hS⟩ := h
  exact ⟨log1, hlog, fun f hf => hs _ (hS f hf)⟩

theorem start (a : ℕ) (log0 : List (Loan ℕ ℕ)) (S : ℕ → Prop) : Owes a log0 log0 S :=
  ⟨[], by simp, by simp⟩

theorem allocs (h : Owes a log0 log S) (fs : List ℕ) (hfs : w = a → ∀ f ∈ fs, S (frameToAddr f)) :
    Owes a log0 (log ++ fs.map (.alloc · w)) S := by
  obtain ⟨log1, rfl, hS⟩ := h
  refine ⟨log1 ++ fs.map (.alloc · w), by rw [List.append_assoc], fun f hf => ?_⟩
  rw [Loan.holder_allocs] at hf
  split_ifs at hf with hmem
  · exact hfs (Option.some.inj hf) f hmem
  · exact hS f hf

/-- What has been returned is off the account. -/
theorem frees (h : Owes a log0 log S) (ps : List ℕ) :
    Owes a log0 (log ++ ps.map fun p => .free (frameOf p)) fun q => S q ∧ q ∉ ps := by
  obtain ⟨log1, rfl, hS⟩ := h
  have hmap : (ps.map fun p => (.free (frameOf p) : Loan ℕ ℕ)) = (ps.map frameOf).map .free := by
    rw [List.map_map]
    rfl
  refine ⟨log1 ++ ps.map fun p => .free (frameOf p), by rw [List.append_assoc], fun f hf => ?_⟩
  rw [hmap, Loan.holder_frees] at hf
  split_ifs at hf with hmem
  refine ⟨hS f hf, fun hp => hmem ?_⟩
  exact List.mem_map.mpr ⟨_, hp, frameOf_frameToAddr f⟩

end Owes

/-! ### What the operations on the forest leave on an account -/

section Effects

variable {role role' role'' : ℕ → Role} {m m' m'' : Machine} {a r : ℕ} {log0 : List (Loan ℕ ℕ)}
  {P : Places} {S S' : ℕ → Prop} {R : ℕ → Prop}

/-- A frame that was handed out and is not loose has a new place in the forest. -/
theorem NoLoose.placed {q : ℕ} (h : NoLoose m role' m') (ht : Tables role m) (hfree : ¬ m.Held q)
    (hheld : m'.Held q) : role q = .other ∧ role' q ≠ .other := by
  refine ⟨?_, (h q hheld).resolve_left hfree⟩
  by_contra hc
  exact hfree (ht.held q hc)

/-- Frames go on the account that stands in the machine. -/
theorem Owes.grant (ho : Owes a log0 m.log S)
    (hlog : ∃ fs : List ℕ, m'.log = m.log ++ fs.map (.alloc · m.account) ∧
      m.pages.freeFrames = m'.pages.freeFrames + fs.length ∧
      ∀ f ∈ fs, ¬ m.Held (frameToAddr f) ∧ m'.Held (frameToAddr f)) (hS : ∀ q, S q → S' q)
    (hown : m.account = a → ∀ q, ¬ m.Held q → m'.Held q → S' q) : Owes a log0 m'.log S' := by
  obtain ⟨fs, hlog, -, hfs⟩ := hlog
  rw [hlog]
  exact (ho.mono hS).allocs fs fun ha f hf => hown ha _ (hfs f hf).1 (hfs f hf).2

theorem Shrinks.owes (h : Shrinks P role m role' m') (ho : Owes a log0 m.log S) :
    Owes a log0 m'.log fun q => S q ∧ role' q = role q := by
  obtain ⟨ps, hlog, -, hps⟩ := h.log
  rw [hlog]
  refine (ho.frees ps).mono fun q hq => ⟨hq.1, ?_⟩
  by_contra hc
  exact hq.2 ((hps q).mpr hc)

theorem Freed.owes (h : Freed m r m') (ho : Owes a log0 m.log S) :
    Owes a log0 m'.log fun q => S q ∧ q ≠ r := by
  rw [h.log]
  exact (ho.frees [r]).mono fun q hq => ⟨hq.1, fun he => hq.2 (he ▸ List.mem_singleton_self _)⟩

theorem InSpace.mono {q : ℕ} (h : InSpace role r q) (hk : ∀ p, role p ≠ .other → role' p = role p) :
    InSpace role' r q := h.imp_right fun hu => hu.mono hk

/-- An operation that puts nothing on the account of `a` and leaves the spaces of the
roots in the set whole. -/
structure Aloof (a : ℕ) (R : ℕ → Prop) (role : ℕ → Role) (m : Machine) (role' : ℕ → Role)
    (m' : Machine) : Prop where
  owes : ∀ log0 S, Owes a log0 m.log S → Owes a log0 m'.log S
  space : ∀ r, R r → ∀ log0, Owes a log0 m.log (InSpace role r) →
    Owes a log0 m'.log (InSpace role' r)

namespace Aloof

theorem same (hl : m'.log = m.log) : Aloof a R role m role m' :=
  ⟨fun _ _ h => hl ▸ h, fun _ _ _ h => hl ▸ h⟩

theorem trans (h : Aloof a R role m role' m') (h' : Aloof a R role' m' role'' m'') :
    Aloof a R role m role'' m'' :=
  ⟨fun log0 S ho => h'.owes log0 S (h.owes log0 S ho),
    fun r hr log0 ho => h'.space r hr log0 (h.space r hr log0 ho)⟩

theorem grows (h : Grows P role m role' m') (hne : m.account ≠ a) : Aloof a R role m role' m' :=
  ⟨fun _ _ ho => ho.grant h.log (fun _ hq => hq) fun he => absurd he hne,
    fun _ _ _ ho => ho.grant h.log (fun _ hq => hq.mono h.keep) fun he => absurd he hne⟩

theorem adds {q : ℕ} (h : Adds q P role m role' m') (hne : m.account ≠ a) :
    Aloof a R role m role' m' :=
  ⟨fun _ _ ho => ho.grant h.log (fun _ hq => hq) fun he => absurd he hne,
    fun _ _ _ ho => ho.grant h.log (fun _ hq => hq.mono h.keep) fun he => absurd he hne⟩

theorem shrinks (h : Shrinks P role m role' m') : Aloof a R role m role' m' :=
  ⟨fun _ _ ho => (h.owes ho).mono fun _ hq => hq.1,
    fun _ _ _ ho => (h.owes ho).mono fun _ hq => hq.1.imp_right fun hu => h.under hu hq.2⟩

open Classical in
/-- Below another root nothing changes when a root is returned. -/
theorem under_released {r' k q : ℕ} (ht : Tables role m) (hr : role r = .root) (hne : r' ≠ r)
    (hu : Under role r' k q) : Under (Drop.newRole role (TreeOf role r)) r' k q := by
  have hout : ∀ q, Under role r' k q → Drop.newRole role (TreeOf role r) q = role q := by
    intro q hu
    refine if_neg ?_
    rintro (rfl | ⟨k', hu'⟩)
    · exact hu.not_root (.inl hr)
    · exact hne (hu.unique ht hu').1
  induction hu with
  | top hq => exact .top ((hout _ (.top hq)).trans hq)
  | step hq hu ih => exact .step ((hout _ (.step hq hu)).trans hq) ih

open Classical in
theorem released (h : Released r role m m') (ht : Tables role m) (hr : role r = .root) :
    Aloof a (· ≠ r) role m (Drop.newRole role (TreeOf role r)) m' :=
  ⟨fun _ _ ho => (h.freed.owes ho).mono fun _ hq => hq.1, fun _ hne _ ho =>
    (h.freed.owes ho).mono fun _ hq => hq.1.imp_right fun hu => under_released ht hr hne hu⟩

end Aloof

end Effects

/-! ### The books of one process -/

/-- The account of pid `a`, opened when the ledger stood at `log0` and the history at
`h0`, while that process lives, as a zombie, and after its reap. -/
structure Books (a : ℕ) (log0 : List (Loan ℕ ℕ)) (h0 : List ProcEvent) (role : ℕ → Role)
    (k : Kernel) : Prop where
  memory : Memory role k
  pos : 0 < a
  known : a < k.procs.nextPid
  live : ∀ i p, k.procs.slots i = some p → p.pid = a →
    Owes a log0 k.machine.log (InSpace role p.rootPa)
  zombie : ∀ i p, k.procs.slots i = some p → p.pid = a → p.state = .zombie →
    Owes a log0 k.machine.log (· = p.rootPa)
  reaped : ∃ l, k.history = h0 ++ l ∧
    ∀ par, .reaped par a ∈ l → Owes a log0 k.machine.log fun _ => False

/-- Whoever has pid `a` had it before, with the same root, and was not undead. -/
def SamePeople (a : ℕ) (k k' : Kernel) : Prop :=
  ∀ i p', k'.procs.slots i = some p' → p'.pid = a → ∃ p, k.procs.slots i = some p ∧ p.pid = a ∧
    p'.rootPa = p.rootPa ∧ (p'.state = .zombie → p.state = .zombie)

section Books

variable {a : ℕ} {log0 : List (Loan ℕ ℕ)} {h0 : List ProcEvent} {role role' : ℕ → Role}
  {k0 k k' : Kernel} {p p' : Process} {m' : Machine} {e : Event}

theorem SamePeople.of_slots (h : k'.procs.slots = k.procs.slots) : SamePeople a k k' := by
  intro i p hp hid
  exact ⟨p, h ▸ hp, hid, rfl, fun hz => hz⟩

theorem SamePeople.setSlot {i : ℕ} (hp : k.procs.slots i = some p)
    (hslots : k'.procs.slots = (k.setSlot i (some p')).procs.slots) (hpid : p'.pid = p.pid)
    (hroot : p'.rootPa = p.rootPa) (hz : p'.state = .zombie → p.state = .zombie) :
    SamePeople a k k' := by
  intro j q hq hid
  rw [hslots, Kernel.setSlot_slots] at hq
  split_ifs at hq with hj
  · subst hj
    obtain rfl := Option.some.inj hq
    exact ⟨p, hp, hpid ▸ hid, hroot, hz⟩
  · exact ⟨q, hq, hid, rfl, fun hz => hz⟩

namespace Books

/-- An operation that is aloof to the process. -/
theorem update (h : Books a log0 h0 role k) {R : ℕ → Prop} (hm : Memory role' k')
    (hal : Aloof a R role k.machine role' k'.machine)
    (hR : ∀ i p, k.procs.slots i = some p → p.pid = a → R p.rootPa) (hs : SamePeople a k k')
    (hn : k.procs.nextPid ≤ k'.procs.nextPid)
    (hh : ∃ l, k'.history = k.history ++ l ∧ ∀ par, .reaped par a ∉ l) :
    Books a log0 h0 role' k' := by
  refine ⟨hm, h.pos, h.known.trans_le hn, fun i p' hp' hid => ?_, fun i p' hp' hid hz => ?_, ?_⟩
  · obtain ⟨p, hp, hid, hroot, -⟩ := hs i p' hp' hid
    rw [hroot]
    exact hal.space _ (hR i p hp hid) _ (h.live i p hp hid)
  · obtain ⟨p, hp, hid, hroot, hst⟩ := hs i p' hp' hid
    rw [hroot]
    exact hal.owes _ _ (h.zombie i p hp hid (hst hz))
  · obtain ⟨l, hl, hreap⟩ := h.reaped
    obtain ⟨l', hl', hno⟩ := hh
    refine ⟨l ++ l', by rw [hl', hl, List.append_assoc], fun par hmem => ?_⟩
    rcases List.mem_append.mp hmem with hmem | hmem
    · exact hal.owes _ _ (hreap par hmem)
    · exact absurd hmem (hno par)

/-- Nothing happens to the memory. -/
theorem quiet (h : Books a log0 h0 role k) (hm : Memory role k')
    (hmach : k'.machine.log = k.machine.log) (hs : SamePeople a k k')
    (hn : k.procs.nextPid ≤ k'.procs.nextPid)
    (hh : ∃ l, k'.history = k.history ++ l ∧ ∀ par, .reaped par a ∉ l) :
    Books a log0 h0 role k' :=
  h.update (R := fun _ => True) hm (.same hmach) (fun _ _ _ _ => trivial) hs hn hh

theorem same (h : Books a log0 h0 role k) (hm : k'.machine = k.machine)
    (hr : k'.regions = k.regions) (hp : k'.procs = k.procs) (hh : k'.history = k.history) :
    Books a log0 h0 role k' :=
  h.quiet (h.memory.congr hm hr (by rw [hp])) (by rw [hm]) (.of_slots (by rw [hp])) (by rw [hp])
    ⟨[], by simp [hh], by simp⟩

/-- One process changes, but not who it is. -/
theorem setSlot (h : Books a log0 h0 role k) {i : ℕ} (hp : k.procs.slots i = some p)
    (hslots : k'.procs.slots = (k.setSlot i (some p')).procs.slots) (hpid : p'.pid = p.pid)
    (hroot : p'.rootPa = p.rootPa) (hz : p'.state = .zombie → p.state = .zombie)
    (ha : p.nextMmap % pageSize = 0 → p'.nextMmap % pageSize = 0)
    (hm : k'.machine = k.machine) (hr : k'.regions = k.regions)
    (hn : k.procs.nextPid ≤ k'.procs.nextPid)
    (hh : ∃ l, k'.history = k.history ++ l ∧ ∀ par, .reaped par a ∉ l) :
    Books a log0 h0 role k' :=
  h.quiet (h.memory.setSlot hp hslots hroot ha hm hr) (by rw [hm])
    (.setSlot hp hslots hpid hroot hz) hn hh

/-- A memory operation that is not an mmap or a failing exec of the process, and no munmap. -/
theorem memOp (h : Books a log0 h0 role k) (hp : k.procs.slots k.current = some p) (hknown : a < k0.procs.nextPid)
    (ha : ∀ i p, k0.procs.slots i = some p → p.nextMmap % pageSize = 0)
    (hun : ∀ t io, ¬ Call e t io .munmap)
    (hown : ∀ q, k0.procs.slots k0.current = some q ∨ q = p → q.pid = a →
      ∀ t io, ¬ Call e t io .mmap ∧ ¬ Call e t io .execve)
    (hm : MemOp e k0 p k.machine m') : ∃ role', Memory role' { k with machine := m' } ∧
      Aloof a (fun r => role r = .root) role k.machine role' m' := by
  have hmem := h.memory
  have hroot := hmem.root _ p hp
  generalize hkm : k.machine = m at hm
  cases hm with
  | copyOut hc =>
    subst hkm
    have hd := hmem.copyOut_effect hp hc
    exact ⟨role, hmem.dataOnly hd, .same hd.log⟩
  | @mmap t io p0 _ res hc hlen hp0 hr hend hm =>
    rw [← hkm, ← hr] at hm
    obtain ⟨role', hn⟩ := (mmapPages_spec _ (hmem.good.account p0.pid) hroot (ha _ p0 hp0)).ok hm
    have hne : p0.pid ≠ a := fun he => (hown p0 (.inl hp0) he t io).1 hc
    have hal : Aloof a (fun r => role r = .root) role { k.machine with account := p0.pid } role' m' :=
      .grows hn.grows hne
    rw [hkm] at hal
    exact ⟨role', (hmem.account p0.pid).grows hn.grows, ⟨hal.owes, hal.space⟩⟩
  | munmap hc _ _ _ => exact absurd hc (hun _ _)
  | forkNone hc h1 =>
    rw [← hkm] at h1
    obtain ⟨rfl, -⟩ := (newUserRoot_spec (hmem.good.account k0.procs.nextPid)).ok h1
    exact ⟨role, hmem.account _, .same (by rw [← hkm])⟩
  | @forkUndo t io r err m1 m2 m3 _ hc h1 h2 h3 h4 =>
    rw [← hkm] at h1
    obtain ⟨role1, hn⟩ := hmem.fork_effect hp h1 h2
    have hm2 := hmem.newSpace hn
    have hr1 : role1 r = .root := hn.adds.root
    obtain ⟨role2, hs, -⟩ := hm2.free_effect hr1 h3
    have hm3 := hm2.shrinks hs
    have hr2 : role2 r = .root := (hs.root_iff r).mpr hr1
    have hrel := hm3.release_effect hr2 h4
    have hlt : k0.procs.nextPid ≠ a := Nat.ne_of_gt hknown
    have hal := ((Aloof.adds (R := (· ≠ r)) hn.adds hlt).trans (.shrinks hs)).trans
      (.released hrel hm3.good.tables hr2)
    refine ⟨_, hm3.released hr2 hrel fun i q hq => hmem.root_ne hn.adds.free hq, ?_⟩
    rw [← hkm]
    refine ⟨hal.owes, fun r' hr' => hal.space r' ?_⟩
    rintro rfl
    exact hn.adds.free (hmem.good.tables.held _ (by simp [hr']))
  | execFail hc hname himage hb =>
    rw [← hkm] at hb
    have hne : p.pid ≠ a := fun he => (hown p (.inr rfl) he _ _).2 hc
    rcases hmem.build_effect hb with ⟨rfl, -⟩ | ⟨q, vas, ok, role1, hn, -⟩
    · exact ⟨role, hmem.account _, .same (by rw [← hkm])⟩
    · have hal : Aloof a (fun r => role r = .root) role { k.machine with account := p.pid } role1 m' :=
        .adds hn.adds hne
      rw [hkm] at hal
      exact ⟨role1, hmem.newSpace hn, ⟨hal.owes, hal.space⟩⟩

theorem exit (h : Books a log0 h0 role k) {code : ℤ} {m1 : Machine} (hx : Exit code p m1 k k') :
    ∃ role', Books a log0 h0 role' k' := by
  obtain ⟨role', hsh, hm⟩ := h.memory.exit hx
  obtain ⟨-, -, hempty, -⟩ := h.memory.free_effect (h.memory.root _ p hx.proc) hx.free
  have hmach : k'.machine = m1 := by rw [hx.state]; rfl
  have hal : Aloof a (fun _ => True) role k.machine role' m1 := .shrinks hsh
  -- nothing is left below the root of the process
  have hroot : ∀ q, InSpace role' p.rootPa q → q = p.rootPa := by
    rintro q (hq | hu)
    · exact hq
    · exact (hsh.good.tables.empty_slot hempty hu).elim
  have hback : ∀ i p', k'.procs.slots i = some p' → p'.pid = a → ∃ q, k.procs.slots i = some q ∧
      q.pid = a ∧ p'.rootPa = q.rootPa ∧ (p'.state = .zombie → i = k.current ∨ q.state = .zombie) := by
    intro i p' hp' hid
    rw [Tree.exit_slots hx] at hp'
    split_ifs at hp' with hi
    · subst hi
      obtain rfl := Option.some.inj hp'
      exact ⟨p, hx.proc, (adopt_pid ..).symm.trans hid, Memory.adopt_rootPa .., fun _ => .inl rfl⟩
    · obtain ⟨q, hq, rfl⟩ := Option.map_eq_some_iff.mp hp'
      exact ⟨q, hq, (adopt_pid ..).symm.trans hid, Memory.adopt_rootPa ..,
        fun hz => .inr ((adopt_state ..).symm.trans hz)⟩
  refine ⟨role', hm, h.pos, ?_, fun i p' hp' hid => ?_, fun i p' hp' hid hz => ?_, ?_⟩
  · rw [hx.state]
    exact h.known
  · obtain ⟨q, hq, hid, hr, -⟩ := hback i p' hp' hid
    rw [hmach, hr]
    exact hal.space _ trivial _ (h.live i q hq hid)
  · obtain ⟨q, hq, hid, hr, hst⟩ := hback i p' hp' hid
    rw [hmach, hr]
    rcases hst hz with rfl | hz
    · obtain rfl := Option.some.inj (hq.symm.trans hx.proc)
      exact (hal.space _ trivial _ (h.live _ q hq hid)).mono hroot
    · exact hal.owes _ _ (h.zombie i q hq hid hz)
  · obtain ⟨l, hl, hreap⟩ := h.reaped
    refine ⟨l ++ [.exited p.pid code], ?_, fun par hmem => ?_⟩
    · rw [hx.state, ← List.append_assoc, ← hl]
      rfl
    · rw [hmach]
      exact hal.owes _ _ (hreap par (by simpa using hmem))

open Classical in
theorem reap (h : Books a log0 h0 role k) {par child : ℕ} {c : Process} {m1 m2 : Machine}
    (hr : Reap par child c p m1 m2 k k') (hz : c.state = .zombie) :
    ∃ role', Books a log0 h0 role' k' := by
  obtain ⟨hdata, hrel, hm⟩ := h.memory.reap hr
  have hroot := h.memory.root _ c hr.child_slot
  have hmach : k'.machine = m2 := by rw [hr.state]; rfl
  have hal1 : Aloof a (· ≠ c.rootPa) role k.machine role m1 := .same hdata.log
  have hal : Aloof a (· ≠ c.rootPa) role k.machine _ m2 :=
    hal1.trans (.released hrel (hdata.good h.memory.good).tables hroot)
  have hback : ∀ i p', k'.procs.slots i = some p' → i ≠ child ∧ ∃ q, k.procs.slots i = some q ∧
      p'.pid = q.pid ∧ p'.rootPa = q.rootPa ∧ (p'.state = .zombie → q.state = .zombie) := by
    intro i p' hp'
    have hslots : k'.procs.slots = ((k.setSlot par (some { p with state := .ready })).setSlot child
        none).procs.slots := by rw [hr.state]; rfl
    rw [hslots, Kernel.setSlot_slots, Kernel.setSlot_slots] at hp'
    split_ifs at hp' with hj hi
    · subst hi
      obtain rfl := Option.some.inj hp'
      exact ⟨hj, p, hr.par_slot, rfl, rfl, nofun⟩
    · exact ⟨hj, p', hp', rfl, rfl, fun hz => hz⟩
  have hother : ∀ i q, i ≠ child → k.procs.slots i = some q → q.rootPa ≠ c.rootPa :=
    fun i q hi hq he => hi (h.memory.root_inj i child q c hq hr.child_slot he)
  refine ⟨_, hm, h.pos, ?_, fun i p' hp' hid => ?_, fun i p' hp' hid hz' => ?_, ?_⟩
  · rw [hr.state]
    exact h.known
  · obtain ⟨hi, q, hq, he, hrt, -⟩ := hback i p' hp'
    rw [hmach, hrt]
    exact hal.space _ (hother i q hi hq) _ (h.live i q hq (he ▸ hid))
  · obtain ⟨hi, q, hq, he, hrt, hst⟩ := hback i p' hp'
    rw [hmach, hrt]
    exact hal.owes _ _ (h.zombie i q hq (he ▸ hid) (hst hz'))
  · obtain ⟨l, hl, hreap⟩ := h.reaped
    refine ⟨l ++ [.reaped p.pid c.pid], ?_, fun par' hmem => ?_⟩
    · rw [hr.state, ← List.append_assoc, ← hl]
      rfl
    · rw [hmach]
      rcases List.mem_append.mp hmem with hmem | hmem
      · exact hal.owes _ _ (hreap par' hmem)
      · -- the zombie owed its root, which has just been returned
        obtain ⟨-, hid⟩ := ProcEvent.reaped.inj (List.mem_singleton.mp hmem)
        have howe := hal1.owes _ _ (h.zombie _ c hr.child_slot hid.symm hz)
        exact (hrel.freed.owes howe).mono fun q hq => hq.2 hq.1

/-- A move of a step that is no munmap and in which the process itself calls neither mmap
nor execve. -/
theorem move (h : Books a log0 h0 role k) (ht : Tree k0) (he : e.ordinary)
    (hknown : a < k0.procs.nextPid)
    (ha : ∀ i p, k0.procs.slots i = some p → p.nextMmap % pageSize = 0)
    (hun : ∀ t io, ¬ Call e t io .munmap) (hfw : Forward a k0 k)
    (hown : ∀ q, k0.procs.slots k0.current = some q → q.pid = a →
      ∀ t io, ¬ Call e t io .mmap ∧ ¬ Call e t io .execve)
    (hm : Move e k0 k k') : ∃ role', Books a log0 h0 role' k' := by
  have hwin : e.unmapsWindow := fun t io hc => absurd hc (hun t io)
  have hnil : ∀ {k' : Kernel}, k'.history = k.history →
      ∃ l, k'.history = k.history ++ l ∧ ∀ par, .reaped par a ∉ l :=
    fun hh => ⟨[], by simp [hh], by simp⟩
  cases hm with
  | quiet hq => exact ⟨role, h.same hq.machine hq.regions hq.procs hq.history⟩
  | trap _ _ => exact ⟨role, h.same rfl rfl rfl rfl⟩
  | store _ hp hw =>
    obtain ⟨q, t, i, hq, rfl⟩ := userWritable_spec h.memory.good (h.memory.root _ _ hp) hw
    exact ⟨role, h.quiet (h.memory.dataOnly (.store hq (Nat.mod_lt _ (by decide)))) rfl
      (.of_slots rfl) le_rfl (hnil rfl)⟩
  | @memory _ p m' hcur hp hm =>
    obtain ⟨role', hmem, hal⟩ := h.memOp hp hknown ha hun (fun q hq hid => by
      rcases hq with hq | rfl
      · exact hown q hq hid
      · obtain ⟨q0, hq0, hid0, -⟩ := hfw.slot _ _ hp hid hknown
        exact hown q0 (hcur ▸ hq0) hid0) hm
    exact ⟨role', h.update hmem hal (fun i q hq _ => h.memory.root i q hq) (.of_slots rfl) le_rfl
      (hnil rfl)⟩
  | result _ _ _ => exact ⟨role, h.same rfl rfl rfl rfl⟩
  | resume _ => exact ⟨role, h.same rfl rfl rfl rfl⟩
  | own _ hp hown =>
    obtain ⟨h1, -, h3⟩ := Tree.own_eq hown
    exact ⟨role, h.setSlot hp rfl h1 (by rw [hown.eq]) (fun hz => h3 ▸ hz) hown.aligned rfl rfl
      le_rfl (hnil rfl)⟩
  | socket _ hp _ =>
    exact ⟨role, h.setSlot hp rfl rfl rfl (fun hz => hz) (fun h => h) rfl rfl le_rfl (hnil rfl)⟩
  | close _ _ _ hp _ =>
    exact ⟨role, h.setSlot hp rfl rfl rfl (fun hz => hz) (fun h => h) rfl rfl le_rfl (hnil rfl)⟩
  | @fork t io p slot r m1 m2 _ _ hp h1 h2 _ =>
    obtain ⟨role', hn, hmem⟩ := h.memory.fork (k := trapState t k0) hp h1 h2
    have hne : (trapState t k0).procs.nextPid ≠ a := Nat.ne_of_gt hknown
    have hal : Aloof a (fun _ => True) role k0.machine role' m2 := by
      obtain ⟨hal1, hal2⟩ := Aloof.adds (R := fun _ => True) hn.adds hne
      exact ⟨hal1, hal2⟩
    refine ⟨role', h.update hmem hal (fun _ _ _ _ => trivial) (fun i p' hp' hid => ?_)
      (Nat.le_succ _) ⟨[.forked p.pid k0.procs.nextPid], rfl, by simp⟩⟩
    change ((trapState t k0).setSlot slot (some (forkChild (trapState t k0) p r))).procs.slots i =
      some p' at hp'
    rw [Kernel.setSlot_slots] at hp'
    split_ifs at hp' with hi
    · obtain rfl := Option.some.inj hp'
      exact absurd hid hne
    · exact ⟨p', hp', hid, rfl, fun hz => hz⟩
  | @exec t io p name image q entry brk m1 m2 m3 hc hp _ _ h1 h2 h3 =>
    have hpid : p.pid ≠ a := fun hid => (hown p hp hid t io).2 hc
    obtain ⟨vas, role1, role2, hn, -, hsh, hrel, hmem⟩ :=
      h.memory.exec (k := trapState t k0) hp h1 h2 h3
    have hroot1 : role1 p.rootPa = .root :=
      (h.memory.newSpace hn).root _ p hp
    have hal := ((Aloof.adds (R := (· ≠ p.rootPa)) hn.adds hpid).trans (.shrinks hsh)).trans
      (.released hrel hsh.good.tables ((hsh.root_iff _).mpr hroot1))
    have hal' : Aloof a (· ≠ p.rootPa) role k0.machine _ m3 := ⟨hal.owes, hal.space⟩
    refine ⟨_, h.update hmem hal' (fun i q' hq' hid he => ?_) (fun i p' hp' hid => ?_) le_rfl
      (hnil rfl)⟩
    · obtain rfl := h.memory.root_inj i k0.current q' p hq' hp he
      obtain rfl := Option.some.inj (hq'.symm.trans hp)
      exact hpid hid
    · change ((trapState t k0).setSlot k0.current (some { p with
        rootPa := q, nextMmap := mmapBase, brk := brk, name := setName p.name name })).procs.slots i =
          some p' at hp'
      rw [Kernel.setSlot_slots] at hp'
      split_ifs at hp' with hi
      · obtain rfl := Option.some.inj hp'
        exact absurd hid hpid
      · exact ⟨p', hp', hid, rfl, fun hz => hz⟩
  | exit _ _ hx _ =>
    obtain ⟨role', hb⟩ := h.exit hx
    exact ⟨role', hb.same rfl rfl rfl rfl⟩
  | @exitReap t p c q code m1 m2 m3 k1 k2 _ _ hx _ hr =>
    obtain ⟨role1, hb⟩ := h.exit hx
    have hc := Tree.exit_slots hx k0.current
    rw [show (trapState t k0).current = k0.current from rfl, if_pos rfl] at hc
    have hz : c.state = .zombie := by
      rw [← Option.some.inj (hc.symm.trans hr.child_slot)]
    obtain ⟨role2, hb⟩ := hb.reap hr hz
    exact ⟨role2, hb.same rfl rfl rfl rfl⟩
  | @waitReap t io p c q child m1 m2 k1 _ hp hz hr =>
    obtain ⟨c0, hc0, -, hzom⟩ := waitScan_zombie hz
    have hne : child ≠ k0.current := by
      rintro rfl
      obtain ⟨p', hp', hrun⟩ := ht.current (ht.current_ne hp)
      obtain rfl := Option.some.inj (hp'.symm.trans hc0)
      simp [hzom] at hrun
    have hc := hr.child_slot
    rw [Kernel.setSlot_slots, if_neg hne] at hc
    obtain rfl := Option.some.inj (hc0.symm.trans hc)
    have hb : Books a log0 h0 role ((trapState t k0).setSlot k0.current
        (some (asleep p (t.arg 11)))) :=
      h.setSlot hp rfl rfl rfl nofun (fun h => h) rfl rfl le_rfl (hnil rfl)
    obtain ⟨role', hb⟩ := hb.reap hr hzom
    exact ⟨role', hb.same rfl rfl rfl rfl⟩
  | waitBlock _ hp _ =>
    exact ⟨role, h.setSlot hp rfl rfl rfl nofun (fun h => h) rfl rfl le_rfl (hnil rfl)⟩
  | waitNone _ hp _ =>
    exact ⟨role, h.setSlot hp rfl rfl rfl nofun (fun h => h) rfl rfl
      le_rfl ⟨[.noChild _], rfl, by simp⟩⟩
  | block _ _ hp =>
    exact ⟨role, h.setSlot hp rfl rfl rfl nofun (fun h => h) rfl rfl le_rfl (hnil rfl)⟩
  | yield _ _ _ =>
    cases hp : k.procs.slots k.current with
    | none =>
      rw [Option.map_none, ← hp, Kernel.setSlot_same]
      exact ⟨role, h.same rfl rfl rfl rfl⟩
    | some p =>
      rw [Option.map_some]
      by_cases hrun : p.state = .running
      · rw [if_pos hrun]
        exact ⟨role, h.setSlot hp rfl rfl rfl nofun (fun h => h) rfl rfl le_rfl (hnil rfl)⟩
      · rw [if_neg hrun]
        exact ⟨role, h.setSlot hp rfl rfl rfl (fun hz => hz) (fun h => h) rfl rfl le_rfl (hnil rfl)⟩
  | wake _ hp _ hcopy =>
    have hd := h.memory.copyOut_effect hp hcopy
    have hmem := h.memory.dataOnly hd
    exact ⟨role, h.quiet (hmem.setSlot hp rfl rfl (fun h => h) rfl rfl) hd.log
      (.setSlot hp rfl rfl rfl nofun) le_rfl (hnil rfl)⟩
  | @schedule _ p slot _ _ hp =>
    have hz : ({ p with state := .running } : Process).state = .zombie → p.state = .zombie := nofun
    exact ⟨role, h.setSlot hp rfl rfl rfl hz (fun h => h) rfl rfl le_rfl (hnil rfl)⟩
  | @heapGrow size align addr m' _ hm =>
    have hh : Handed { k0.machine with account := 0 } (growPages size align) addr m' :=
      (pageAlloc_spec _ (h.memory.good.account 0).pages).ok hm
    have hlog : m'.log = k0.machine.log ++
        ((List.range (growPages size align)).map (frameOf addr + ·)).map (.alloc · 0) := by
      rw [hh.log, List.map_map]
      rfl
    have hne : (0 : ℕ) ≠ a := Nat.ne_of_lt h.pos
    have hal : Aloof a (fun _ => True) role k0.machine role m' := by
      constructor
      · intro log0 S ho
        rw [hlog]
        exact ho.allocs _ fun he => absurd he hne
      · intro r _ log0 ho
        rw [hlog]
        exact ho.allocs _ fun he => absurd he hne
    exact ⟨role, h.update (h.memory.heapGrow hm .heap) hal (fun _ _ _ _ => trivial) (.of_slots rfl)
      le_rfl (hnil rfl)⟩
  | spawnFail he' _ _ _ => exact absurd he' he.ne_spawn
  | spawn he' _ _ _ _ _ => exact absurd he' he.ne_spawn

theorem restart (h : Books a log0 h0 role k) : Books a log0 k.history role k :=
  ⟨h.memory, h.pos, h.known, h.live, h.zombie, [], by simp, by simp⟩

/-- A page below one of the entries of pages in the user window. -/
theorem under_window {r q : ℕ} {m : Machine} {vas : List ℕ}
    (hvas : ∀ va ∈ vas, vpn va 2 = userRootSlot)
    (h : Below role (SlotsOf r m.kernelRootPa (slotsOf vas)) q) : Under role r userRootSlot q := by
  obtain ⟨r', i, hP, hu⟩ := h
  obtain ⟨rfl, rfl⟩ := hP.window fun k ⟨va, hva, hk⟩ => hk.trans (hvas va hva)
  exact hu

/-- The process maps memory of its own. -/
theorem mmap (h : Books a log0 h0 role k) (ht : Tree k) {t : UserTrap} {io : Io}
    (hc : Call e t io .mmap) (hp : k.procs.slots k.current = some p) (hid : p.pid = a)
    (hlo : userVaStart ≤ p.nextMmap)
    (hhi : p.nextMmap + pagesOf (t.arg 11) * pageSize ≤ userVaEnd)
    (hok : ∃ va k1, sysMmap ((trapState t k).frames k.current) (trapState t k) = .ok (va, k1) ∧ 0 ≤ va)
    (hn : Next e k k') : ∃ role', Books a log0 k.history role' k' := by
  have hcur := ht.current_ne hp
  obtain ⟨u, m1, hpages, hmach, hreg, hprocs, hhist⟩ := hn.mmapped hc hcur hp hok
  obtain ⟨role', hnew⟩ := h.memory.mmap_effect hp hpages
  have hgrow : Memory role' { k with machine := m1 } := (h.memory.account p.pid).grows hnew.grows
  have hslots : k'.procs.slots = (k.setSlot k.current
      (some { p with nextMmap := p.nextMmap + pagesOf (t.arg 11) * pageSize })).procs.slots := by
    rw [hprocs]
  have hmem : Memory role' k' := hgrow.setSlot hp hslots rfl (fun hal => by
    change (p.nextMmap + _ * pageSize) % pageSize = 0
    rw [Nat.add_mul_mod_self_right]
    exact hal) hmach hreg
  have hback : SamePeople a k k' := .setSlot hp hslots rfl rfl fun hz => hz
  have hcaller : ∀ i q, k.procs.slots i = some q → q.pid = a → q = p := by
    intro i q hq hqid
    obtain rfl := ht.pid_inj i k.current q p hq hp (hqid.trans hid.symm)
    exact Option.some.inj (hq.symm.trans hp)
  -- every frame on the account is where it was, or below the root of the caller
  have howes : Owes a log0 k.machine.log (InSpace role p.rootPa) →
      Owes a log0 m1.log (InSpace role' p.rootPa) := by
    intro ho
    refine Owes.grant (m := { k.machine with account := p.pid }) ho hnew.grows.log
      (fun _ hq => hq.mono hnew.grows.keep) fun _ q hfree hheld => .inr ?_
    have hplace : role q = .other ∧ role' q ≠ .other :=
      (hnew.noLoose rfl).placed (h.memory.good.account p.pid).tables hfree hheld
    exact under_window (fun va hva => rangeVas_window hlo hhi hva)
      (hnew.grows.fresh q hplace.1 hplace.2).2
  refine ⟨role', hmem, h.pos, by rw [hprocs]; exact h.known, fun i p' hp' hid' => ?_,
    fun i p' hp' hid' hz => ?_, [], by rw [hhist, List.append_nil], by simp⟩
  · obtain ⟨q, hq, hqid, hroot, -⟩ := hback i p' hp' hid'
    obtain rfl := hcaller i q hq hqid
    rw [hmach, hroot]
    exact howes (h.live i q hq hqid)
  · obtain ⟨q, hq, hqid, -, hst⟩ := hback i p' hp' hid'
    obtain rfl := hcaller i q hq hqid
    obtain ⟨q', hq', hrun'⟩ := ht.current hcur
    obtain rfl := Option.some.inj (hp.symm.trans hq')
    simp [hst hz] at hrun'

open Classical in
/-- The process replaces its image. -/
theorem execve (h : Books a log0 h0 role k) (ht : Tree k) {t : UserTrap} {io : Io}
    (hc : Call e t io .execve) (hp : k.procs.slots k.current = some p) (hid : p.pid = a)
    (hok : ∃ r k1, sysExecve io ((trapState t k).frames k.current) (trapState t k) = .ok (r, k1) ∧
      0 ≤ r)
    (hwin : ∀ name image, copyInCstr p.rootPa (t.arg 10) 128 k.machine = .ok (.ok name, k.machine) →
      k.fs.loadProgram io.disk name = .ok (some image) → ∀ va, Elf.Loads image va →
        userVaStart ≤ va ∧ va < userVaEnd)
    (hn : Next e k k') : ∃ role', Books a log0 k.history role' k' := by
  have hcur := ht.current_ne hp
  obtain ⟨name, image, q, entry, brk, m1, m2, m3, hname, himage, h1, h2, h3, hmach, hreg, hprocs,
    hhist⟩ := hn.execed hc hcur hp hok
  obtain ⟨vas, role1, role2, hnew, hvas, hsh, hrel, hmem⟩ := h.memory.exec hp h1 h2 h3
  obtain ⟨-, -, hempty, -⟩ := (h.memory.newSpace hnew).free_effect
    ((h.memory.newSpace hnew).root _ p hp) h2
  have hroot2 : role2 p.rootPa = .root :=
    (hsh.root_iff _).mpr ((h.memory.newSpace hnew).root _ p hp)
  have hwindow : ∀ va ∈ vas, vpn va 2 = userRootSlot := by
    intro va hva
    rcases hvas va hva with hload | ⟨i, hi, rfl⟩
    · obtain ⟨hlo, hhi⟩ := hwin name image hname himage va hload
      exact vpn_window hlo hhi
    · exact stackVa_slot hi
  have hne : q ≠ p.rootPa := (h.memory.root_ne hnew.adds.free hp).symm
  have hback : ∀ i x, k'.procs.slots i = some x → x.pid = a → x.rootPa = q ∧ x.state = p.state := by
    intro i x hx hxid
    rw [hprocs] at hx
    change (k.setSlot k.current (some { p with
      rootPa := q, nextMmap := mmapBase, brk := brk, name := setName p.name name })).procs.slots i =
        some x at hx
    rw [Kernel.setSlot_slots] at hx
    split_ifs at hx with hi
    · obtain rfl := Option.some.inj hx
      exact ⟨rfl, rfl⟩
    · exact absurd (ht.pid_inj i _ x p hx hp (hxid.trans hid.symm)) hi
  -- the new space, and of the old one nothing
  have howes : Owes a log0 m3.log (InSpace (Drop.newRole role2 (TreeOf role2 p.rootPa)) q) := by
    have ho1 : Owes a log0 m1.log fun x => InSpace role1 p.rootPa x ∨ InSpace role1 q x := by
      refine Owes.grant (m := { k.machine with account := p.pid }) (h.live _ p hp hid)
        hnew.adds.log (fun _ hx => .inl (hx.mono hnew.adds.keep)) fun _ x hfree hheld => .inr ?_
      have hplace : role x = .other ∧ role1 x ≠ .other :=
        (hnew.noLoose rfl).placed (h.memory.good.account p.pid).tables hfree hheld
      exact (hnew.adds.fresh x hplace.1 hplace.2).2.imp_right (under_window hwindow)
    refine (hrel.freed.owes (hsh.owes ho1)).mono ?_
    rintro x ⟨⟨(hx | hx) | (hx | hx), hkeep⟩, hxr⟩
    · exact absurd hx hxr
    · exact (hsh.good.tables.empty_slot hempty (hsh.under hx hkeep)).elim
    · exact .inl hx
    · exact .inr (Aloof.under_released hsh.good.tables hroot2 hne (hsh.under hx hkeep))
  refine ⟨_, hmem.congr hmach hreg (by rw [hprocs]), h.pos, by rw [hprocs]; exact h.known,
    fun i p' hp' hid' => ?_, fun i p' hp' hid' hz => ?_, [], by rw [hhist, List.append_nil], by simp⟩
  · obtain ⟨hr, -⟩ := hback i p' hp' hid'
    rw [hmach, hr]
    exact howes
  · obtain ⟨-, hst⟩ := hback i p' hp' hid'
    obtain ⟨q', hq', hrun'⟩ := ht.current hcur
    obtain rfl := Option.some.inj (hp.symm.trans hq')
    simp [hst ▸ hz] at hrun'

end Books

end Books

/-! ### The life of a process -/

/-- The step forks pid `a`. -/
def Forks (a : ℕ) (k k' : Kernel) : Prop :=
  ∃ par, ProcEvent.forked par a ∈ k'.history ∧ ProcEvent.forked par a ∉ k.history

/-- In the step some wait4 reaps pid `a`. -/
def Reaps (a : ℕ) (k k' : Kernel) : Prop :=
  ∃ par, ProcEvent.reaped par a ∈ k'.history ∧ ProcEvent.reaped par a ∉ k.history

/-- The calls of process `a` that map memory succeed, with mappings inside the user window. -/
structure MapsWindow (a : ℕ) (e : Event) (k : Kernel) : Prop where
  mmap : ∀ t io p, Call e t io .mmap → k.procs.slots k.current = some p → p.pid = a →
    userVaStart ≤ p.nextMmap ∧ p.nextMmap + pagesOf (t.arg 11) * pageSize ≤ userVaEnd ∧
    ∃ va k1, sysMmap ((trapState t k).frames k.current) (trapState t k) = .ok (va, k1) ∧ 0 ≤ va
  execve : ∀ t io p, Call e t io .execve → k.procs.slots k.current = some p → p.pid = a →
    (∃ r k1, sysExecve io ((trapState t k).frames k.current) (trapState t k) = .ok (r, k1) ∧ 0 ≤ r) ∧
    ∀ name image, copyInCstr p.rootPa (t.arg 10) 128 k.machine = .ok (.ok name, k.machine) →
      k.fs.loadProgram io.disk name = .ok (some image) → ∀ va, Elf.Loads image va →
        userVaStart ≤ va ∧ va < userVaEnd

section Life

variable {a : ℕ} {log0 : List (Loan ℕ ℕ)} {h0 : List ProcEvent} {role : ℕ → Role}
  {k0 k k' : Kernel} {e : Event}

/-- One step of the machine, whoever is running. -/
theorem Books.step (h : Books a log0 h0 role k) (ht : Tree k) (he : e.ordinary)
    (hs : e.sparesKernel k) (hw : MapsWindow a e k) (hn : Next e k k') :
    ∃ role', Books a log0 k.history role' k' := by
  replace h := h.restart
  by_cases hun : ∃ t io, Call e t io .munmap
  · obtain ⟨t, io, hc⟩ := hun
    by_cases hcur : k.current = noProc
    · exact ⟨role, hn.idle_trap hc.event hcur ▸ h⟩
    · obtain ⟨p, hp, -⟩ := ht.current hcur
      obtain ⟨role', m1, P, hsh, hmach, hreg, hprocs, hhist⟩ := h.memory.munmap_next hs hc hcur hp hn
      have hmem : Memory role' k' := (h.memory.shrinks hsh).congr hmach hreg (by rw [hprocs])
      have hal : Aloof a (fun _ => True) role k.machine role' k'.machine := hmach ▸ .shrinks hsh
      exact ⟨role', h.update hmem hal (fun _ _ _ _ => trivial) (.of_slots (by rw [hprocs]))
        (by rw [hprocs]) ⟨[], by simp [hhist], by simp⟩⟩
  by_cases hmm : ∃ t io p, Call e t io .mmap ∧ k.procs.slots k.current = some p ∧ p.pid = a
  · obtain ⟨t, io, p, hc, hp, hid⟩ := hmm
    obtain ⟨hlo, hhi, hok⟩ := hw.mmap t io p hc hp hid
    exact h.mmap ht hc hp hid hlo hhi hok hn
  by_cases hex : ∃ t io p, Call e t io .execve ∧ k.procs.slots k.current = some p ∧ p.pid = a
  · obtain ⟨t, io, p, hc, hp, hid⟩ := hex
    obtain ⟨hok, hwin⟩ := hw.execve t io p hc hp hid
    exact h.execve ht hc hp hid hok hwin hn
  have hnot : ¬ Execs a e k := by
    rintro ⟨t, io, p, -, hc, hp, hid, -⟩
    exact hex ⟨t, io, p, hc, hp, hid⟩
  have hkeep : Forward a k k' ∧ ∃ role', Books a log0 k.history role' k' := by
    refine hn.keeps (I := fun s => Forward a k s ∧ ∃ role', Books a log0 k.history role' s)
      ⟨.refl, role, h⟩ ?_
    rintro s s' ⟨hfw, role', hb⟩ hm
    refine ⟨hfw.trans (hm.forward ht he hnot), hb.move ht he h.known h.memory.mmap_aligned
      (fun t io hc => hun ⟨t, io, hc⟩) hfw (fun q hq hid t io => ?_) hm⟩
    exact ⟨fun hc => hmm ⟨t, io, q, hc, hq, hid⟩, fun hc => hex ⟨t, io, q, hc, hq, hid⟩⟩
  exact hkeep.2

/-- The books are opened by the fork. -/
theorem Books.open (hm : Memory role k) (ht : Tree k) (he : e.ordinary) (hf : Forks a k k')
    (hn : Next e k k') : ∃ role', Books a k.machine.log k'.history role' k' := by
  obtain ⟨par, hin, hout⟩ := hf
  obtain ⟨t, io, hc⟩ : ∃ t io, Call e t io .clone := by
    have hkeep : ∀ x c, .forked x c ∈ k'.history → .forked x c ∈ k.history ∨
        ∃ t io, Call e t io .clone := by
      refine hn.keeps (I := fun s => ∀ x c, .forked x c ∈ s.history → .forked x c ∈ k.history ∨
        ∃ t io, Call e t io .clone) (fun _ _ h => .inl h) fun s s' hI hmv x c hmem => ?_
      rcases hmv.forks he with ⟨-, hsub⟩ | ⟨⟨-, hc⟩, -⟩
      · exact hI x c (hsub x c hmem)
      · exact .inr hc
    exact (hkeep par a hin).resolve_left hout
  have hcur : k.current ≠ noProc := by
    intro hcur
    exact hout (hn.idle_trap hc.event hcur ▸ hin)
  obtain ⟨p, hp, -⟩ := ht.current hcur
  obtain ⟨ret, k1, hrun, hend⟩ := hn.returned hc hcur fun _ => rfl
  obtain ⟨e1, e2, e3, e4, -⟩ := resumed_rest hend
  rcases forkCurrent_ok hrun hp with ⟨hh, -⟩ | ⟨slot, r, m1, m2, hslot, h1, h2, hmach, hreg, hprocs, hhist, -⟩
  · exact absurd (e4.trans hh ▸ hin) hout
  have hmach' : k'.machine = m2 := e1.trans hmach
  have hprocs' : k'.procs = (forkState (trapState t k) p slot r m2).procs := e3.trans hprocs
  have hhist' : k'.history = k.history ++ [.forked p.pid k.procs.nextPid] := e4.trans hhist
  obtain rfl : a = k.procs.nextPid := by
    rw [hhist', List.mem_append] at hin
    exact (ProcEvent.forked.inj (List.mem_singleton.mp (hin.resolve_left hout))).2
  obtain ⟨role', hnew, hmem⟩ : ∃ role', NewSpace r (userPages m1 p.rootPa) true role
      { k.machine with account := k.procs.nextPid } role' m2 ∧
      Memory role' (forkState k p slot r m2) := hm.fork hp h1 h2
  have howes : Owes k.procs.nextPid k.machine.log m2.log (InSpace role' r) := by
    refine Owes.grant (m := { k.machine with account := k.procs.nextPid })
      (.start k.procs.nextPid k.machine.log fun _ => False) hnew.adds.log (fun _ h => h.elim)
      fun _ q hfree hheld => ?_
    have hplace : role q = .other ∧ role' q ≠ .other :=
      (hnew.noLoose rfl).placed (hm.good.account k.procs.nextPid).tables hfree hheld
    exact (hnew.adds.fresh q hplace.1 hplace.2).2.imp_right
      (Books.under_window fun va hva => userPages_slot va hva)
  have hback : ∀ i x, k'.procs.slots i = some x → x.pid = k.procs.nextPid →
      x.rootPa = r ∧ x.state = .ready := by
    intro i x hx hid
    rw [hprocs'] at hx
    change (k.setSlot slot (some (forkChild k p r))).procs.slots i = some x at hx
    rw [Kernel.setSlot_slots] at hx
    split_ifs at hx with hi
    · obtain rfl := Option.some.inj hx
      exact ⟨rfl, rfl⟩
    · have := (ht.pid_lt i x hx).2
      omega
  have hlt := ht.pid_lt _ p hp
  refine ⟨role', hmem.congr hmach' (e2.trans hreg) (by rw [hprocs']; rfl), by omega, ?_,
    fun i x hx hid => ?_, fun i x hx hid hz => ?_, [], by simp, by simp⟩
  · rw [hprocs']
    exact Nat.lt_succ_self _
  · rw [hmach', (hback i x hx hid).1]
    exact howes
  · rw [(hback i x hx hid).2] at hz
    cases hz

theorem Calls.call {t : UserTrap} {io : Io} {no : Sysno} (hc : Calls t io no) :
    Call (.trap t) t io no := ⟨rfl, hc.cause, hc.number⟩

/-- A call other than the three that change mappings. -/
theorem Calls.harmless {t : UserTrap} {io : Io} {no : Sysno} (hc : Calls t io no)
    (h1 : no ≠ .mmap) (h2 : no ≠ .munmap) (h3 : no ≠ .execve) (k : Kernel) :
    (Event.trap t).sparesKernel k ∧ MapsWindow a (.trap t) k :=
  ⟨fun _ _ _ hc' => absurd (hc.call.inj hc').2 h2, fun _ _ _ hc' => absurd (hc.call.inj hc').2 h1,
    fun _ _ _ hc' => absurd (hc.call.inj hc').2 h3⟩

/-- Init forks a child and waits for it, giving `uva` for the status. -/
theorem FirstRun.waited {k1 : Kernel} {p : Process} (hf : FirstRun k1 p) (uva : ℕ) : ∃ k2 k3 r,
    Next (.trap (callTrap 220 0 0 0)) k1 k2 ∧ Forks 2 k1 k2 ∧
      Next (.trap (callTrap 260 0 uva 0)) k2 k3 ∧ Reached k3 ∧ k3.machine = k2.machine ∧
      Shows k3 ⟨1, 1, [asleep p ((callTrap 260 0 uva 0).arg 11), kid p 2 0 r .running]⟩ := by
  obtain ⟨k2, r, n2, r2, h2, s2, -, -⟩ := hf.shows_.fork hf.reached (callTrap_calls 220 0 0 0 rfl) rfl
    (show 1 < 8 by decide) hf.room
  obtain ⟨k3, n3, r3, s3, m3, -⟩ := s2.wait r2 (callTrap_calls 260 0 uva 0 rfl) rfl (by
    rw [waitScan_eq 0 [(noProc, .running), (0, .ready)] (by simp [hf.parent, hf.state, freshProcess])]
    decide)
  replace s3 := s3.enters 0 1 [.sleepChild, .ready] rfl rfl (by decide)
  refine ⟨k2, k3, r, n2, ⟨p.pid, ?_, fun hin => ?_⟩, n3, r3, m3, s3⟩
  · rw [h2]
    exact List.mem_append_right _ (List.mem_singleton_self _)
  · obtain ⟨k0, hs, hr⟩ := hf.reached
    have hreach : Reaches k0 k1 := Runs.mono (fun _ _ h => h.1) hr
    have hlt := (hreach.lineage hs).fork_lt _ _ hin
    rw [hf.shows_.nextPid] at hlt
    exact absurd hlt (by simp)

/-- Then the child exits, and init is told. -/
theorem FirstRun.reaped {k1 : Kernel} {p : Process} (hf : FirstRun k1 p) (uva code : ℕ) :
    ∃ k2 k3 k4 r, Next (.trap (callTrap 220 0 0 0)) k1 k2 ∧ Forks 2 k1 k2 ∧
      Next (.trap (callTrap 260 0 uva 0)) k2 k3 ∧ Reached k3 ∧ k3.machine = k2.machine ∧
      Shows k3 ⟨1, 1, [asleep p ((callTrap 260 0 uva 0).arg 11), kid p 2 0 r .running]⟩ ∧
      Next (.trap (callTrap 93 code 0 0)) k3 k4 ∧ Reaps 2 k3 k4 ∧
      k4.history = k3.history ++ [.exited 2 (toI32 ((callTrap 93 code 0 0).arg 10)),
        .reaped p.pid 2] := by
  obtain ⟨k2, k3, r, n2, hfork, n3, r3, m3, s3⟩ := hf.waited uva
  obtain ⟨k4, n4, -, -, h4, -⟩ := s3.reaped r3 (callTrap_calls 93 code 0 0 rfl) rfl
    (show 2 ≠ 1 by decide) rfl hf.pid rfl rfl (show 0 ≠ 1 by decide)
  refine ⟨k2, k3, k4, r, n2, hfork, n3, r3, m3, s3, n4, ⟨p.pid, ?_, fun hin => ?_⟩, h4⟩
  · rw [h4]
    exact List.mem_append_right _ (by simp [asleep, kid, freshProcess])
  · obtain ⟨k0, hs, hr⟩ := r3
    have hreach : Reaches k0 k3 := Runs.mono (fun _ _ h => h.1) hr
    exact ((hreach.obituaries hs).gone _ _ hin).2 1 _ (s3.slots 1) rfl

/-- When a process is reaped, every frame allocated for it since its fork has been returned
exactly once, and nothing is left on its account. -/
theorem memory_returned {k1 k2 k3 k4 : Kernel} {e' : Event} (hs : Started k0)
    (hr : ReachesSparing k0 k1) (he : e.ordinary) (hn : Next e k1 k2) (hf : Forks a k1 k2)
    (hrun : ReachesIf (fun e k => e.sparesKernel k ∧ MapsWindow a e k) k2 k3) (he' : e'.ordinary)
    (hs' : e'.sparesKernel k3) (hw' : MapsWindow a e' k3) (hn' : Next e' k3 k4) (hreap : Reaps a k3 k4) :
    ∃ log1, k4.machine.log = k1.machine.log ++ log1 ∧ (∀ f, Loan.holder f log1 ≠ some a) ∧
      ∀ f pre post, log1 = pre ++ .alloc f a :: post → Loan.ReturnedOnce f post := by
  obtain ⟨role1, hm1⟩ := hr.memory hs
  have hr1 : Reaches k0 k1 := Runs.mono (fun _ _ h => h.1) hr
  have ht1 := hr1.tree hs
  obtain ⟨role2, hb2⟩ := Books.open hm1 ht1 he hf hn
  obtain ⟨ht3, h3, role3, hb3⟩ : Tree k3 ∧ ∃ h role, Books a k1.machine.log h role k3 := by
    refine hrun.invariant (I := fun k => Tree k ∧ ∃ h role, Books a k1.machine.log h role k)
      ⟨ht1.step he hn, _, role2, hb2⟩ ?_
    rintro e s s' ⟨he, hsp, hw⟩ hn ⟨ht, h, role, hb⟩
    exact ⟨ht.step he hn, _, hb.step ht he hsp hw hn⟩
  obtain ⟨role4, hb4⟩ := hb3.step ht3 he' hs' hw' hn'
  obtain ⟨par, hin, hout⟩ := hreap
  obtain ⟨l, hl, hclear⟩ := hb4.reaped
  obtain ⟨log1, hlog, hnone⟩ := hclear par (by
    rw [hl, List.mem_append] at hin
    exact hin.resolve_left hout)
  refine ⟨log1, hlog, fun f hfa => hnone f hfa, fun f pre post hsplit => ?_⟩
  have hbal := hb4.memory.good.recorded.balanced
  rw [hlog] at hbal
  exact hbal.returnedOnce hsplit fun hfa => hnone f hfa

end Life

/-- The child of init that exits while init waits: its memory is back. -/
theorem memory_returned_child : ∃ k1 k4 : Kernel, Reached k1 ∧ ∃ log1,
    k4.machine.log = k1.machine.log ++ log1 ∧ (∀ f, Loan.holder f log1 ≠ some 2) ∧
    ∀ f pre post, log1 = pre ++ .alloc f 2 :: post → Loan.ReturnedOnce f post := by
  obtain ⟨k1, p, hfirst⟩ := exists_firstRun
  obtain ⟨k2, k3, k4, r, n2, hf, n3, -, -, -, n4, hreaps, -⟩ := hfirst.reaped 0 0
  obtain ⟨k0, hs, hr0⟩ := hfirst.reached
  have hord (nr : ℕ) : (Event.trap (callTrap nr 0 0 0)).ordinary := trivial
  have hcall (no : Sysno) (nr : ℕ) (h : Sysno.ofNr ((callTrap nr 0 0 0).arg 17) = no) :
      Calls (callTrap nr 0 0 0) noIo no := ⟨rfl, h, show 0 + 4 < usizeBound by decide⟩
  have hstep := (hcall .wait4 260 rfl).harmless (a := 2) (by simp) (by simp) (by simp) k2
  have hlast := (hcall .exit 93 rfl).harmless (a := 2) (by simp) (by simp) (by simp) k3
  exact ⟨k1, k4, ⟨k0, hs, hr0⟩, memory_returned hs (hr0.sparing hs) (hord 220) n2 hf
    ((Runs.refl k2).snoc ⟨hord 260, hstep⟩ n3) (hord 93) hlast.1 hlast.2 n4 hreaps⟩

end LightOS
