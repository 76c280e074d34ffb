import LightOS.Budget
import LightOS.Syscall

/-!
# New address spaces

A process root is a copy of the kernel root with an empty user slot. Program
images, stacks and copies of other processes are loops of new pages below it.
-/
namespace LightOS
open Lib PageAllocator

variable {role role' role'' : ℕ → Role} {m m' m'' : Machine}

/-! ### Roots -/

/-- A new process root at `q`. -/
structure FreshRoot (role : ℕ → Role) (m : Machine) (q : ℕ) (m' : Machine) : Prop where
  got : Got m q m'
  copy : ∀ i, i < 512 → i ≠ userRootSlot → m'.pte q i = m.pte m.kernelRootPa i
  user : pteValid (m'.pte q userRootSlot) = false
  good : Good (Function.update role q .root) m'

/-- The copying loop: entries still to come are zero, the others are copies. -/
structure CopyLoop (m : Machine) (q : ℕ) (rest : List ℕ) (m' : Machine) : Prop where
  got : Got m q m'
  nodup : rest.Nodup
  bound : ∀ i ∈ rest, i < 512
  todo : ∀ i, i < 512 → i ∈ rest ∨ i = userRootSlot → m'.pte q i = 0
  done : ∀ i, i < 512 → i ∉ rest → i ≠ userRootSlot → m'.pte q i = m.pte m.kernelRootPa i

theorem Got.setPte {q i v : ℕ} (h : Got m q m') (hi : i < 512) : Got m q (m'.setPte q i v) := by
  refine h.fill fun a ha => ?_
  simp only [writeWord, pageSize] at *
  rw [if_neg (by omega)]

theorem CopyLoop.step {q i : ℕ} {rest : List ℕ} (hg : Good role m)
    (h : CopyLoop m q (i :: rest) m') (hne : i ≠ userRootSlot) :
    CopyLoop m q rest (m'.setPte q i (m'.pte m'.kernelRootPa i)) := by
  have hi := h.bound i (by simp)
  have hnd := List.nodup_cons.mp h.nodup
  have hother : ∀ j, j < 512 → j ≠ i →
      (m'.setPte q i (m'.pte m'.kernelRootPa i)).pte q j = m'.pte q j := fun j hj hji =>
    m'.pte_setPte_ne _ h.got.frame.1 h.got.frame.1 hi hj (Or.inr hji)
  refine ⟨h.got.setPte hi, hnd.2, fun j hj => h.bound j (by simp [hj]), ?_, ?_⟩
  · intro j hj hcase
    have hji : j ≠ i := by
      rintro rfl
      rcases hcase with hmem | he
      · exact hnd.1 hmem
      · exact hne he
    rw [hother j hj hji]
    exact h.todo j hj (by rcases hcase with hmem | he <;> simp_all)
  · intro j hj hmem hju
    by_cases hji : j = i
    · rw [hji, m'.pte_setPte_self q i (m'.pte_lt _ _), h.got.kernelRootPa]
      exact h.got.pte hg hg.tables.kroot_level hi
    · rw [hother j hj hji]
      exact h.done j hj (by simp [hji, hmem]) hju

theorem CopyLoop.skip {q : ℕ} {rest : List ℕ} (h : CopyLoop m q (userRootSlot :: rest) m') :
    CopyLoop m q rest m' := by
  refine ⟨h.got, (List.nodup_cons.mp h.nodup).2, fun j hj => h.bound j (by simp [hj]), ?_, ?_⟩
  · intro j hj hcase
    exact h.todo j hj (by rcases hcase with hmem | he <;> simp_all)
  · intro j hj hmem hju
    exact h.done j hj (by simp [hju, hmem]) hju

theorem copyLoop_spec {q : ℕ} {l : List ℕ} (hg : Good role m) (h : CopyLoop m q l m') :
    Prog.Wp (Prog.each (fun i =>
      if i ≠ userRootSlot then do
        let m ← get
        writePte q i (m.pte m.kernelRootPa i)
      else pure ()) l) m' (fun _ m'' => CopyLoop m q [] m'') Prog.Never := by
  refine Prog.Wp.each (CopyLoop m q) (fun i rest s hs => ?_) l m' h
  by_cases hne : i ≠ userRootSlot
  · simp only [if_pos hne, Prog.wp_bind, Prog.wp_get, wp_writePte]
    exact hs.step hg hne
  · simp only [if_neg hne, Prog.wp_pure]
    rw [not_not.mp hne] at hs
    exact hs.skip

theorem newUserRoot_spec (hg : Good role m) :
    Prog.Wp newUserRoot m (fun res m' => match res with
      | none => m' = m ∧ m.pages.freeFrames = 0
      | some q => FreshRoot role m q m') Prog.Never := by
  unfold newUserRoot PageTable.alloc
  refine (pageAlloc_one hg).bind fun res m1 h1 => ?_
  cases res with
  | none => exact Prog.wp_pure.mpr h1
  | some q =>
    obtain ⟨hgot, hzero⟩ := h1
    have hstart : CopyLoop m q (List.range 512) m1 := by
      refine ⟨hgot, List.nodup_range, fun i hi => List.mem_range.mp hi, ?_, ?_⟩
      · intro i hi _
        refine readWord_zero fun b h1 h2 => hzero b (by omega) ?_
        simp only [pageSize]
        omega
      · intro i hi hmem
        exact absurd (List.mem_range.mpr hi) hmem
    refine (copyLoop_spec hg hstart).bind fun _ m2 h2 => ?_
    rw [Prog.wp_pure]
    have hcopy : ∀ i, i < 512 → i ≠ userRootSlot → m2.pte q i = m.pte m.kernelRootPa i :=
      fun i hi hne => h2.done i hi (by simp) hne
    have huser : pteValid (m2.pte q userRootSlot) = false := by
      rw [h2.todo userRootSlot (by decide) (Or.inr rfl)]
      rfl
    have hg2 := h2.got.good hg
    refine ⟨h2.got, hcopy, huser, ?_, hg2.pages, hg2.recorded⟩
    refine hg2.tables.newRoot h2.got.mine (h2.got.role_other hg) (fun i hi hne => ?_) huser
    rw [hcopy i hi hne, h2.got.kernelRootPa, h2.got.pte hg hg.tables.kroot_level hi]

namespace FreshRoot

variable {q : ℕ}

theorem role_self (role : ℕ → Role) (q : ℕ) : Function.update role q .root q = .root := by simp

theorem keep (h : FreshRoot role m q m') (hg : Good role m) {p : ℕ} (hp : role p ≠ .other) :
    Function.update role q .root p = role p := by
  have hne : p ≠ q := by
    rintro rfl
    exact hp (h.got.role_other hg)
  simp [hne]

/-- A new root maps nothing in the user window. -/
theorem no_page (h : FreshRoot role m q m') {va : ℕ} (hva : vpn va 2 = userRootSlot) :
    ¬ HasPage (Function.update role q .root) m' q va := by
  rintro ⟨l0, ⟨l1, h1, -⟩, -⟩
  rw [hva, home_user] at h1
  have hv := (h.good.tables.up l1 2 q userRootSlot h1).2.2.1
  rw [h.user] at hv
  simp at hv

end FreshRoot

/-- What a new process root maps: what the kernel root does, outside the user window. -/
def Machine.newView (m : Machine) : Present where
  slot va := decide (vpn va 2 ≠ userRootSlot) && (m.view m.kernelRootPa).slot va
  table va := decide (vpn va 2 ≠ userRootSlot) && (m.view m.kernelRootPa).table va
  page va := decide (vpn va 2 ≠ userRootSlot) && (m.view m.kernelRootPa).page va

/-- The kernel's tables are not touched by a new root. -/
theorem FreshRoot.kernel_tables {q k i : ℕ} (hg : Good role m) (h : FreshRoot role m q m')
    (hk : k < 512) (hi : i < 512) (hv : pteValid (m.pte m.kernelRootPa k) = true) :
    m'.pte (pteAddr (m.pte m.kernelRootPa k)) i = m.pte (pteAddr (m.pte m.kernelRootPa k)) i ∧
      (pteValid (m.pte (pteAddr (m.pte m.kernelRootPa k)) i) = true → ∀ j, j < 512 →
        m'.pte (pteAddr (m.pte (pteAddr (m.pte m.kernelRootPa k)) i)) j =
          m.pte (pteAddr (m.pte (pteAddr (m.pte m.kernelRootPa k)) i)) j) := by
  have hnk : ¬ Shared role m m.kernelRootPa k := by
    intro hs
    have := hs.1.symm.trans ((hg.tables.kroot _).mpr rfl)
    simp at this
  obtain ⟨-, h1⟩ := (hg.tables.down _ 2 _ hg.tables.kroot_level hk hv hnk).1 (by omega)
  have hl1 : (role (pteAddr (m.pte m.kernelRootPa k))).level = some 1 := by
    rw [h1]
    rfl
  refine ⟨h.got.pte hg hl1 hi, fun hv1 j hj => ?_⟩
  have hns : ¬ Shared role m (pteAddr (m.pte m.kernelRootPa k)) i := by
    intro hs
    have := hs.1.symm.trans h1
    simp [Role.child] at this
  obtain ⟨-, h0⟩ := (hg.tables.down _ 1 _ hl1 hi hv1 hns).1 (by omega)
  exact h.got.pte hg (l := 0) (by rw [h0]; rfl) hj

theorem FreshRoot.sees {q : ℕ} (hg : Good role m) (h : FreshRoot role m q m') :
    Sees m.newView q (Function.update role q .root) m' := by
  have hsees := h.good.sees (r := q) (Or.inl (role_self role q))
  have hslot : ∀ va, m.newView.slot va = (m'.view q).slot va := by
    intro va
    by_cases he : vpn va 2 = userRootSlot
    · simp [Machine.newView, Machine.view, he, h.user]
    · simp [Machine.newView, Machine.view, he, h.copy _ (vpn_lt va 2) he]
  have htable : ∀ va, m.newView.table va = (m'.view q).table va := by
    intro va
    by_cases he : vpn va 2 = userRootSlot
    · simp [Machine.newView, Machine.view, he, h.user]
    · simp only [Machine.newView, Machine.view, h.copy _ (vpn_lt va 2) he, ne_eq, he,
        not_false_eq_true, decide_true, Bool.true_and]
      by_cases hv : pteValid (m.pte m.kernelRootPa (vpn va 2)) = true
      · rw [(h.kernel_tables hg (vpn_lt va 2) (vpn_lt va 1) hv).1]
      · simp [hv]
  have hpage : ∀ va, m.newView.page va = (m'.view q).page va := by
    intro va
    by_cases he : vpn va 2 = userRootSlot
    · simp [Machine.newView, Machine.view, he, h.user]
    · simp only [Machine.newView, Machine.view, h.copy _ (vpn_lt va 2) he, ne_eq, he,
        not_false_eq_true, decide_true, Bool.true_and]
      by_cases hv : pteValid (m.pte m.kernelRootPa (vpn va 2)) = true
      · obtain ⟨h1, h0⟩ := h.kernel_tables hg (vpn_lt va 2) (vpn_lt va 1) hv
        rw [h1]
        by_cases hv1 : pteValid (m.pte (pteAddr (m.pte m.kernelRootPa (vpn va 2))) (vpn va 1)) = true
        · rw [h0 hv1 _ (vpn_lt va 0)]
        · simp [hv1]
      · simp [hv]
  exact ⟨fun va => (hslot va).trans (hsees.slot va), fun va => by rw [htable]; exact hsees.table va,
    fun va => by rw [hpage]; exact hsees.page va⟩

/-! ### Pages below a root -/

theorem isOk_error {ε α : Type} (e : ε) : (Except.error e : Except ε α).isOk = false := rfl

theorem isOk_ok {ε α : Type} (a : α) : (Except.ok a : Except ε α).isOk = true := rfl

/-- A process root is not the kernel root. -/
theorem Good.root_ne {r : ℕ} (hg : Good role m) (hr : role r = .root) : r ≠ m.kernelRootPa := by
  rintro rfl
  rw [(hg.tables.kroot _).mpr rfl] at hr
  simp at hr

theorem map_new_spec {m1 : Machine} {r va q flags : ℕ} (hg : Good role m) (hgot : Got m q m1)
    (hr : role r = .root) (hva : va % pageSize = 0) (hf : flags < 2 ^ 10)
    (hu : flags.testBit 4 = true) :
    Prog.Wp (PageTable.map r va q flags) m1 (fun res m' =>
      ∃ role', Attempt r va res.isOk role m role' m') Prog.Never := by
  refine (map_step hg hgot (Or.inl hr) (fun he => absurd he (hg.root_ne hr)) hva hf hu).mono ?_
    fun _ h => h
  rintro res m' ⟨role', h⟩
  exact ⟨role', .of_step hgot h⟩

/-- The address of page `i` of the stack. -/
def stackVa (i : ℕ) : ℕ := userStackTop - userStackPages * pageSize + i * pageSize

/-- The pages of the stack, in the order in which they are mapped. -/
def stackVas : List ℕ := (List.range userStackPages).map stackVa

theorem mapStack_spec {r : ℕ} {b : Present} (hg : Good role m) (hr : role r = .root)
    (hs : Sees b r role m) :
    Prog.Wp (mapStack r) m (fun res m' =>
      ∃ role', Ran b r stackVas res.isOk role m role' m') Prog.Never := by
  refine newPages_ran _ (List.range userStackPages) hg hr hs fun i _ role m hg hr => ?_
  refine (pageAlloc_one hg).bind fun res m1 h1 => ?_
  cases res with
  | none =>
    obtain ⟨rfl, h0⟩ := h1
    exact Prog.wp_pure.mpr ⟨role, .exhausted hg h0⟩
  | some q =>
    refine map_new_spec hg h1.1 hr ?_ (by decide) (by decide)
    simp only [userStackTop, userStackPages, pageSize]
    omega

theorem mmapPages_ran {r va : ℕ} (pages : ℕ) (hg : Good role m) (hr : role r = .root)
    (hva : va % pageSize = 0) :
    Prog.Wp (mmapPages r va pages) m (fun res m' =>
      ∃ role', Ran (m.view r) r ((List.range pages).map fun i => va + i * pageSize) res.isOk role m
        role' m') Prog.Never := by
  refine newPages_ran _ (List.range pages) hg hr (hg.sees (Or.inl hr)) fun i _ role m hg hr => ?_
  refine (pageAlloc_one hg).bind fun res m1 h1 => ?_
  cases res with
  | none =>
    obtain ⟨rfl, h0⟩ := h1
    exact Prog.wp_pure.mpr ⟨role, .exhausted hg h0⟩
  | some q =>
    have hva' : (va + i * pageSize) % pageSize = 0 := by
      simp only [pageSize] at *
      omega
    refine (map_new_spec hg h1.1 hr hva' (by decide) (by decide)).bind fun res m2 h2 => ?_
    cases res with
    | ok u => exact Prog.wp_pure.mpr h2
    | error e => exact Prog.wp_pure.mpr h2

theorem mmapPages_spec {r va : ℕ} (pages : ℕ) (hg : Good role m) (hr : role r = .root)
    (hva : va % pageSize = 0) :
    Prog.Wp (mmapPages r va pages) m (fun res m' =>
      ∃ role', NewPages r ((List.range pages).map fun i => va + i * pageSize) res.isOk role m
        role' m') Prog.Never := by
  refine (mmapPages_ran pages hg hr hva).mono ?_ fun _ h => h
  rintro res m' ⟨role', h⟩
  exact ⟨role', h.pages⟩

/-! ### Program images -/

namespace Elf

theorem byteAt_ok {b : List UInt8} {off : ℕ} (h : off < b.length) : ∃ v, byteAt b off = .ok v := by
  unfold byteAt
  rw [List.getElem?_eq_getElem h]
  exact ⟨_, rfl⟩

theorem readLe_ok {b : List UInt8} {off n : ℕ} (h : off + n ≤ b.length) :
    ∃ v, readLe b off n = .ok v := by
  induction n generalizing off with
  | zero => exact ⟨0, rfl⟩
  | succ n ih =>
    obtain ⟨lo, hlo⟩ := @byteAt_ok b off (by omega)
    obtain ⟨hi, hhi⟩ := @ih (off + 1) (by omega)
    exact ⟨lo + 256 * hi, by simp [readLe, hlo, hhi, bind, Except.bind, pure, Except.pure]⟩

/-- A file header is read without a panic. -/
theorem readHeader_ok (image : List UInt8) : ∃ r, readHeader image = .ok r := by
  unfold readHeader
  split_ifs with h1
  · exact ⟨_, rfl⟩
  · exact ⟨_, rfl⟩
  · have hlen : 64 ≤ image.length := by
      by_contra hc
      exact h1 (Or.inl (by omega))
    obtain ⟨v1, e1⟩ := @readLe_ok image 18 2 (by omega)
    obtain ⟨v2, e2⟩ := @readLe_ok image 16 2 (by omega)
    obtain ⟨v3, e3⟩ := @readLe_ok image 24 8 (by omega)
    obtain ⟨v4, e4⟩ := @readLe_ok image 32 8 (by omega)
    obtain ⟨v5, e5⟩ := @readLe_ok image 54 2 (by omega)
    obtain ⟨v6, e6⟩ := @readLe_ok image 56 2 (by omega)
    simp only [readU16, readU64, e1, e2, e3, e4, e5, e6, bind, Except.bind, pure, Except.pure]
    split_ifs
    · exact ⟨_, rfl⟩
    · exact ⟨_, rfl⟩
    · exact ⟨_, rfl⟩

theorem checkedAdd_error {a b : ℕ} {f : Fault} (h : checkedAdd a b = .error f) :
    f = .panic .overflow := by
  unfold checkedAdd at h
  split_ifs at h
  simpa using h.symm

/-- A program header is inside the file once its bound is checked, so the only
panic is an overflow of its arithmetic. -/
theorem readSegment_error {image : List UInt8} {phoff phentsize i : ℕ} {f : Fault}
    (h : readSegment image phoff phentsize i = .error f) : f = .panic .overflow := by
  unfold readSegment at h
  cases h1 : checkedAdd phoff (i * phentsize) with
  | error e =>
    simp only [h1, bind, Except.bind, Except.error.injEq] at h
    rw [← h]
    exact checkedAdd_error h1
  | ok ph =>
    cases h2 : checkedAdd ph 56 with
    | error e =>
      simp only [h1, h2, bind, Except.bind, Except.error.injEq] at h
      rw [← h]
      exact checkedAdd_error h2
    | ok phEnd =>
      obtain ⟨-, rfl⟩ := checkedAdd_ok.mp h2
      by_cases hlen : image.length < ph + 56
      · simp [h1, h2, hlen, bind, Except.bind, pure, Except.pure] at h
      · obtain ⟨v1, e1⟩ := @readLe_ok image ph 4 (by omega)
        obtain ⟨v2, e2⟩ := @readLe_ok image (ph + 4) 4 (by omega)
        obtain ⟨v3, e3⟩ := @readLe_ok image (ph + 8) 8 (by omega)
        obtain ⟨v4, e4⟩ := @readLe_ok image (ph + 16) 8 (by omega)
        obtain ⟨v5, e5⟩ := @readLe_ok image (ph + 32) 8 (by omega)
        obtain ⟨v6, e6⟩ := @readLe_ok image (ph + 40) 8 (by omega)
        cases h3 : checkedAdd v3 v5 with
        | error e =>
          simp only [h1, h2, hlen, readU32, readU64, e1, e2, e3, e4, e5, e6, h3, bind, Except.bind,
            pure, Except.pure, if_false] at h
          split_ifs at h
          rw [← Except.error.inj h]
          exact checkedAdd_error h3
        | ok fileEnd =>
          simp only [h1, h2, hlen, readU32, readU64, e1, e2, e3, e4, e5, e6, h3, bind, Except.bind,
            pure, Except.pure, if_false] at h
          split_ifs at h

/-- Segments start on a page boundary. -/
theorem readSegment_aligned {image : List UInt8} {phoff phentsize i : ℕ} {seg : Segment}
    (h : readSegment image phoff phentsize i = .ok (.ok (some seg))) :
    seg.vaddr % pageSize = 0 := by
  unfold readSegment at h
  simp only [bind, Except.bind, pure, Except.pure] at h
  repeat' split at h
  all_goals first
    | (simp at h; done)
    | (rename_i hal
       simp only [Except.ok.injEq, Option.some.injEq] at h
       rw [← h]
       simpa using hal)

/-- Program header `i` makes the loader map the page at `va`. -/
def LoadsAt (image : List UInt8) (phoff phentsize i va : ℕ) : Prop :=
  ∃ seg stop, readSegment image phoff phentsize i = .ok (.ok (some seg)) ∧
    seg.endVa = .ok stop ∧ va ∈ seg.pageVas stop

/-- The arithmetic of program header `i` does not overflow. -/
def SoundAt (image : List UInt8) (phoff phentsize i : ℕ) : Prop :=
  (∃ r, readSegment image phoff phentsize i = .ok r) ∧
    ∀ seg, readSegment image phoff phentsize i = .ok (.ok (some seg)) → ∃ stop, seg.endVa = .ok stop

/-- Some PT_LOAD segment of the image covers the page at `va`. -/
def Loads (image : List UInt8) (va : ℕ) : Prop :=
  ∃ entry phoff phentsize phnum, readHeader image = .ok (.ok (entry, phoff, phentsize, phnum)) ∧
    ∃ i < phnum, LoadsAt image phoff phentsize i va

/-- No program header of the image overflows. -/
def Sound (image : List UInt8) : Prop :=
  ∀ entry phoff phentsize phnum, readHeader image = .ok (.ok (entry, phoff, phentsize, phnum)) →
    ∀ i < phnum, SoundAt image phoff phentsize i

theorem endVa_error {seg : Segment} {f : Fault} (h : seg.endVa = .error f) :
    f = .panic .overflow := by
  unfold Segment.endVa at h
  cases h1 : checkedAdd seg.vaddr seg.memsz with
  | error e =>
    simp only [h1, bind, Except.bind, Except.error.injEq] at h
    rw [← h]
    exact checkedAdd_error h1
  | ok memEnd =>
    simp only [h1, bind, Except.bind, pageUp] at h
    cases h2 : checkedAdd memEnd pageSize with
    | error e =>
      simp only [h2, Except.error.injEq] at h
      rw [← h]
      exact checkedAdd_error h2
    | ok a =>
      simp only [h2, pure, Except.pure] at h
      cases h

theorem Segment.pteFlags_spec (seg : Segment) :
    seg.pteFlags < 2 ^ 10 ∧ seg.pteFlags.testBit 4 = true := by
  unfold Segment.pteFlags
  split_ifs <;> decide

theorem Segment.pageBytes_length (seg : Segment) (image : List UInt8) (va : ℕ) :
    (seg.pageBytes image va).length ≤ pageSize := by
  unfold Segment.pageBytes
  dsimp only
  split_ifs
  · simp only [List.length_take]
    omega
  · simp

theorem loadPage_spec {r va : ℕ} (image : List UInt8) (seg : Segment) (hg : Good role m)
    (hr : role r = .root) (hva : va % pageSize = 0) :
    Prog.Wp (loadPage image r seg va) m (fun res m' =>
      ∃ role', Attempt r va res.isOk role m role' m') Prog.Never := by
  unfold loadPage
  refine (pageAlloc_one hg).bind fun res m1 h1 => ?_
  cases res with
  | none =>
    obtain ⟨rfl, h0⟩ := h1
    exact Prog.wp_pure.mpr ⟨role, .exhausted hg h0⟩
  | some q =>
    dsimp only
    rw [Prog.wp_bind, Prog.wp_modify]
    have hlen := seg.pageBytes_length image va
    have hgot : Got m q { m1 with mem := writeBytes m1.mem q (seg.pageBytes image va) } := by
      refine h1.1.fill fun a ha => ?_
      simp only [writeBytes]
      rw [if_neg (by omega)]
    exact map_new_spec hg hgot hr hva seg.pteFlags_spec.1 seg.pteFlags_spec.2

/-- The pages of the segments in the list and the end of the last one; `none` if one of the
headers is rejected. -/
def segmentPages (image : List UInt8) (phoff phentsize : ℕ) : List ℕ → Option (List ℕ × ℕ)
  | [] => some ([], 0)
  | i :: is =>
    match readSegment image phoff phentsize i with
    | .ok (.ok none) => segmentPages image phoff phentsize is
    | .ok (.ok (some seg)) =>
      match seg.endVa, segmentPages image phoff phentsize is with
      | .ok stop, some (vas, top) => some (seg.pageVas stop ++ vas, max stop top)
      | _, _ => none
    | _ => none

/-- The pages of an image that the loader accepts. -/
def imagePages (image : List UInt8) : Option (List ℕ) :=
  match readHeader image with
  | .ok (.ok (_, phoff, phentsize, phnum)) =>
    match segmentPages image phoff phentsize (List.range phnum) with
    | some (vas, top) => if top = 0 then none else some vas
    | none => none
  | _ => none

/-- Pages of the segments in the list were mapped. The loop returns if all headers are
accepted and the plan for their pages succeeds. -/
def Loading (image : List UInt8) (phoff phentsize : ℕ) (is : List ℕ) (r : ℕ) (b : Present)
    (brk : ℕ) (res : Except String ℕ) (role : ℕ → Role) (m : Machine) (m' : Machine) : Prop :=
  ∃ role' vas ok', Ran b r vas ok' role m role' m' ∧
    (∀ va ∈ vas, ∃ i ∈ is, LoadsAt image phoff phentsize i va) ∧
    match res with
    | .ok stop => ok' = true ∧
        ∃ top, segmentPages image phoff phentsize is = some (vas, top) ∧ stop = max brk top
    | .error _ => ∀ all top left, segmentPages image phoff phentsize is = some (all, top) →
        b.plan m.pages.freeFrames all ≠ .enough left

theorem loadSegments_spec {r : ℕ} {b : Present} (image : List UInt8) (phoff phentsize : ℕ)
    (is : List ℕ) (brk : ℕ) (hg : Good role m) (hr : role r = .root) (hs : Sees b r role m) :
    Prog.Wp (loadSegments image r phoff phentsize is brk) m (fun res m' =>
      Loading image phoff phentsize is r b brk res role m m')
      (fun f => f = .panic .overflow ∧ ∃ i ∈ is, ¬ SoundAt image phoff phentsize i) := by
  induction is generalizing b role m brk with
  | nil => exact Prog.wp_pure.mpr ⟨role, [], true, .nil hg hs, by simp, rfl, 0, rfl, by simp⟩
  | cons i is ih =>
    have htail : ∀ f : Fault, (f = .panic .overflow ∧ ∃ j ∈ is, ¬ SoundAt image phoff phentsize j) →
        f = .panic .overflow ∧ ∃ j ∈ i :: is, ¬ SoundAt image phoff phentsize j := by
      rintro f ⟨hf, j, hj, hs⟩
      exact ⟨hf, j, by simp [hj], hs⟩
    rw [loadSegments, Prog.wp_bind, Prog.wp_ofExcept]
    cases hseg : readSegment image phoff phentsize i with
    | error f =>
      refine ⟨readSegment_error hseg, i, by simp, fun hs => ?_⟩
      obtain ⟨r', hr'⟩ := hs.1
      rw [hseg] at hr'
      cases hr'
    | ok res =>
      dsimp only
      cases res with
      | error e =>
        refine Prog.wp_pure.mpr ⟨role, [], true, .nil hg hs, by simp, ?_⟩
        intro all top left hall
        simp [segmentPages, hseg] at hall
      | ok o =>
        cases o with
        | none =>
          have hsame : segmentPages image phoff phentsize (i :: is) =
              segmentPages image phoff phentsize is := by simp [segmentPages, hseg]
          refine (ih brk hg hr hs).mono ?_ htail
          rintro res m' ⟨role', vas, ok', h1, h2, h3⟩
          refine ⟨role', vas, ok', h1, fun va hva => ?_, ?_⟩
          · obtain ⟨j, hj, hl⟩ := h2 va hva
            exact ⟨j, by simp [hj], hl⟩
          · rw [hsame]
            exact h3
        | some seg =>
          dsimp only
          rw [Prog.wp_bind, Prog.wp_ofExcept]
          cases hend : seg.endVa with
          | error f =>
            refine ⟨endVa_error hend, i, by simp, fun hs => ?_⟩
            obtain ⟨stop, hstop⟩ := hs.2 seg hseg
            rw [hend] at hstop
            cases hstop
          | ok stop =>
            dsimp only
            have hal := readSegment_aligned hseg
            have hvas : ∀ va ∈ seg.pageVas stop, va % pageSize = 0 := by
              intro va hva
              obtain ⟨j, -, rfl⟩ := List.mem_map.mp hva
              simp only [pageSize] at *
              omega
            have hloads : ∀ va ∈ seg.pageVas stop, LoadsAt image phoff phentsize i va :=
              fun va hva => ⟨seg, stop, hseg, hend, hva⟩
            have hcons : ∀ all top, segmentPages image phoff phentsize (i :: is) = some (all, top) →
                ∃ vas top', segmentPages image phoff phentsize is = some (vas, top') ∧
                  all = seg.pageVas stop ++ vas := by
              intro all top hall
              cases hrest : segmentPages image phoff phentsize is with
              | none => simp [segmentPages, hseg, hend, hrest] at hall
              | some rest =>
                simp only [segmentPages, hseg, hend, hrest, Option.some.injEq, Prod.mk.injEq] at hall
                exact ⟨rest.1, rest.2, rfl, hall.1.symm⟩
            refine Prog.Wp.bind_total (newPages_ran id (seg.pageVas stop) hg hr hs
              fun va hva _ _ hg hr => loadPage_spec image seg hg hr (hvas va hva)) ?_
            rintro res m1 ⟨role1, h1⟩
            rw [List.map_id] at h1
            cases res with
            | error e =>
              refine Prog.wp_pure.mpr ⟨role1, seg.pageVas stop, false, h1,
                fun va hva => ⟨i, by simp, hloads va hva⟩, ?_⟩
              intro all top left hall
              obtain ⟨vas, top', -, rfl⟩ := hcons all top hall
              exact (h1.stop vas).not_enough left
            | ok u =>
              have hgrows := h1.pages.grows
              refine (ih _ hgrows.good ((hgrows.root_iff r).mpr hr) h1.enough.2).mono ?_ htail
              rintro res m2 ⟨role2, vas, ok', h2, h3, h4⟩
              refine ⟨role2, seg.pageVas stop ++ vas, ok', h1.trans hg h2, fun va hva => ?_, ?_⟩
              · rcases List.mem_append.mp hva with hva | hva
                · exact ⟨i, by simp, hloads va hva⟩
                · obtain ⟨j, hj, hl⟩ := h3 va hva
                  exact ⟨j, by simp [hj], hl⟩
              · cases res with
                | ok v =>
                  obtain ⟨h5, top, h6, h7⟩ := h4
                  refine ⟨h5, max stop top, by simp [segmentPages, hseg, hend, h6], ?_⟩
                  rw [h7, max_assoc]
                | error e =>
                  intro all top left hall
                  obtain ⟨vas', top', hrest, rfl⟩ := hcons all top hall
                  rw [Present.plan_append, h1.enough.1]
                  exact h4 vas' top' left hrest

/-- The loader maps the pages of an image in order; it succeeds if the image is accepted and
the plan for its pages succeeds. -/
theorem load_spec {r : ℕ} {b : Present} (image : List UInt8) (hg : Good role m)
    (hr : role r = .root) (hs : Sees b r role m) :
    Prog.Wp (load image r) m (fun res m' =>
      ∃ role' vas ok, Ran b r vas ok role m role' m' ∧ (∀ va ∈ vas, Loads image va) ∧
        match res with
        | .ok _ => ok = true ∧ imagePages image = some vas
        | .error _ => ∀ all left, imagePages image = some all →
            b.plan m.pages.freeFrames all ≠ .enough left)
      (fun f => f = .panic .overflow ∧ ¬ Sound image) := by
  unfold load
  rw [Prog.wp_bind, Prog.wp_ofExcept]
  obtain ⟨hdr, hhdr⟩ := readHeader_ok image
  rw [hhdr]
  cases hdr with
  | error e =>
    refine Prog.wp_pure.mpr ⟨role, [], true, .nil hg hs, by simp, ?_⟩
    intro all left hall
    simp [imagePages, hhdr] at hall
  | ok h =>
    obtain ⟨entry, phoff, phentsize, phnum⟩ := h
    dsimp only
    rw [Prog.wp_bind]
    refine (loadSegments_spec image phoff phentsize (List.range phnum) 0 hg hr hs).mono ?_ ?_
    · rintro res m1 ⟨role1, vas, ok, h1, h2, h3⟩
      have hloads : ∀ va ∈ vas, Loads image va := by
        intro va hva
        obtain ⟨i, hi, hl⟩ := h2 va hva
        exact ⟨entry, phoff, phentsize, phnum, hhdr, i, List.mem_range.mp hi, hl⟩
      cases res with
      | error e =>
        refine Prog.wp_pure.mpr ⟨role1, vas, ok, h1, hloads, ?_⟩
        intro all left hall
        cases hseg : segmentPages image phoff phentsize (List.range phnum) with
        | none => simp [imagePages, hhdr, hseg] at hall
        | some seg =>
          simp only [imagePages, hhdr, hseg] at hall
          split_ifs at hall
          rw [← Option.some.inj hall]
          exact h3 seg.1 seg.2 left hseg
      | ok brk =>
        obtain ⟨hok, top, hseg, rfl⟩ := h3
        dsimp only
        split_ifs with htop
        · refine Prog.wp_pure.mpr ⟨role1, vas, ok, h1, hloads, ?_⟩
          intro all left hall
          simp [imagePages, hhdr, hseg, htop] at hall
        · exact Prog.wp_pure.mpr ⟨role1, vas, ok, h1, hloads, hok, by
            simp [imagePages, hhdr, hseg, htop]⟩
    · rintro f ⟨hf, i, hi, hs⟩
      exact ⟨hf, fun hsound => hs (hsound entry phoff phentsize phnum hhdr i (List.mem_range.mp hi))⟩

end Elf

/-! ### Whole address spaces -/

/-- A new root `q` was made and pages were mapped below the entries `P`. -/
structure Adds (q : ℕ) (P : Places) (role : ℕ → Role) (m : Machine) (role' : ℕ → Role)
    (m' : Machine) : Prop where
  good : Good role' m'
  root : role' q = .root
  keep : ∀ p, role p ≠ .other → role' p = role p
  fresh : ∀ p, role p = .other → role' p ≠ .other → ¬ m.Held p ∧ (p = q ∨ Below role' P p)
  free : ¬ m.Held q
  held : ∀ p, m.Held p → m'.Held p
  pte : ∀ t l i, (role t).level = some l → i < 512 →
    m'.pte t i = m.pte t i ∨ pteValid (m.pte t i) = false ∧ AtOrBelow role P t i
  kernel : ∀ i, i < 512 → m'.pte m.kernelRootPa i = m.pte m.kernelRootPa i
  kernelRootPa : m'.kernelRootPa = m.kernelRootPa
  account : m'.account = m.account
  firstFrame : m'.pages.firstFrame = m.pages.firstFrame
  log : ∃ fs : List ℕ, m'.log = m.log ++ fs.map (.alloc · m.account) ∧
    m.pages.freeFrames = m'.pages.freeFrames + fs.length ∧
    ∀ f ∈ fs, ¬ m.Held (frameToAddr f) ∧ m'.Held (frameToAddr f)
  /-- The entries of the new root outside what was mapped are the kernel's. -/
  copy : ∀ i, i < 512 → i ≠ userRootSlot → ¬ P q i → m'.pte q i = m.pte m.kernelRootPa i

theorem FreshRoot.adds {P : Places} {q : ℕ} {m1 : Machine} (hg : Good role m)
    (h : FreshRoot role m q m1) (hw : Grows P (Function.update role q .root) m1 role' m') :
    Adds q P role m role' m' := by
  have hroot : role' q = .root := (hw.root_iff q).mpr (FreshRoot.role_self role q)
  have hkeep' : ∀ p, role p ≠ .other → Function.update role q .root p = role p :=
    fun p hp => h.keep hg hp
  have hkeep : ∀ p, role p ≠ .other → role' p = role p := by
    intro p hp
    rw [hw.keep p (by rw [hkeep' p hp]; exact hp), hkeep' p hp]
  refine ⟨hw.good, hroot, hkeep, ?_, h.got.free, ?_, ?_, ?_, hw.kernelRootPa.trans h.got.kernelRootPa,
    hw.account.trans h.got.account, hw.firstFrame.trans h.got.firstFrame, ?_, ?_⟩
  · intro p hp hp'
    by_cases he : p = q
    · exact ⟨he ▸ h.got.free, Or.inl he⟩
    · obtain ⟨h1, h2⟩ := hw.fresh p (by simpa [he] using hp) hp'
      exact ⟨fun hh => h1 ((h.got.held p).mpr (Or.inl hh)), Or.inr h2⟩
  · exact fun p hp => hw.held p ((h.got.held p).mpr (Or.inl hp))
  · intro t l i ht hi
    have hne := Role.ne_other_of_level ht
    have hpte := h.got.pte hg ht hi
    rcases hw.pte t l i (by rw [hkeep' t hne]; exact ht) hi with he | ⟨he, hat⟩
    · exact Or.inl (he.trans hpte)
    · refine Or.inr ⟨by rw [← hpte]; exact he, hat.imp_right ?_⟩
      rintro ⟨r, k, hP, hu⟩
      exact ⟨r, k, hP, hu.reflect hg.tables hkeep' hne⟩
  · intro i hi
    rw [← h.got.kernelRootPa, hw.kernel q (FreshRoot.role_self role q) i hi, h.got.kernelRootPa]
    exact h.got.pte hg hg.tables.kroot_level hi
  · obtain ⟨fs, h1, h2, h3⟩ := hw.log
    refine ⟨frameOf q :: fs, ?_, ?_, ?_⟩
    · rw [h1, h.got.log, h.got.account]
      simp
    · have := h.got.freeFrames
      simp only [List.length_cons]
      omega
    · intro f hf
      rcases List.mem_cons.mp hf with rfl | hf
      · rw [h.got.frame.frameToAddr]
        exact ⟨h.got.free, hw.held q h.got.mine⟩
      · exact ⟨fun hh => (h3 f hf).1 ((h.got.held _).mpr (Or.inl hh)), (h3 f hf).2⟩
  · intro i hi hne hnP
    have hlevel : (Function.update role q Role.root q).level = some 2 := by simp [Role.level]
    rcases hw.pte q 2 i hlevel hi with he | ⟨-, hP | ⟨r, k, -, hu⟩⟩
    · exact he.trans (h.copy i hi hne)
    · exact absurd hP hnP
    · exact (hu.not_root (Or.inl (FreshRoot.role_self role q))).elim

/-- A new address space with pages at `vas`; `ok` if all of them were mapped. -/
structure NewSpace (q : ℕ) (vas : List ℕ) (ok : Bool) (role : ℕ → Role) (m : Machine)
    (role' : ℕ → Role) (m' : Machine) : Prop where
  adds : Adds q (SlotsOf q m.kernelRootPa (slotsOf vas)) role m role' m'
  noLoose : ok = true → NoLoose m role' m'
  cost : m.pages.freeFrames ≤ m'.pages.freeFrames + (1 + 3 * vas.length)
  pages : ∀ va, vpn va 2 = userRootSlot → HasPage role' m' q va → ∃ va' ∈ vas, SamePage va va'
  mapped : ok = true → ∀ va ∈ vas, HasPage role' m' q va
  fails : (∀ va ∈ vas, vpn va 2 = userRootSlot) → (vas.Pairwise fun a b => ¬ SamePage b a) →
    1 + 3 * vas.length ≤ m.pages.freeFrames → ok = true

theorem FreshRoot.newSpace {q : ℕ} {vas : List ℕ} {ok : Bool} {m1 : Machine} (hg : Good role m)
    (h : FreshRoot role m q m1) (hw : NewPages q vas ok (Function.update role q .root) m1 role' m') :
    NewSpace q vas ok role m role' m' := by
  have hfree := h.got.freeFrames
  refine ⟨h.adds hg (h.got.kernelRootPa ▸ hw.grows), ?_, ?_, ?_, hw.mapped, ?_⟩
  · intro ho p hp
    rcases hw.noLoose ho p hp with h1 | h1
    · rcases (h.got.held p).mp h1 with h0 | rfl
      · exact Or.inl h0
      · exact Or.inr (by rw [(hw.grows.root_iff p).mpr (FreshRoot.role_self role p)]; simp)
    · exact Or.inr h1
  · have := hw.cost
    omega
  · intro va hva hp
    rcases hw.pages va hp with h1 | h1
    · exact absurd h1 (h.no_page hva)
    · exact h1
  · intro hwin hpair hcost
    by_contra ho
    rcases hw.fails (by simpa using ho) with h1 | ⟨va, hva, h1⟩ | h1
    · omega
    · exact h.no_page (hwin va hva) h1
    · exact h1 hpair

theorem stackVa_slot {i : ℕ} (hi : i < userStackPages) : vpn (stackVa i) 2 = userRootSlot := by
  rw [vpn_eq]
  simp only [stackVa, userStackTop, userStackPages, pageSize, userRootSlot] at *
  norm_num
  omega

/-- The pages of an image and its stack. -/
def ImagePage (image : List UInt8) (va : ℕ) : Prop :=
  Elf.Loads image va ∨ ∃ i < userStackPages, va = stackVa i

/-- The pages of a new address space, if the loader accepts the image. -/
def spacePages (image : List UInt8) : Option (List ℕ) :=
  (Elf.imagePages image).map (· ++ stackVas)

/-- The loader accepts the image and there are frames for the whole address space. -/
def SpaceFits (m : Machine) (image : List UInt8) : Prop :=
  ∃ vas left, spacePages image = some vas ∧
    m.newView.plan (m.pages.freeFrames - 1) vas = .enough left

theorem buildAddressSpace_spec (image : List UInt8) (hg : Good role m) :
    Prog.Wp (buildAddressSpace image) m (fun res m' =>
      (m' = m ∧ res.isOk = false ∧ m.pages.freeFrames = 0) ∨
      ∃ q vas ok role', NewSpace q vas ok role m role' m' ∧
        (∀ va ∈ vas, ImagePage image va) ∧
        (∀ s, res = .ok s → ok = true ∧ s.1 = q) ∧ (res.isOk = true ↔ SpaceFits m image))
      (fun f => f = .panic .overflow ∧ ¬ Elf.Sound image) := by
  unfold buildAddressSpace
  refine Prog.Wp.bind_total (newUserRoot_spec hg) fun res m1 h1 => ?_
  cases res with
  | none => exact Prog.wp_pure.mpr (Or.inl ⟨h1.1, rfl, h1.2⟩)
  | some q =>
    change FreshRoot role m q m1 at h1
    have hroot := FreshRoot.role_self role q
    have hsees := h1.sees hg
    have hfree : m1.pages.freeFrames = m.pages.freeFrames - 1 := by
      have := h1.got.freeFrames
      omega
    refine (Elf.load_spec image h1.good hroot hsees).bind ?_
    rintro res m2 ⟨role2, vas, ok, h2, h3, h4⟩
    have hvas : ∀ va ∈ vas, ImagePage image va := fun va hva => Or.inl (h3 va hva)
    cases res with
    | error e =>
      refine Prog.wp_pure.mpr (Or.inr ⟨q, vas, ok, role2, h1.newSpace hg h2.pages, hvas, by simp, ?_⟩)
      simp only [isOk_error, Bool.false_eq_true, false_iff]
      rintro ⟨all, left, hall, hplan⟩
      obtain ⟨img, himg, rfl⟩ := Option.map_eq_some_iff.mp hall
      rw [← hfree, Present.plan_append] at hplan
      cases hp : m.newView.plan m1.pages.freeFrames img with
      | enough left' => exact h4 img left' himg hp
      | dry => simp [hp] at hplan
      | stuck => simp [hp] at hplan
    | ok loaded =>
      obtain ⟨rfl, himg⟩ := h4
      obtain ⟨hplan, hsees2⟩ := h2.enough
      have hgrows := h2.pages.grows
      refine Prog.Wp.bind_total (mapStack_spec hgrows.good ((hgrows.root_iff q).mpr hroot) hsees2) ?_
      rintro res m3 ⟨role3, h5⟩
      have hvas' : ∀ va ∈ vas ++ stackVas, ImagePage image va := by
        intro va hva
        rcases List.mem_append.mp hva with hva | hva
        · exact hvas va hva
        · obtain ⟨i, hi, rfl⟩ := List.mem_map.mp hva
          exact Or.inr ⟨i, List.mem_range.mp hi, rfl⟩
      have hall := h2.trans h1.good h5
      have hspace := h1.newSpace hg hall.pages
      have hsp : spacePages image = some (vas ++ stackVas) := by rw [spacePages, himg, Option.map_some]
      cases res with
      | error e =>
        refine Prog.wp_pure.mpr (Or.inr ⟨q, _, _, role3, hspace, hvas', by simp, ?_⟩)
        simp only [isOk_error, Bool.false_eq_true, false_iff]
        rintro ⟨all, left, hall', hplan'⟩
        rw [hsp, Option.some.injEq] at hall'
        subst hall'
        rw [← hfree] at hplan'
        exact hall.not_enough left hplan'
      | ok u =>
        refine Prog.wp_pure.mpr (Or.inr ⟨q, _, _, role3, hspace, hvas', fun s hs => ?_, ?_⟩)
        · rw [← Except.ok.inj hs]
          exact ⟨rfl, rfl⟩
        · simp only [isOk_ok, true_iff]
          exact ⟨_, _, hsp, by rw [← hfree]; exact hall.enough.1⟩

end LightOS
