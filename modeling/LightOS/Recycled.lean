import LightOS.Lib.Alike
import LightOS.Hardware

/-!
# What free frames hold does not matter

Two machines that differ only in the contents of free frames cannot be told apart
by any operation of the memory subsystem: a frame is zeroed when it is handed out,
and everything the kernel reads lies in frames in use.
-/
namespace LightOS
open Lib PageAllocator

/-- The address lies in no free frame. -/
def Machine.InUse (m : Machine) (a : ℕ) : Prop :=
  ∀ q, m.IsFrame q → ¬ m.Held q → a < q ∨ q + pageSize ≤ a

/-- The machines are the same but for memory outside `A`. -/
structure SameOn (A : ℕ → Prop) (m m' : Machine) : Prop where
  pages : m'.pages = m.pages
  kernelRootPa : m'.kernelRootPa = m.kernelRootPa
  account : m'.account = m.account
  log : m'.log = m.log
  mem : ∀ a, A a → m'.mem a = m.mem a

/-- The machines differ only in the contents of free frames. -/
abbrev SameInUse (m m' : Machine) : Prop := SameOn m.InUse m m'

variable {A B : ℕ → Prop} {role : ℕ → Role} {m m' m1 m1' : Machine} {r t va : ℕ}

theorem Machine.Held.inUse {q a : ℕ} (h : m.Held q) (h1 : q ≤ a) (h2 : a < q + pageSize) :
    m.InUse a := by
  intro p hp hfree
  have hne : q ≠ p := by
    rintro rfl
    exact hfree h
  rcases frames_disjoint h.aligned hp.1 hne with hd | hd
  · left
    omega
  · right
    omega

namespace SameOn

theorem mono (h : SameOn A m m') (hB : ∀ a, B a → A a) : SameOn B m m' :=
  ⟨h.pages, h.kernelRootPa, h.account, h.log, fun a ha => h.mem a (hB a ha)⟩

/-- A table in the common part reads the same. -/
theorem pte (h : SameOn A m m') {i : ℕ} (hi : i < 512)
    (ht : ∀ a, t ≤ a → a < t + pageSize → A a) : m'.pte t i = m.pte t i :=
  Machine.pte_congr hi fun b h1 h2 => h.mem b (ht b h1 h2)

/-- The same store on both sides. -/
theorem store (h : SameOn A m m') (f : Mem → Mem)
    (hf : ∀ a, f m'.mem a = f m.mem a ∨ f m'.mem a = m'.mem a ∧ f m.mem a = m.mem a) :
    SameOn A { m with mem := f m.mem } { m' with mem := f m'.mem } := by
  refine ⟨h.pages, h.kernelRootPa, h.account, h.log, fun a ha => ?_⟩
  rcases hf a with he | ⟨h1, h2⟩
  · exact he
  · exact h1.trans ((h.mem a ha).trans h2.symm)

theorem writeBytes (h : SameOn A m m') (a : ℕ) (bs : List UInt8) :
    SameOn A { m with mem := Lib.writeBytes m.mem a bs }
      { m' with mem := Lib.writeBytes m'.mem a bs } := by
  refine h.store (Lib.writeBytes · a bs) fun b => ?_
  simp only [Lib.writeBytes]
  split_ifs
  · exact .inl rfl
  · exact .inr ⟨rfl, rfl⟩

theorem setPte (h : SameOn A m m') (t i v : ℕ) : SameOn A (m.setPte t i v) (m'.setPte t i v) := by
  refine h.store (writeWord · (t + 8 * i) v) fun b => ?_
  simp only [writeWord]
  split_ifs
  · exact .inl rfl
  · exact .inr ⟨rfl, rfl⟩

/-- Copies from a common source. -/
theorem copyBytes (h : SameOn A m m') {src dst n : ℕ} (hs : ∀ a, src ≤ a → a < src + n → A a) :
    SameOn A { m with mem := Lib.copyBytes m.mem src dst n }
      { m' with mem := Lib.copyBytes m'.mem src dst n } := by
  refine h.store (Lib.copyBytes · src dst n) fun b => ?_
  simp only [Lib.copyBytes]
  split_ifs with hb
  · exact .inl (h.mem _ (hs _ (by omega) (by omega)))
  · exact .inr ⟨rfl, rfl⟩

end SameOn

namespace SameInUse

theorem pte (h : SameInUse m m') {i : ℕ} (ht : m.Held t) (hi : i < 512) :
    m'.pte t i = m.pte t i := SameOn.pte h hi fun _ h1 h2 => ht.inUse h1 h2

theorem level_pte (h : SameInUse m m') (hg : Good role m) {l i : ℕ} (ht : (role t).level = some l)
    (hi : i < 512) : m'.pte t i = m.pte t i :=
  h.pte (hg.tables.held t (Role.ne_other_of_level ht)) hi

theorem writeBytes (h : SameInUse m m') (a : ℕ) (bs : List UInt8) :
    SameInUse { m with mem := Lib.writeBytes m.mem a bs }
      { m' with mem := Lib.writeBytes m'.mem a bs } := SameOn.writeBytes h a bs

theorem setPte (h : SameInUse m m') (t i v : ℕ) :
    SameInUse (m.setPte t i v) (m'.setPte t i v) := SameOn.setPte h t i v

theorem setAccount (h : SameInUse m m') (pid : ℕ) :
    SameInUse { m with account := pid } { m' with account := pid } :=
  ⟨h.pages, h.kernelRootPa, rfl, h.log, h.mem⟩

end SameInUse

/-! ### The allocator -/

/-- Frames are zeroed when they are handed out. -/
theorem pageAlloc_alike (n : ℕ) (hc : m.pages.Consistent) (h : SameInUse m m') :
    Prog.Alike SameInUse (pageAlloc n m) (pageAlloc n m') := by
  have hspec := pageAlloc_spec n hc
  unfold pageAlloc at *
  refine .get_bind ?_
  rw [Prog.wp_bind, Prog.wp_get] at hspec
  rw [h.pages]
  cases ha : m.pages.alloc n with
  | none => exact .pure _ h
  | some res =>
    obtain ⟨addr, pages⟩ := res
    rw [ha] at hspec
    have hh := hspec.ok rfl
    refine .set_bind (.pure _ ?_)
    rw [h.log, h.account]
    refine ⟨rfl, h.kernelRootPa, rfl, rfl, fun a ha => ?_⟩
    change fillZero m'.mem addr (n * pageSize) a = fillZero m.mem addr (n * pageSize) a
    unfold fillZero
    split_ifs with hin
    · rfl
    · refine h.mem a fun q hq hfree => ?_
      by_cases hq' : ∃ i < n, q = addr + i * pageSize
      · obtain ⟨i, hi, rfl⟩ := hq'
        have : i * pageSize + pageSize ≤ n * pageSize := by
          rw [← Nat.succ_mul]
          exact Nat.mul_le_mul_right _ hi
        omega
      · refine ha q ((hh.isFrame_iff q).mpr hq) fun hheld => ?_
        exact ((hh.held q).mp hheld).elim hfree hq'

/-- Returning frames looks at the bitmap only. -/
theorem pageFree_same (addr n : ℕ) (h : SameOn A m m') :
    Prog.Alike (SameOn A) (pageFree addr n m) (pageFree addr n m') := by
  unfold pageFree
  refine .get_bind ?_
  rw [h.pages]
  refine .ofExcept_bind fun pages _ => ?_
  rw [h.log]
  exact .ok _ ⟨rfl, h.kernelRootPa, h.account, rfl, h.mem⟩

theorem freeRange_bitmap {a a' : PageAllocator} {frame n : ℕ} (h : a.freeRange frame n = .ok a') :
    a'.firstFrame = a.firstFrame ∧ ∀ f, a.bitmap f = false → a'.bitmap f = false := by
  induction n generalizing a frame with
  | zero =>
    obtain rfl := Except.ok.inj h
    exact ⟨rfl, fun _ hf => hf⟩
  | succ n ih =>
    unfold freeRange at h
    cases hu : a.isUsed frame with
    | error e => simp [hu, bind, Except.bind] at h
    | ok b =>
      cases b with
      | false => simp [hu, bind, Except.bind] at h
      | true =>
        obtain ⟨h1, h2⟩ := ih (a := a.setFree frame) (by simpa [hu, bind, Except.bind] using h)
        refine ⟨h1, fun f hf => h2 f ?_⟩
        simp [setFree, hf]

theorem pageFree_inUse {addr n a : ℕ} (h : pageFree addr n m = .ok ((), m1)) (ha : m1.InUse a) :
    m.InUse a := by
  unfold pageFree at h
  rw [Prog.get_bind_ok, Prog.bind_ok] at h
  obtain ⟨pages, m2, hf, hs⟩ := h
  obtain ⟨hfree, rfl⟩ := Prog.ofExcept_ok.mp hf
  have hm1 := Prog.set_ok.mp hs
  dsimp only at hm1 hfree
  subst hm1
  unfold PageAllocator.free at hfree
  cases hstart : addrToFrame addr with
  | error e => simp [hstart, bind, Except.bind] at hfree
  | ok start =>
    cases hr : m2.pages.freeRange start n with
    | error e => simp [hstart, hr, bind, Except.bind] at hfree
    | ok a' =>
      simp only [hstart, hr, bind, Except.bind, pure, Except.pure, Except.ok.injEq] at hfree
      obtain ⟨h1, h2⟩ := freeRange_bitmap hr
      intro q hq hn
      refine ha q ?_ fun hheld => hn ⟨hq, ?_⟩
      · simp only [Machine.IsFrame, ← hfree, h1] at *
        exact hq
      · by_contra hb
        have := h2 _ (Bool.not_eq_true _ ▸ hb)
        simp only [Machine.Held, ← hfree] at hheld
        rw [this] at hheld
        exact absurd hheld.2 (by simp)

theorem pageFree_alike (addr n : ℕ) (h : SameInUse m m') :
    Prog.Alike SameInUse (pageFree addr n m) (pageFree addr n m') :=
  (pageFree_same addr n h).mono fun _ _ _ ht hs => hs.mono fun _ ha => pageFree_inUse ht ha

/-! ### Page tables -/

theorem walkLevel_alike {level : ℕ} {create : Bool} (ht : m.Held t) (hc : m.pages.Consistent)
    (h : SameInUse m m') : Prog.Alike SameInUse (PageTable.walkLevel t va level create m)
      (PageTable.walkLevel t va level create m') := by
  unfold PageTable.walkLevel
  refine .get_bind ?_
  rw [h.pte ht (vpn_lt va level)]
  split_ifs
  · exact .pure _ h
  · refine (pageAlloc_alike 1 hc h).bind fun o m1 m1' _ h1 => ?_
    cases o with
    | none => exact .pure _ h1
    | some q => exact .modify_bind (.pure _ (h1.setPte _ _ _))
  · exact .stop _
  · exact .pure _ h

theorem walk_alike {create : Bool} (hg : Good role m) (hr : role r = .root) (h : SameInUse m m') :
    Prog.Alike SameInUse (PageTable.walk r va create m) (PageTable.walk r va create m') := by
  have hroot : IsRoot role m r := .inl hr
  unfold PageTable.walk
  refine (walkLevel_alike (hg.tables.held r (by simp [hr])) hg.pages h).bind fun o m1 m1' ho h1 => ?_
  cases o with
  | none => exact .pure _ h1
  | some l1 =>
    -- the second level reads a table that the first one found or made
    obtain ⟨role1, hg1, hl1⟩ : ∃ role1, Good role1 m1 ∧ role1 l1 ≠ .other := by
      cases create with
      | true =>
        obtain ⟨role1, n, htr, hres⟩ :=
          (walkRoot_makes hg hroot fun he => absurd he (hg.root_ne hr)).ok ho
        exact ⟨role1, htr.grows.good, by simp [hres.1]⟩
      | false =>
        obtain ⟨rfl, hres⟩ := (walkRoot_finds hg hroot).ok ho
        exact ⟨role, hg, by simp [hres]⟩
    exact walkLevel_alike (hg1.tables.held l1 hl1) hg1.pages h1

/-- Where a walk ends there is a table. -/
theorem walk_table {create : Bool} {l0 : ℕ} (hg : Good role m) (hr : role r = .root)
    (h : PageTable.walk r va create m = .ok (some l0, m1)) : m1.Held l0 := by
  obtain ⟨role1, hw, hc⟩ := (walk_spec create hg (.inl hr) fun he => absurd he (hg.root_ne hr)).ok h
  exact hw.grows.good.tables.held l0 (Role.ne_other_of_level (Chain.level hc))

theorem map_alike {pa flags : ℕ} (hg : Good role m) (hr : role r = .root) (h : SameInUse m m') :
    Prog.Alike SameInUse (PageTable.map r va pa flags m) (PageTable.map r va pa flags m') := by
  unfold PageTable.map
  split_ifs
  · exact .stop _
  · exact .stop _
  · refine (walk_alike hg hr h).bind fun o m1 m1' ho h1 => ?_
    cases o with
    | none => exact .pure _ h1
    | some l0 =>
      refine .get_bind ?_
      rw [h1.pte (walk_table hg hr ho) (vpn_lt va 0)]
      split_ifs
      · exact .pure _ h1
      · exact .modify_bind (.pure _ (h1.setPte _ _ _))

theorem unmap_alike (hg : Good role m) (hr : role r = .root) (h : SameInUse m m') :
    Prog.Alike SameInUse (PageTable.unmap r va m) (PageTable.unmap r va m') := by
  unfold PageTable.unmap
  refine (walk_alike hg hr h).bind fun o m1 m1' ho h1 => ?_
  cases o with
  | none => exact .pure _ h1
  | some l0 =>
    refine .get_bind ?_
    rw [h1.pte (walk_table hg hr ho) (vpn_lt va 0)]
    split_ifs
    · exact .modify_bind (.pure _ (h1.setPte _ _ _))
    · exact .pure _ h1

theorem virtToPhys_alike (hg : Good role m) (hr : role r = .root) (h : SameInUse m m') :
    Prog.Alike SameInUse (PageTable.virtToPhys r va m) (PageTable.virtToPhys r va m') := by
  unfold PageTable.virtToPhys
  refine (walk_alike hg hr h).bind fun o m1 m1' ho h1 => ?_
  cases o with
  | none => exact .pure _ h1
  | some l0 =>
    refine .get_bind ?_
    rw [h1.pte (walk_table hg hr ho) (vpn_lt va 0)]
    split_ifs
    · exact .pure _ h1
    · exact .pure _ h1

/-! ### Address spaces -/

/-- Ask for a frame, fill it with bytes that do not depend on free frames, and map it. -/
theorem page_alike {e : String} {flags : ℕ} (fill : ℕ → Mem → Mem) (hg : Good role m)
    (hr : role r = .root) (h : SameInUse m m')
    (hkeep : ∀ q mem a, a < q ∨ q + pageSize ≤ a → fill q mem a = mem a)
    (hfill : ∀ q m1 m1', Got m q m1 → SameInUse m1 m1' →
      SameInUse { m1 with mem := fill q m1.mem } { m1' with mem := fill q m1'.mem }) :
    Prog.Alike SameInUse ((do
      match ← pageAlloc 1 with
      | none => return .error e
      | some q =>
        modify fun m => { m with mem := fill q m.mem }
        PageTable.map r va q flags : MachineM (Except String Unit)) m) ((do
      match ← pageAlloc 1 with
      | none => return .error e
      | some q =>
        modify fun m => { m with mem := fill q m.mem }
        PageTable.map r va q flags : MachineM (Except String Unit)) m') := by
  refine (pageAlloc_alike 1 hg.pages h).bind fun o m1 m1' ho h1 => ?_
  have hspec := (pageAlloc_one hg).ok ho
  cases o with
  | none => exact .pure _ h1
  | some q =>
    have hgot : Got m q { m1 with mem := fill q m1.mem } := hspec.1.fill fun a ha => hkeep q _ a ha
    exact .modify_bind (map_alike (hgot.good hg) hr (hfill q m1 m1' hspec.1 h1))

/-- The machine is in order and `r` is one of its roots. -/
abbrev HasRoot (r : ℕ) (m : Machine) : Prop := Both r r m

theorem HasRoot.intro (hg : Good role m) (hr : role r = .root) : HasRoot r m :=
  ⟨role, hg, .inl hr, hr⟩

theorem mapStack_alike (hb : HasRoot r m) (h : SameInUse m m') :
    Prog.Alike SameInUse (mapStack r m) (mapStack r m') := by
  refine .tryEach (fun _ m => HasRoot r m) ?_ (fun _ _ _ _ hb hi => stackPage_both hb hi) _ hb h
  rintro i - m m' ⟨role, hg, -, hr⟩ h
  refine (pageAlloc_alike 1 hg.pages h).bind fun o m1 m1' ho h1 => ?_
  have hspec := (pageAlloc_one hg).ok ho
  cases o with
  | none => exact .pure _ h1
  | some q => exact map_alike (hspec.1.good hg) hr h1

theorem mmapPages_alike {pages : ℕ} (hva : va % pageSize = 0) (hb : HasRoot r m)
    (h : SameInUse m m') : Prog.Alike SameInUse (mmapPages r va pages m) (mmapPages r va pages m') := by
  refine .tryEach (fun _ m => HasRoot r m) ?_ (fun _ _ _ _ hb hi => mmapPage_both hva hb hi) _ hb h
  rintro i - m m' ⟨role, hg, -, hr⟩ h
  refine (pageAlloc_alike 1 hg.pages h).bind fun o m1 m1' ho h1 => ?_
  have hspec := (pageAlloc_one hg).ok ho
  cases o with
  | none => exact .pure _ h1
  | some q =>
    refine (map_alike (hspec.1.good hg) hr h1).bind fun res m2 m2' _ h2 => ?_
    cases res with
    | ok u => exact .pure _ h2
    | error e => exact .pure _ h2

/-- The kernel root, from which new roots are copied, is in use. -/
theorem newUserRoot_alike (hg : Good role m) (h : SameInUse m m') :
    Prog.Alike SameInUse (newUserRoot m) (newUserRoot m') := by
  unfold newUserRoot PageTable.alloc
  refine (pageAlloc_alike 1 hg.pages h).bind fun o m1 m1' ho h1 => ?_
  have hspec := (pageAlloc_one hg).ok ho
  cases o with
  | none => exact .pure _ h1
  | some q =>
    have hk : m1.Held m1.kernelRootPa :=
      (hspec.1.good hg).tables.held _ (Role.ne_other_of_level (hspec.1.good hg).tables.kroot_level)
    refine Prog.Alike.bind (R := SameInUse) (.each (fun is m => (∀ i ∈ is, i < 512) ∧
      m.Held m.kernelRootPa) ?_ ?_ _ ⟨fun i hi => List.mem_range.mp hi, hk⟩ h1)
      fun _ m2 m2' _ h2 => .pure _ h2
    · rintro i is m m' ⟨hi, hk⟩ h
      split_ifs
      · refine .get_bind (.update ?_)
        rw [h.kernelRootPa, h.pte hk (hi i (by simp))]
        exact h.setPte _ _ _
      · exact .pure _ h
    · rintro i is m m' ⟨hi, hk⟩ hm
      refine ⟨fun j hj => hi j (by simp [hj]), ?_⟩
      split_ifs at hm
      · rw [Prog.get_bind_ok] at hm
        obtain rfl : m' = m.setPte q i (m.pte m.kernelRootPa i) := Prog.modify_ok.mp hm
        exact hk
      · obtain rfl := Prog.pure_state hm
        exact hk

theorem loadPage_alike {image : List UInt8} {seg : Elf.Segment} (hb : HasRoot r m)
    (h : SameInUse m m') : Prog.Alike SameInUse (Elf.loadPage image r seg va m)
      (Elf.loadPage image r seg va m') := by
  obtain ⟨role, hg, -, hr⟩ := hb
  refine page_alike (fun q mem => writeBytes mem q (seg.pageBytes image va)) hg hr h ?_
    fun q m1 m1' _ h1 => h1.writeBytes _ _
  intro q mem a ha
  have hlen := seg.pageBytes_length image va
  simp only [writeBytes]
  rw [if_neg (by omega)]

theorem loadSegments_alike {image : List UInt8} {phoff phentsize : ℕ} (is : List ℕ) (brk : ℕ)
    (hb : HasRoot r m) (h : SameInUse m m') :
    Prog.Alike SameInUse (Elf.loadSegments image r phoff phentsize is brk m)
      (Elf.loadSegments image r phoff phentsize is brk m') := by
  induction is generalizing m m' brk with
  | nil => exact .pure _ h
  | cons i is ih =>
    rw [Elf.loadSegments]
    refine .ofExcept_bind fun res hres => ?_
    cases res with
    | error e => exact .pure _ h
    | ok o =>
      cases o with
      | none => exact ih brk hb h
      | some seg =>
        refine .ofExcept_bind fun stop hstop => ?_
        have hva := Elf.pageVas_aligned stop hres
        refine Prog.Alike.bind (R := SameInUse) (.tryEach (fun vas m =>
          (∀ va ∈ vas, va % pageSize = 0) ∧ HasRoot r m) ?_ ?_ _ ⟨hva, hb⟩ h) ?_
        · rintro va vas m m' ⟨-, hb⟩ h
          exact loadPage_alike hb h
        · rintro va vas m m' ⟨hv, role, hg, hs, hr⟩ hl
          obtain ⟨role', ha⟩ := (Elf.loadPage_spec image seg hg hr (hv va (by simp))).ok hl
          exact ⟨fun a ha => hv a (by simp [ha]), .grows ha.page.grows hs hr⟩
        · intro res m1 m1' hm h1
          cases res with
          | error e => exact .pure _ h1
          | ok u => exact ih _ (loadPages_both hva hb hm) h1

theorem load_alike {image : List UInt8} (hb : HasRoot r m) (h : SameInUse m m') :
    Prog.Alike SameInUse (Elf.load image r m) (Elf.load image r m') := by
  unfold Elf.load
  refine .ofExcept_bind fun hdr _ => ?_
  cases hdr with
  | error e => exact .pure _ h
  | ok hdr =>
    obtain ⟨entry, phoff, phentsize, phnum⟩ := hdr
    refine (loadSegments_alike _ 0 hb h).bind fun res m1 m1' _ h1 => ?_
    cases res with
    | error e => exact .pure _ h1
    | ok brk =>
      dsimp only
      split_ifs
      · exact .pure _ h1
      · exact .pure _ h1

theorem buildAddressSpace_alike {image : List UInt8} (hg : Good role m) (h : SameInUse m m') :
    Prog.Alike SameInUse (buildAddressSpace image m) (buildAddressSpace image m') := by
  unfold buildAddressSpace
  refine (newUserRoot_alike hg h).bind fun o m1 m1' ho h1 => ?_
  have hnew := (newUserRoot_spec hg).ok ho
  cases o with
  | none => exact .pure _ h1
  | some q =>
    have hq := FreshRoot.role_self role q
    refine (load_alike (.intro hnew.good hq) h1).bind fun res m2 m2' hload h2 => ?_
    obtain ⟨role2, vas, ok, hran, -⟩ :=
      (Elf.load_spec image hnew.good hq (hnew.sees hg)).ok hload
    cases res with
    | error e => exact .pure _ h2
    | ok loaded =>
      have hg2 := hran.pages.grows
      refine (mapStack_alike (.intro hg2.good ((hg2.root_iff q).mpr hq)) h2).bind
        fun res m3 m3' _ h3 => ?_
      cases res with
      | error e => exact .pure _ h3
      | ok u => exact .pure _ h3

section Copy

variable {src dst l1 l0 i1 : ℕ}

/-- A page of the source is in use, so its copy does not depend on free frames. -/
theorem cloneTable_alike (is : List ℕ) (hi1 : i1 < 512) (his : ∀ i ∈ is, i < 512)
    (hc : Copying src src dst l1 role m) (h0 : role l0 = .table 0 l1 i1) (h : SameInUse m m') :
    Prog.Alike SameInUse (Prog.tryEach (fun i0 => do
      let m ← get
      let e0 := m.pte l0 i0
      if !pteValid e0 then return .ok ()
      clonePage dst (userVa i1 i0) e0) is m) (Prog.tryEach (fun i0 => do
      let m ← get
      let e0 := m.pte l0 i0
      if !pteValid e0 then return .ok ()
      clonePage dst (userVa i1 i0) e0) is m') := by
  refine .tryEach (fun is m => (∀ i ∈ is, i < 512) ∧ ∃ role, Copying src src dst l1 role m ∧
    role l0 = .table 0 l1 i1) ?_ ?_ _ ⟨his, role, hc, h0⟩ h
  · rintro i0 is m m' ⟨his, role, hc, h0⟩ h
    have hi0 := his i0 (by simp)
    refine .get_bind ?_
    rw [h.level_pte hc.good (l := 0) (by simp [h0, Role.level]) hi0]
    split_ifs with hv
    · exact .pure _ h
    · obtain ⟨-, hpage⟩ := hc.good.tables.user_leaf hc.from_root hc.table h0 hi0 (by simpa using hv)
      have hheld := hc.good.tables.held _ (by simp [hpage] : role (pteAddr (m.pte l0 i0)) ≠ .other)
      refine page_alike (fun q mem => copyBytes mem (pteAddr (m.pte l0 i0)) q pageSize)
        hc.good hc.to_root h ?_ ?_
      · intro q mem a ha
        simp only [copyBytes]
        rw [if_neg (by omega)]
      · intro q m1 m1' hgot h1
        have hheld1 := (hgot.held _).mpr (.inl hheld)
        exact SameOn.copyBytes h1 fun a ha1 ha2 => hheld1.inUse ha1 ha2
  · rintro i0 is m m' ⟨his, role, h, h0⟩ hm
    exact ⟨fun i hi => his i (by simp [hi]), cloneEntry_keeps hi1 (his i0 (by simp)) h h0 hm⟩

theorem cloneUserSpace_alike (hg : Good role m) (hsrc : role src = .root) (hd : role dst = .root)
    (hne : src ≠ dst) (h : SameInUse m m') :
    Prog.Alike SameInUse (cloneUserSpace src dst m) (cloneUserSpace src dst m') := by
  have hrange : ∀ i ∈ List.range 512, i < 512 := fun i hi => List.mem_range.mp hi
  unfold cloneUserSpace
  refine .get_bind ?_
  dsimp only
  rw [h.level_pte hg (l := 2) (by simp [hsrc, Role.level]) (by decide)]
  split_ifs with hv
  · exact .pure _ h
  · refine .tryEach (fun is m' => (∀ i ∈ is, i < 512) ∧
      ∃ role, Copying src src dst (pteAddr (m.pte src userRootSlot)) role m') ?_ ?_ _
      ⟨hrange, role, .start hg (.inl hsrc) hsrc hd (by simpa using hv)⟩ h
    · rintro i1 is m1 m1' ⟨his, role, hc⟩ h1
      have hi1 := his i1 (by simp)
      refine .get_bind ?_
      rw [h1.level_pte hc.good (l := 1) (by simp [hc.table, Role.level]) hi1]
      split_ifs with hv1
      · exact .pure _ h1
      · exact cloneTable_alike _ hi1 hrange hc (hc.leaf_table hi1 (by simpa using hv1)) h1
    · rintro i1 is m m' ⟨his, role, h⟩ hm
      exact ⟨fun i hi => his i (by simp [hi]), cloneTableEntry_keeps (his i1 (by simp)) hne h hm⟩

end Copy

/-! ### Teardown -/

theorem pageFree_mem {addr n : ℕ} (h : pageFree addr n m = .ok ((), m1)) : m1.mem = m.mem := by
  unfold pageFree at h
  rw [Prog.get_bind_ok, Prog.bind_ok] at h
  obtain ⟨pages, m2, hf, hs⟩ := h
  obtain ⟨-, rfl⟩ := Prog.ofExcept_ok.mp hf
  have hm1 := Prog.set_ok.mp hs
  dsimp only at hm1
  rw [hm1]

theorem freeLeaf_mem {l0 i0 : ℕ} (h : (do
    let m ← get
    let e0 := m.pte l0 i0
    if pteValid e0 then pageFree (pteAddr e0) 1 else pure () : MachineM Unit) m = .ok ((), m1)) :
    m1.mem = m.mem := by
  rw [Prog.get_bind_ok] at h
  split_ifs at h
  · exact pageFree_mem h
  · rw [Prog.pure_state h]

theorem freeLeaves_mem {l0 : ℕ} (is : List ℕ) (h : Prog.each (fun i0 => do
    let m ← get
    let e0 := m.pte l0 i0
    if pteValid e0 then pageFree (pteAddr e0) 1 else pure ()) is m = .ok ((), m1)) :
    m1.mem = m.mem := by
  have hloop := Prog.Wp.each (E := fun _ => True) (fun _ s => s.mem = m.mem) (fun i is s hs =>
    .of_returns fun _ s' hi => (@freeLeaf_mem _ _ l0 i hi).trans hs) is m rfl
  exact hloop.ok h

theorem freeTable_mem {l1 i1 : ℕ} (h : (do
    let m ← get
    let e1 := m.pte l1 i1
    if !pteValid e1 then pure ()
    else
      let l0 := pteAddr e1
      Prog.each (fun i0 => do
        let m ← get
        let e0 := m.pte l0 i0
        if pteValid e0 then pageFree (pteAddr e0) 1 else pure ()) (List.range 512)
      pageFree l0 1 : MachineM Unit) m = .ok ((), m1)) : m1.mem = m.mem := by
  rw [Prog.get_bind_ok] at h
  split_ifs at h
  · rw [Prog.pure_state h]
  · obtain ⟨⟨⟩, m2, h1, h2⟩ := Prog.bind_ok.mp h
    exact (pageFree_mem h2).trans (freeLeaves_mem _ h1)

theorem freeLeaves_same {l0 : ℕ} (is : List ℕ) (his : ∀ i ∈ is, i < 512)
    (hl0 : ∀ a, l0 ≤ a → a < l0 + pageSize → A a) (h : SameOn A m m') :
    Prog.Alike (SameOn A) (Prog.each (fun i0 => do
      let m ← get
      let e0 := m.pte l0 i0
      if pteValid e0 then pageFree (pteAddr e0) 1 else pure ()) is m) (Prog.each (fun i0 => do
      let m ← get
      let e0 := m.pte l0 i0
      if pteValid e0 then pageFree (pteAddr e0) 1 else pure ()) is m') := by
  refine .each (fun is _ => ∀ i ∈ is, i < 512) ?_ (fun i is _ _ hi _ j hj => hi j (by simp [hj])) _
    his h
  intro i is m m' hi h
  refine .get_bind ?_
  rw [h.pte (hi i (by simp)) hl0]
  split_ifs
  · exact pageFree_same _ _ h
  · exact .pure _ h

/-- Nothing is handed out while a window is freed, so what was in use when it began may be
read until it ends. -/
theorem freeUserSpace_same (hg : Good role m) (hr : role r = .root) (h : SameInUse m m') :
    Prog.Alike (SameOn m.InUse) (freeUserSpace r m) (freeUserSpace r m') := by
  have hrange : ∀ i ∈ List.range 512, i < 512 := fun i hi => List.mem_range.mp hi
  have hread {t l : ℕ} (ht : (role t).level = some l) :
      ∀ a, t ≤ a → a < t + pageSize → m.InUse a := fun a h1 h2 =>
    (hg.tables.held t (Role.ne_other_of_level ht)).inUse h1 h2
  unfold freeUserSpace
  refine .get_bind ?_
  dsimp only
  rw [SameOn.pte h (by decide) (hread (l := 2) (by simp [hr, Role.level]))]
  split_ifs with hv
  · exact .pure _ h
  · have hns : ¬ Shared role m r userRootSlot := fun hsh => hsh.2.1 rfl
    obtain ⟨-, hl1⟩ := (hg.tables.down r 2 userRootSlot (by simp [hr, Role.level]) (by decide)
      (by simpa using hv) hns).1 (by omega)
    have hlevel : (role (pteAddr (m.pte r userRootSlot))).level = some 1 := by
      rw [hl1]
      rfl
    generalize pteAddr (m.pte r userRootSlot) = l1 at hl1 hlevel
    refine Prog.Alike.bind (R := SameOn m.InUse) (.each (fun is s => (∀ i ∈ is, i < 512) ∧
      s.mem = m.mem) ?_ ?_ _ ⟨hrange, rfl⟩ h) fun _ m2 m2' _ h2 => ?_
    · rintro i1 is m1 m1' ⟨hi, hmem⟩ h1
      have hi1 := hi i1 (by simp)
      refine .get_bind ?_
      have he1 : m1.pte l1 i1 = m.pte l1 i1 := by simp only [Machine.pte, hmem]
      rw [h1.pte hi1 (hread hlevel), he1]
      split_ifs with hv1
      · exact .pure _ h1
      · have hl0 := hg.tables.user_table hl1 hi1 (by simpa using hv1)
        refine (freeLeaves_same _ hrange (hread (l := 0) (by simp [hl0, Role.level])) h1).bind
          fun _ m2 m2' _ h2 => pageFree_same _ _ h2
    · rintro i1 is m1 m2 ⟨hi, hmem⟩ hm
      exact ⟨fun j hj => hi j (by simp [hj]), (freeTable_mem hm).trans hmem⟩
    · refine (pageFree_same _ _ h2).bind fun _ m3 m3' _ h3 => ?_
      exact .update (h3.setPte _ _ _)

/-- Returning frames takes nothing into use. -/
theorem InUse.shrinks {P : Places} {role' : ℕ → Role} (h : Shrinks P role m role' m1) {a : ℕ}
    (ha : m1.InUse a) : m.InUse a := by
  intro q hq hn
  refine ha q ?_ fun hheld => hn ((h.held q).mp hheld).1
  simpa only [Machine.IsFrame, h.firstFrame] using hq

theorem freeUserSpace_alike (hg : Good role m) (hr : role r = .root) (h : SameInUse m m') :
    Prog.Alike SameInUse (freeUserSpace r m) (freeUserSpace r m') := by
  refine (freeUserSpace_same hg hr h).mono fun _ m1 m1' hm h1 => h1.mono fun a ha => ?_
  obtain ⟨role1, hs, -⟩ := (freeUserSpace_spec hg hr).ok hm
  exact InUse.shrinks hs ha

theorem munmapPages_alike (pages : ℕ) (hg : Good role m) (hr : role r = .root)
    (hw : ∀ a ∈ rangeVas va pages, vpn a 2 = userRootSlot) (h : SameInUse m m') :
    Prog.Alike SameInUse (munmapPages r va pages m) (munmapPages r va pages m') := by
  refine .each (fun is m => (∀ i ∈ is, i < pages) ∧ ∃ role, Good role m ∧ role r = .root) ?_ ?_ _
    ⟨fun i hi => List.mem_range.mp hi, role, hg, hr⟩ h
  · rintro i is m m' ⟨-, role, hg, hr⟩ h
    refine .ofExcept_bind fun page _ => ?_
    refine (unmap_alike hg hr h).bind fun o m1 m1' _ h1 => ?_
    cases o with
    | none => exact .pure _ h1
    | some pa => exact pageFree_alike _ _ h1
  · rintro i is m m1 ⟨hi, role, hg, hr⟩ hm
    refine ⟨fun j hj => hi j (by simp [hj]), ?_⟩
    obtain ⟨page, m2, hpage, hrest⟩ := Prog.bind_ok.mp hm
    obtain ⟨ha, rfl⟩ := Prog.ofExcept_ok.mp hpage
    obtain ⟨-, rfl⟩ := checkedAdd_ok.mp ha
    have hmem : va + i * pageSize ∈ rangeVas va pages :=
      List.mem_map.mpr ⟨i, List.mem_range.mpr (hi i (by simp)), rfl⟩
    obtain ⟨role1, hs⟩ :=
      (unmap_free_spec hg hr (ownLeaf_of_window hg.tables hr (hw _ hmem))).ok hrest
    exact ⟨role1, hs.good, (hs.root_iff r).mpr hr⟩

/-! ### Copies to and from user memory -/

theorem copyOutLoop_alike (fuel : ℕ) {src : List UInt8} (hg : Good role m) (hr : role r = .root)
    (h1 : userVaStart ≤ va) (h2 : va + src.length ≤ userVaEnd) (h : SameInUse m m') :
    Prog.Alike SameInUse (copyOutLoop r fuel va src m) (copyOutLoop r fuel va src m') := by
  induction fuel generalizing va src m m' with
  | zero => exact .pure _ h
  | succ fuel ih =>
    rw [copyOutLoop]
    by_cases hs : src = []
    · rw [if_pos hs]
      exact .pure _ h
    · rw [if_neg hs]
      have hpos : 0 < src.length := List.length_pos_of_ne_nil hs
      refine (virtToPhys_alike hg hr h).bind fun o m1 m1' ho hm1 => ?_
      obtain ⟨rfl, hres⟩ := (virtToPhys_spec hg hr).ok ho
      cases o with
      | none => exact .pure _ hm1
      | some pa =>
        obtain ⟨q, l0, -, hq, rfl⟩ :=
          ((hres pa).mp rfl).page hg hr (vpn_window h1 (by omega : va < userVaEnd))
        have hle : chunkLen va src.length ≤ src.length := by
          simp only [chunkLen]
          omega
        have hstore : DataOnly role m1 { m1 with
            mem := writeBytes m1.mem (q + va % pageSize) (src.take (chunkLen va src.length)) } := by
          refine .store hq ?_
          rw [List.length_take, min_eq_left hle]
          exact chunkLen_le va src.length
        refine .modify_bind (ih (hstore.good hg) (by omega) ?_ (hm1.writeBytes _ _))
        simp only [List.length_drop]
        omega

theorem copyOut_alike (uva : ℕ) (src : List UInt8) (hg : Good role m) (hr : role r = .root)
    (h : SameInUse m m') : Prog.Alike SameInUse (copyOut r uva src m) (copyOut r uva src m') := by
  unfold copyOut checkRange
  split_ifs with h1 h2
  · exact .pure _ h
  · exact .pure _ h
  · exact copyOutLoop_alike _ hg hr (by omega) (by omega) h

/-- Only mapped pages are read. -/
theorem copyInLoop_alike (fuel left : ℕ) (acc : List UInt8) (hg : Good role m) (hr : role r = .root)
    (h1 : userVaStart ≤ va) (h2 : va + left ≤ userVaEnd) (h : SameInUse m m') :
    Prog.Alike SameInUse (copyInLoop r fuel va left acc m) (copyInLoop r fuel va left acc m') := by
  induction fuel generalizing va left acc m m' with
  | zero => exact .pure _ h
  | succ fuel ih =>
    rw [copyInLoop]
    by_cases hl : left = 0
    · rw [if_pos hl]
      exact .pure _ h
    · rw [if_neg hl]
      refine (virtToPhys_alike hg hr h).bind fun o m1 m1' ho hm1 => ?_
      obtain ⟨rfl, hres⟩ := (virtToPhys_spec hg hr).ok ho
      cases o with
      | none => exact .pure _ hm1
      | some pa =>
        obtain ⟨q, l0, -, hq, rfl⟩ :=
          ((hres pa).mp rfl).page hg hr (vpn_window h1 (by omega : va < userVaEnd))
        have hlen := chunkLen_le va left
        have hle : chunkLen va left ≤ left := by
          simp only [chunkLen]
          omega
        have hread : readBytes m1'.mem (q + va % pageSize) (chunkLen va left) =
            readBytes m1.mem (q + va % pageSize) (chunkLen va left) := by
          have hheld := hg.tables.held q (by simp [hq])
          exact readBytes_congr fun b hb1 hb2 =>
            hm1.mem b (hheld.inUse (by omega) (by simp only [pageSize] at *; omega))
        refine .get_bind ?_
        rw [hread]
        exact ih _ _ hg (by omega) (by omega) hm1

theorem copyIn_alike (uva len : ℕ) (hg : Good role m) (hr : role r = .root) (h : SameInUse m m') :
    Prog.Alike SameInUse (copyIn r uva len m) (copyIn r uva len m') := by
  unfold copyIn checkRange
  split_ifs with h1 h2
  · exact .pure _ h
  · exact .pure _ h
  · exact copyInLoop_alike _ _ _ hg hr (by omega) (by omega) h

theorem copyInCstrLoop_alike (uva left i : ℕ) (acc : List UInt8) (hg : Good role m)
    (hr : role r = .root) (h : SameInUse m m') :
    Prog.Alike SameInUse (copyInCstrLoop r uva left i acc m)
      (copyInCstrLoop r uva left i acc m') := by
  induction left generalizing i acc m m' with
  | zero => exact .pure _ h
  | succ left ih =>
    rw [copyInCstrLoop]
    refine .ofExcept_bind fun a _ => ?_
    refine (copyIn_alike a 1 hg hr h).bind fun res m1 m1' hres h1 => ?_
    obtain ⟨rfl, -⟩ := (copyIn_spec a 1 hg hr).ok hres
    cases res with
    | error e => exact .pure _ h1
    | ok byte =>
      dsimp only
      split_ifs
      · exact .pure _ h1
      · exact .pure _ h1
      · exact ih _ _ hg h1

theorem copyInCstr_alike (uva bufLen : ℕ) (hg : Good role m) (hr : role r = .root)
    (h : SameInUse m m') :
    Prog.Alike SameInUse (copyInCstr r uva bufLen m) (copyInCstr r uva bufLen m') :=
  copyInCstrLoop_alike uva _ 0 [] hg hr h

/-- A file read copies out bytes of the disk. -/
theorem fileReadLoop_alike {fs : Fs} {disk : Disk} {inode : Inode} {pos uva : ℕ}
    (fuel left done : ℕ) (hg : Good role m) (hr : role r = .root) (h : SameInUse m m') :
    Prog.Alike SameInUse (fileReadLoop fs disk inode r pos uva fuel left done m)
      (fileReadLoop fs disk inode r pos uva fuel left done m') := by
  induction fuel generalizing left done m m' with
  | zero => exact .pure _ h
  | succ fuel ih =>
    rw [fileReadLoop]
    by_cases hl : left = 0
    · rw [if_pos hl]
      exact .pure _ h
    · rw [if_neg hl]
      refine .ofExcept_bind fun off _ => ?_
      refine .ofExcept_bind fun res _ => ?_
      cases res with
      | error e => exact .pure _ h
      | ok bytes =>
        dsimp only
        split_ifs
        · exact .pure _ h
        · refine .ofExcept_bind fun a _ => ?_
          refine (copyOut_alike a bytes hg hr h).bind fun res m1 m1' hres h1 => ?_
          have hg1 := ((copyOut_spec a bytes hg hr).ok hres).good hg
          cases res with
          | error e => exact .pure _ h1
          | ok u => exact .pure _ h1
        · refine .ofExcept_bind fun a _ => ?_
          refine (copyOut_alike a bytes hg hr h).bind fun res m1 m1' hres h1 => ?_
          have hg1 := ((copyOut_spec a bytes hg hr).ok hres).good hg
          cases res with
          | error e => exact .pure _ h1
          | ok u => exact ih _ _ hg1 h1

/-! ### What a process sees -/

/-- The page that user mode reaches at `va`. -/
def userPage (m : Machine) (root va : ℕ) : Option ℕ :=
  (hardwareWalk m root va).bind fun e => if pteUser e then some (pteAddr e) else none

/-- The byte that user mode reads at `va`. -/
def userByte (m : Machine) (root va : ℕ) : Option UInt8 :=
  (userPage m root va).map fun page => m.mem (page + va % pageSize)

/-- A store is allowed where the leaf has U and W. -/
theorem userWritable_eq (m : Machine) (root va : ℕ) : userWritable m root va =
    (hardwareWalk m root va).bind fun e =>
      if pteUser e ∧ e &&& pteW ≠ 0 then some (pteAddr e + va % pageSize) else none := by
  unfold userWritable hardwareWalk
  dsimp only
  split_ifs with h1 h2 h2
  · obtain ⟨-, -, -, -, -, -, hu, hw⟩ := h1
    rw [Option.bind_some, if_pos ⟨hu, hw⟩]
  · obtain ⟨hc, hv2, hl2, hv1, hl1, hv0, -, -⟩ := h1
    exact absurd ⟨hc, hv2, hl2, hv1, hl1, hv0⟩ h2
  · obtain ⟨hc, hv2, hl2, hv1, hl1, hv0⟩ := h2
    rw [Option.bind_some, if_neg fun hu => h1 ⟨hc, hv2, hl2, hv1, hl1, hv0, hu.1, hu.2⟩]
  · rfl

theorem hardwareWalk_same (hg : Good role m) (hr : role r = .root) (h : SameInUse m m') :
    hardwareWalk m' r va = hardwareWalk m r va := by
  have e2 := h.level_pte hg (l := 2) (by simp [hr, Role.level]) (vpn_lt va 2) (t := r)
  unfold hardwareWalk
  dsimp only
  rw [e2]
  cases hv2 : pteValid (m.pte r (vpn va 2)) with
  | false => simp
  | true =>
    obtain ⟨hl1, hl0⟩ := hardwareWalk_tables hg hr hv2
    rw [h.level_pte hg hl1 (vpn_lt va 1)]
    cases hv1 : pteValid (m.pte (pteAddr (m.pte r (vpn va 2))) (vpn va 1)) with
    | false => simp
    | true => rw [h.level_pte hg (hl0 hv1) (vpn_lt va 0)]

/-- What user mode reaches is a user page of the forest. -/
theorem userPage_role {q : ℕ} (hg : Good role m) (hr : role r = .root)
    (h : userPage m r va = some q) : ∃ t, role q = .page t (vpn va 0) := by
  obtain ⟨e, he, hq⟩ := Option.bind_eq_some_iff.mp h
  split_ifs at hq with hu
  unfold hardwareWalk at he
  dsimp only at he
  split_ifs at he with hc
  obtain ⟨-, hv2, -, hv1, -, hv0⟩ := hc
  obtain ⟨hl1, hl0⟩ := hardwareWalk_tables hg hr hv2
  have hl0 := hl0 hv1
  obtain rfl := Option.some.inj he
  obtain rfl := Option.some.inj hq
  refine ⟨_, ((hg.tables.down _ 0 _ hl0 (vpn_lt va 0) hv0 fun hs => ?_).2 rfl).1 hu⟩
  rw [hs.1] at hl0
  simp [Role.level] at hl0

theorem userByte_same (hg : Good role m) (hr : role r = .root) (h : SameInUse m m') :
    userByte m' r va = userByte m r va := by
  have hpage : userPage m' r va = userPage m r va := by
    simp only [userPage, hardwareWalk_same hg hr h]
  unfold userByte
  rw [hpage]
  cases hq : userPage m r va with
  | none => rfl
  | some q =>
    obtain ⟨t, hrole⟩ := userPage_role hg hr hq
    have hoff : va % pageSize < pageSize := Nat.mod_lt _ (by decide)
    have hheld := hg.tables.held q (by simp [hrole])
    simp only [Option.map_some, Option.some.injEq]
    exact h.mem _ (hheld.inUse (by omega) (by omega))

theorem userWritable_same (hg : Good role m) (hr : role r = .root) (h : SameInUse m m') :
    userWritable m' r va = userWritable m r va := by
  simp only [userWritable_eq, hardwareWalk_same hg hr h]

end LightOS
