import LightOS.Lib.Meets
import LightOS.Memory

/-!
# In which states frames are asked for

Every frame is handed out, by every program that asks for one, while the page tables of
all roots are in use. The tables of one root `s` are singled out: the root that `satp`
designates, under whose translation the program itself runs. The machine records how
memory and allocator stood at each allocation, and the results are about that record.
-/
namespace LightOS
open Lib PageAllocator

/-- A page table of the given level that the hardware reaches from the root `s`. -/
inductive TableFrom (m : Machine) (s : ℕ) : ℕ → ℕ → Prop
  | root : TableFrom m s 2 s
  | down {l t i : ℕ} (ht : TableFrom m s (l + 1) t) (hi : i < 512)
      (hv : pteValid (m.pte t i) = true) (hl : pteLeaf (m.pte t i) = false) :
      TableFrom m s l (pteAddr (m.pte t i))

/-- No page table reachable from `s`, nor `s` itself, is free. -/
def TablesInUse (s : ℕ) (m : Machine) : Prop := ∀ l t, TableFrom m s l t → m.Held t

/-- The machine that an allocation found, without the records. -/
def Ask.machine (c : Ask) : Machine where
  mem := c.mem
  pages := c.pages
  kernelRootPa := 0
  account := 0
  log := []
  asks := []

/-- All frames that a run of the program hands out are handed out with the tables of `s` in
use. -/
abbrev AllocsUnder (s : ℕ) {α : Type} (x : MachineM α) (m : Machine) : Prop :=
  Prog.Meets Machine.asks (fun c => TablesInUse s c.machine) x m

/-- A root of the forest: of a process, or of the kernel. -/
def Rooted (role : ℕ → Role) (s : ℕ) : Prop := role s = .root ∨ role s = .kroot

theorem Rooted.ne_other {role : ℕ → Role} {s : ℕ} (h : Rooted role s) : role s ≠ .other := by
  rcases h with h | h <;> simp [h]

section Forest

variable {role role' : ℕ → Role} {m m' : Machine} {s l t : ℕ}

theorem Grows.rooted {P : Places} (h : Grows P role m role' m') (hs : Rooted role s) :
    Rooted role' s := by
  rw [Rooted, h.keep s hs.ne_other]
  exact hs

/-- A table that the hardware reaches is where the forest says it is. -/
theorem TableFrom.level (hg : Good role m) (hs : Rooted role s) (h : TableFrom m s l t) :
    (role t).level = some l := by
  induction h with
  | root => rcases hs with hs | hs <;> simp [hs, Role.level]
  | @down l t i _ hi hv _ ih =>
    by_cases hsh : Shared role m t i
    · obtain rfl : l = 1 := by
        rw [hsh.1] at ih
        simpa [Role.level] using ih.symm
      have hkr : role m.kernelRootPa = .kroot := (hg.tables.kroot _).mpr rfl
      have hns : ¬ Shared role m m.kernelRootPa i := by
        rintro ⟨hr, -⟩
        simp [hkr] at hr
      obtain ⟨-, hrole⟩ := (hg.tables.down m.kernelRootPa 2 i hg.tables.kroot_level hi hsh.2.2
        hns).1 (by omega)
      rw [hg.tables.shared t i hsh hi, hrole]
      rfl
    · obtain ⟨-, hrole⟩ := (hg.tables.down t (l + 1) i ih hi hv hsh).1 (by omega)
      rw [hrole]
      rfl

theorem Good.tablesInUse (hg : Good role m) (hs : Rooted role s) : TablesInUse s m :=
  fun _ t h => hg.tables.held t (Role.ne_other_of_level (h.level hg hs))

end Forest

/-! ### The programs that ask for frames -/

section Programs

variable {role : ℕ → Role} {m m1 : Machine} {s r va : ℕ}

/-- The record of a machine holds all that the hardware walk and the allocator look at. -/
theorem TableFrom.of_ask {l t : ℕ} (h : TableFrom (Ask.mk m.mem m.pages).machine s l t) :
    TableFrom m s l t := by
  induction h with
  | root => exact .root
  | down _ hi hv hl ih => exact .down ih hi hv hl

theorem TablesInUse.ask (h : TablesInUse s m) : TablesInUse s (Ask.mk m.mem m.pages).machine :=
  fun l t ht => h l t ht.of_ask

/-- What a call of the allocator adds to the record. -/
theorem pageAlloc_records {n : ℕ} {o : Option ℕ} (h : pageAlloc n m = .ok (o, m1)) :
    o = none ∧ m1 = m ∨ o.isSome ∧ m1.asks = m.asks ++ [Ask.mk m.mem m.pages] := by
  unfold pageAlloc at h
  rw [Prog.get_bind_ok] at h
  cases ha : m.pages.alloc n with
  | none =>
    rw [ha] at h
    exact .inl (Prod.mk.inj (Prog.pure_ok.mp h))
  | some r =>
    obtain ⟨addr, pages⟩ := r
    rw [ha] at h
    obtain ⟨⟨⟩, m2, hset, hret⟩ := Prog.bind_ok.mp h
    obtain ⟨rfl, rfl⟩ := Prod.mk.inj (Prog.pure_ok.mp hret)
    obtain rfl := Prog.set_ok.mp hset
    exact .inr ⟨rfl, rfl⟩

/-- A call of the allocator. -/
theorem pageAlloc_asks (n : ℕ) (h : TablesInUse s m) : AllocsUnder s (pageAlloc n) m := by
  intro o m1 ho
  rcases pageAlloc_records ho with ⟨-, rfl⟩ | ⟨-, hrec⟩
  · exact .of_eq rfl
  · exact .one hrec h.ask

theorem walkLevel_asks {t l : ℕ} (h : TablesInUse s m) :
    AllocsUnder s (PageTable.walkLevel t va l true) m := by
  unfold PageTable.walkLevel
  refine .get_bind ?_
  dsimp only
  split_ifs with hv hc hl
  · exact .pure _ _
  · refine .bind (pageAlloc_asks 1 h) fun o m' _ => ?_
    cases o with
    | none => exact .pure _ _
    | some q => exact .modify_bind rfl (.pure _ _)
  · exact .stop _ _
  · exact .pure _ _

theorem walk_asks (hg : Good role m) (hs : Rooted role s) (hr : role r = .root) :
    AllocsUnder s (PageTable.walk r va true) m := by
  unfold PageTable.walk
  refine .bind (walkLevel_asks (hg.tablesInUse hs)) fun o m' ho => ?_
  obtain ⟨role', n, htr, -⟩ :=
    (walkRoot_makes hg (.inl hr) fun he => absurd he (hg.root_ne hr)).ok ho
  cases o with
  | none => exact .pure _ _
  | some l1 => exact walkLevel_asks (htr.grows.good.tablesInUse (htr.grows.rooted hs))

theorem map_asks {q flags : ℕ} (hg : Good role m) (hs : Rooted role s) (hr : role r = .root) :
    AllocsUnder s (PageTable.map r va q flags) m := by
  unfold PageTable.map
  split_ifs
  · exact .stop _ _
  · exact .stop _ _
  · refine .bind (walk_asks hg hs hr) fun o m' _ => ?_
    cases o with
    | none => exact .pure _ _
    | some l0 =>
      refine .get_bind ?_
      split_ifs
      · exact .pure _ _
      · exact .modify_bind rfl (.pure _ _)

/-- Ask for a frame, fill it in some way and map it. -/
theorem page_asks {e : String} {flags : ℕ} (fill : ℕ → Machine → Mem) (hg : Good role m)
    (hs : Rooted role s) (hr : role r = .root)
    (hfill : ∀ q m' a, a < q ∨ q + pageSize ≤ a → fill q m' a = m'.mem a) :
    AllocsUnder s (do
      match ← pageAlloc 1 with
      | none => return .error e
      | some q =>
        modify fun m => { m with mem := fill q m }
        PageTable.map r va q flags) m := by
  refine .bind (pageAlloc_asks 1 (hg.tablesInUse hs)) fun o m' ho => ?_
  have hspec := (pageAlloc_one hg).ok ho
  cases o with
  | none => exact .pure _ _
  | some q =>
    have hgot : Got m q { m' with mem := fill q m' } := hspec.1.fill fun a ha => hfill q m' a ha
    exact .modify_bind rfl (map_asks (hgot.good hg) hs hr)

/-- The machine is in order, and `s` and `r` are two of its roots. -/
def Both (s r : ℕ) (m : Machine) : Prop := ∃ role, Good role m ∧ Rooted role s ∧ role r = .root

theorem Both.grows {P : Places} {role' : ℕ → Role} (h : Grows P role m role' m1) (hs : Rooted role s)
    (hr : role r = .root) : Both s r m1 := ⟨role', h.good, h.rooted hs, (h.root_iff r).mpr hr⟩

/-- A page of the stack leaves the roots in place. -/
theorem stackPage_both {i : ℕ} {res : Except String Unit} (h : Both s r m)
    (hi : (do
      match ← pageAlloc 1 with
      | none => return .error "proc: out of memory for stack"
      | some frame =>
        PageTable.map r (userStackTop - userStackPages * pageSize + i * pageSize) frame
          (pteU ||| pteR ||| pteW) : MachineM (Except String Unit)) m = .ok (res, m1)) :
    Both s r m1 := by
  obtain ⟨role, hg, hs, hr⟩ := h
  obtain ⟨o, m2, ho, hm⟩ := Prog.bind_ok.mp hi
  have hspec := (pageAlloc_one hg).ok ho
  cases o with
  | none =>
    obtain rfl := Prog.pure_state hm
    obtain ⟨rfl, -⟩ := hspec
    exact ⟨role, hg, hs, hr⟩
  | some q =>
    have hva : (userStackTop - userStackPages * pageSize + i * pageSize) % pageSize = 0 := by
      simp only [userStackTop, userStackPages, pageSize]
      omega
    obtain ⟨role', ha⟩ := (map_new_spec hg hspec.1 hr hva (by decide) (by decide)).ok hm
    exact .grows ha.page.grows hs hr

theorem mapStack_asks (h : Both s r m) : AllocsUnder s (mapStack r) m := by
  refine .tryEach (fun _ m => Both s r m) ?_ (fun _ _ _ _ hb hi => stackPage_both hb hi) _ m h
  rintro i - m ⟨role, hg, hs, hr⟩
  refine .bind (pageAlloc_asks 1 (hg.tablesInUse hs)) fun o m' ho => ?_
  have hspec := (pageAlloc_one hg).ok ho
  cases o with
  | none => exact .pure _ _
  | some q => exact map_asks (hspec.1.good hg) hs hr

/-- So does a page of an mmap. -/
theorem mmapPage_both {i : ℕ} {res : Except Unit Unit} (hva : va % pageSize = 0) (h : Both s r m)
    (hi : (do
      match ← pageAlloc 1 with
      | none => return .error ()
      | some frame =>
        match ← PageTable.map r (va + i * pageSize) frame (pteU ||| pteR ||| pteW) with
        | .ok _ => return .ok ()
        | .error _ => return .error () : MachineM (Except Unit Unit)) m = .ok (res, m1)) :
    Both s r m1 := by
  obtain ⟨role, hg, hs, hr⟩ := h
  obtain ⟨o, m2, ho, hm⟩ := Prog.bind_ok.mp hi
  have hspec := (pageAlloc_one hg).ok ho
  cases o with
  | none =>
    obtain rfl := Prog.pure_state hm
    obtain ⟨rfl, -⟩ := hspec
    exact ⟨role, hg, hs, hr⟩
  | some q =>
    obtain ⟨res', m3, hmap, hrest⟩ := Prog.bind_ok.mp hm
    have hva' : (va + i * pageSize) % pageSize = 0 := by
      simp only [pageSize] at *
      omega
    obtain ⟨role', ha⟩ := (map_new_spec hg hspec.1 hr hva' (by decide) (by decide)).ok hmap
    obtain rfl : m1 = m3 := by
      cases res' with
      | ok u => exact Prog.pure_state hrest
      | error e => exact Prog.pure_state hrest
    exact .grows ha.page.grows hs hr

theorem mmapPages_asks {pages : ℕ} (hva : va % pageSize = 0) (h : Both s r m) :
    AllocsUnder s (mmapPages r va pages) m := by
  refine .tryEach (fun _ m => Both s r m) ?_ (fun _ _ _ _ hb hi => mmapPage_both hva hb hi) _ m h
  rintro i - m ⟨role, hg, hs, hr⟩
  refine .bind (pageAlloc_asks 1 (hg.tablesInUse hs)) fun o m' ho => ?_
  have hspec := (pageAlloc_one hg).ok ho
  cases o with
  | none => exact .pure _ _
  | some q =>
    refine .bind (map_asks (hspec.1.good hg) hs hr) fun res m2 _ => ?_
    cases res with
    | ok u => exact .pure _ _
    | error e => exact .pure _ _

theorem newUserRoot_asks (h : TablesInUse s m) : AllocsUnder s newUserRoot m := by
  refine .bind (pageAlloc_asks 1 h) fun o m' _ => ?_
  cases o with
  | none => exact .pure _ _
  | some q =>
    refine .bind (.each (fun _ _ => True) ?_ (fun _ _ _ _ _ _ => trivial) _ _ trivial)
      fun _ m2 _ => .pure _ _
    rintro i - m -
    split_ifs
    · exact .get_bind (.none (Prog.modify_apply _ _) rfl)
    · exact .pure _ _

/-- A new root costs one allocation. -/
theorem newUserRoot_records (h : newUserRoot m = .ok (some r, m1)) :
    m1.asks = m.asks ++ [Ask.mk m.mem m.pages] := by
  unfold newUserRoot PageTable.alloc at h
  obtain ⟨o, m2, ho, hrest⟩ := Prog.bind_ok.mp h
  rcases pageAlloc_records ho with ⟨rfl, -⟩ | ⟨hsome, hrec⟩
  · simp at hrest
  · obtain ⟨q, rfl⟩ := Option.isSome_iff_exists.mp hsome
    obtain ⟨⟨⟩, m3, hloop, hret⟩ := Prog.bind_ok.mp hrest
    obtain rfl := Prog.pure_state hret
    -- the copy of the kernel entries adds nothing
    have hnone : Prog.Extends Machine.asks (fun _ => False) m2 m1 := by
      refine Prog.Meets.each (fun _ _ => True) ?_ (fun _ _ _ _ _ _ => trivial) _ _ trivial _ _ hloop
      rintro i - m -
      split_ifs
      · exact .get_bind (.none (Prog.modify_apply _ _) rfl)
      · exact .pure _ _
    obtain ⟨l, hl, hno⟩ := hnone
    rw [List.eq_nil_iff_forall_not_mem.mpr hno, List.append_nil] at hl
    rw [hl, hrec]

theorem loadPage_asks {image : List UInt8} {seg : Elf.Segment} (h : Both s r m) :
    AllocsUnder s (Elf.loadPage image r seg va) m := by
  obtain ⟨role, hg, hs, hr⟩ := h
  refine page_asks (fun q m => writeBytes m.mem q (seg.pageBytes image va)) hg hs hr ?_
  intro q m' a ha
  have hlen := seg.pageBytes_length image va
  simp only [writeBytes]
  rw [if_neg (by omega)]

theorem Elf.pageVas_aligned {image : List UInt8} {phoff phentsize i : ℕ} {seg : Elf.Segment} (stop : ℕ)
    (h : Elf.readSegment image phoff phentsize i = .ok (.ok (some seg))) :
    ∀ va ∈ seg.pageVas stop, va % pageSize = 0 := by
  intro va hva
  obtain ⟨j, -, rfl⟩ := List.mem_map.mp hva
  have := Elf.readSegment_aligned h
  simp only [pageSize] at *
  omega

/-- The pages of a segment leave the roots in place. -/
theorem loadPages_both {image : List UInt8} {seg : Elf.Segment} {vas : List ℕ}
    {res : Except String Unit} (hva : ∀ va ∈ vas, va % pageSize = 0) (h : Both s r m)
    (hm : Prog.tryEach (Elf.loadPage image r seg) vas m = .ok (res, m1)) : Both s r m1 := by
  obtain ⟨role, hg, hs, hr⟩ := h
  obtain ⟨role', hran⟩ := (newPages_ran id vas hg hr (hg.sees (.inl hr))
    fun va hva' _ _ hg hr => Elf.loadPage_spec image seg hg hr (hva va hva')).ok hm
  exact .grows hran.pages.grows hs hr

theorem loadSegments_asks {image : List UInt8} {phoff phentsize : ℕ} (is : List ℕ) (brk : ℕ)
    (h : Both s r m) : AllocsUnder s (Elf.loadSegments image r phoff phentsize is brk) m := by
  induction is generalizing m brk with
  | nil => exact .pure _ _
  | cons i is ih =>
    rw [Elf.loadSegments]
    refine .ofExcept_bind fun res hres => ?_
    cases res with
    | error e => exact .pure _ _
    | ok o =>
      cases o with
      | none => exact ih brk h
      | some seg =>
        refine .ofExcept_bind fun stop hstop => ?_
        have hva := Elf.pageVas_aligned stop hres
        refine .bind (.tryEach (fun vas m => (∀ va ∈ vas, va % pageSize = 0) ∧ Both s r m) ?_ ?_ _ m
          ⟨hva, h⟩) fun res m' hm => ?_
        · rintro va vas m ⟨-, hb⟩
          exact loadPage_asks hb
        · rintro va vas m m' ⟨hv, role, hg, hs, hr⟩ hl
          obtain ⟨role', ha⟩ := (Elf.loadPage_spec image seg hg hr (hv va (by simp))).ok hl
          exact ⟨fun a ha => hv a (by simp [ha]), .grows ha.page.grows hs hr⟩
        · cases res with
          | error e => exact .pure _ _
          | ok u => exact ih _ (loadPages_both hva h hm)

theorem load_asks {image : List UInt8} (h : Both s r m) : AllocsUnder s (Elf.load image r) m := by
  unfold Elf.load
  refine .ofExcept_bind fun hdr _ => ?_
  cases hdr with
  | error e => exact .pure _ _
  | ok hdr =>
    obtain ⟨entry, phoff, phentsize, phnum⟩ := hdr
    refine .bind (loadSegments_asks _ 0 h) fun res m' _ => ?_
    cases res with
    | error e => exact .pure _ _
    | ok brk =>
      dsimp only
      split_ifs
      · exact .pure _ _
      · exact .pure _ _

theorem buildAddressSpace_asks {image : List UInt8} (hg : Good role m) (hs : Rooted role s) :
    AllocsUnder s (buildAddressSpace image) m := by
  unfold buildAddressSpace
  refine .bind (newUserRoot_asks (hg.tablesInUse hs)) fun o m1 ho => ?_
  have hnew := (newUserRoot_spec hg).ok ho
  cases o with
  | none => exact .pure _ _
  | some q =>
    have hs1 : Rooted (Function.update role q .root) s := by
      rw [Rooted, hnew.keep hg hs.ne_other]
      exact hs
    have hb : Both s q m1 := ⟨_, hnew.good, hs1, FreshRoot.role_self role q⟩
    refine .bind (load_asks hb) fun res m2 hload => ?_
    obtain ⟨role2, vas, ok, hran, -⟩ :=
      (Elf.load_spec image hnew.good (FreshRoot.role_self role q) (hnew.sees hg)).ok hload
    cases res with
    | error e => exact .pure _ _
    | ok loaded =>
      refine .bind (mapStack_asks (.grows hran.pages.grows hs1 (FreshRoot.role_self role q)))
        fun res m3 _ => ?_
      cases res with
      | error e => exact .pure _ _
      | ok u => exact .pure _ _

/-! Copying an address space. -/

section Copy

variable {src dst l1 l0 i1 : ℕ}

/-- The machine in the course of a copy: both roots and the level-1 table of the source are
in place. -/
structure Copying (s src dst l1 : ℕ) (role : ℕ → Role) (m : Machine) : Prop where
  good : Good role m
  active : Rooted role s
  from_root : role src = .root
  to_root : role dst = .root
  table : role l1 = .table 1 src userRootSlot

theorem Copying.grows {P : Places} {role' : ℕ → Role} (h : Copying s src dst l1 role m)
    (hg : Grows P role m role' m1) : Copying s src dst l1 role' m1 where
  good := hg.good
  active := hg.rooted h.active
  from_root := (hg.root_iff _).mpr h.from_root
  to_root := (hg.root_iff _).mpr h.to_root
  table := (hg.keep _ (by simp [h.table])).trans h.table

/-- The level-0 tables of the source. -/
theorem Copying.leaf_table (h : Copying s src dst l1 role m) (hi1 : i1 < 512)
    (hv : pteValid (m.pte l1 i1) = true) : role (pteAddr (m.pte l1 i1)) = .table 0 l1 i1 := by
  have hns : ¬ Shared role m l1 i1 := by
    intro hsh
    have := hsh.1.symm.trans h.table
    simp at this
  exact ((h.good.tables.down l1 1 i1 (by simp [h.table, Role.level]) hi1 hv hns).1 (by omega)).2

/-- Copying one page leaves everything in place. -/
theorem cloneEntry_keeps {i0 : ℕ} {res : Except String Unit} (hi1 : i1 < 512) (hi0 : i0 < 512)
    (h : Copying s src dst l1 role m) (h0 : role l0 = .table 0 l1 i1)
    (hm : (do
      let m ← get
      let e0 := m.pte l0 i0
      if !pteValid e0 then return .ok ()
      clonePage dst (userVa i1 i0) e0 : MachineM (Except String Unit)) m = .ok (res, m1)) :
    ∃ role', Copying s src dst l1 role' m1 ∧ role' l0 = .table 0 l1 i1 := by
  rw [Prog.get_bind_ok] at hm
  split_ifs at hm with hv
  · obtain rfl := Prog.pure_state hm
    exact ⟨role, h, h0⟩
  · obtain ⟨hu, -⟩ := h.good.tables.user_leaf h.from_root h.table h0 hi0 (by simpa using hv)
    obtain ⟨role', ha⟩ := (clonePage_spec h.good h.to_root (userVa_aligned hi1 hi0) hu).ok hm
    exact ⟨role', h.grows ha.page.grows, (ha.page.grows.keep _ (by simp [h0])).trans h0⟩

theorem cloneTable_asks (is : List ℕ) (hi1 : i1 < 512) (his : ∀ i ∈ is, i < 512)
    (h : Copying s src dst l1 role m) (h0 : role l0 = .table 0 l1 i1) :
    AllocsUnder s (Prog.tryEach (fun i0 => do
      let m ← get
      let e0 := m.pte l0 i0
      if !pteValid e0 then return .ok ()
      clonePage dst (userVa i1 i0) e0) is) m := by
  refine .tryEach (fun is m => (∀ i ∈ is, i < 512) ∧ ∃ role, Copying s src dst l1 role m ∧
    role l0 = .table 0 l1 i1) ?_ ?_ _ m ⟨his, role, h, h0⟩
  · rintro i0 is m ⟨-, role, h, -⟩
    refine .get_bind ?_
    dsimp only
    split_ifs
    · exact .pure _ _
    · refine page_asks (fun q m' => copyBytes m'.mem (pteAddr (m.pte l0 i0)) q pageSize)
        h.good h.active h.to_root ?_
      intro q m' a ha
      simp only [copyBytes]
      rw [if_neg (by omega)]
  · rintro i0 is m m' ⟨his, role, h, h0⟩ hm
    exact ⟨fun i hi => his i (by simp [hi]), cloneEntry_keeps hi1 (his i0 (by simp)) h h0 hm⟩

/-- So does copying a whole level-0 table. -/
theorem cloneTableEntry_keeps {res : Except String Unit} (hi1 : i1 < 512) (hne : src ≠ dst)
    (h : Copying s src dst l1 role m)
    (hm : (do
      let m ← get
      let e1 := m.pte l1 i1
      if !pteValid e1 then return .ok ()
      let l0 := pteAddr e1
      Prog.tryEach (fun i0 => do
        let m ← get
        let e0 := m.pte l0 i0
        if !pteValid e0 then return .ok ()
        clonePage dst (userVa i1 i0) e0) (List.range 512) : MachineM (Except String Unit)) m =
      .ok (res, m1)) : ∃ role', Copying s src dst l1 role' m1 := by
  have hrange : ∀ i ∈ List.range 512, i < 512 := fun i hi => List.mem_range.mp hi
  rw [Prog.get_bind_ok] at hm
  split_ifs at hm with hv
  · obtain rfl := Prog.pure_state hm
    exact ⟨role, h⟩
  · obtain ⟨role', hran⟩ := (cloneTable_spec _ hi1 hrange h.good h.from_root h.to_root hne h.table
      (h.leaf_table hi1 (by simpa using hv)) (h.good.sees (.inl h.to_root))).ok hm
    exact ⟨role', h.grows hran.pages.grows⟩

/-- A copy begins with the level-1 table of the source. -/
theorem Copying.start (hg : Good role m) (hs : Rooted role s) (hsrc : role src = .root)
    (hd : role dst = .root) (hv : pteValid (m.pte src userRootSlot) = true) :
    Copying s src dst (pteAddr (m.pte src userRootSlot)) role m := by
  have hns : ¬ Shared role m src userRootSlot := fun hsh => hsh.2.1 rfl
  exact ⟨hg, hs, hsrc, hd, ((hg.tables.down src 2 userRootSlot (by simp [hsrc, Role.level])
    (by decide) hv hns).1 (by omega)).2⟩

theorem cloneUserSpace_asks (hg : Good role m) (hs : Rooted role s) (hsrc : role src = .root)
    (hd : role dst = .root) (hne : src ≠ dst) : AllocsUnder s (cloneUserSpace src dst) m := by
  unfold cloneUserSpace
  refine .get_bind ?_
  dsimp only
  split_ifs with hv
  · exact .pure _ _
  · have hrange : ∀ i ∈ List.range 512, i < 512 := fun i hi => List.mem_range.mp hi
    refine .tryEach (fun is m' => (∀ i ∈ is, i < 512) ∧
      ∃ role, Copying s src dst (pteAddr (m.pte src userRootSlot)) role m') ?_ ?_ _ m
      ⟨hrange, role, .start hg hs hsrc hd (by simpa using hv)⟩
    · rintro i1 is m ⟨his, role, h⟩
      refine .get_bind ?_
      split_ifs with hv1
      · exact .pure _ _
      · have hi1 := his i1 (by simp)
        exact cloneTable_asks _ hi1 hrange h (h.leaf_table hi1 (by simpa using hv1))
    · rintro i1 is m m' ⟨his, role, h⟩ hm
      exact ⟨fun i hi => his i (by simp [hi]), cloneTableEntry_keeps (his i1 (by simp)) hne h hm⟩

end Copy

end Programs

/-! ### The system calls that ask for frames -/

/-- The same for the kernel, whose `satp` designates `s`. -/
abbrev KernelAllocsUnder (s : ℕ) {α : Type} (x : KernelM α) (k : Kernel) : Prop :=
  Prog.Meets (fun k => k.machine.asks) (fun c => TablesInUse s c.machine) x k

section Kernels

variable {α : Type} {role : ℕ → Role} {k : Kernel} {p : Process} {s : ℕ}

theorem onMachine_asks {x : MachineM α} (h : AllocsUnder s x k.machine) :
    KernelAllocsUnder s (onMachine x) k := by
  unfold KernelAllocsUnder onMachine
  refine Prog.Meets.zoom ?_ h
  intro m k
  rfl

theorem onMachineFor_asks {x : MachineM α} {pid : ℕ}
    (h : AllocsUnder s x { k.machine with account := pid }) :
    KernelAllocsUnder s (onMachineFor pid x) k :=
  .skip (onMachine_ok.mpr ⟨_, rfl, rfl⟩) rfl
    (onMachine_asks (k := { k with machine := { k.machine with account := pid } }) h)

theorem slotAt_asks (i : ℕ) : KernelAllocsUnder s (slotAt i) k := by
  unfold slotAt
  split_ifs
  · exact .get_bind (.pure _ _)
  · exact .stop _ _

theorem procAt_asks (i : ℕ) : KernelAllocsUnder s (procAt i) k := by
  refine .bind (slotAt_asks i) fun o k' _ => ?_
  cases o with
  | none => exact .stop _ _
  | some p => exact .pure _ _

theorem resumeCurrent_asks : KernelAllocsUnder s resumeCurrent k :=
  .get_bind (.bind (procAt_asks _) fun _ _ _ => .get_bind (.none (Prog.modify_apply _ _) rfl))

/-- The release of a whole space and then of its root. -/
theorem release_asks {r : ℕ} {f : KernelM α} (hm : Memory role k) (hr : role r = .root)
    (hf : ∀ m', KernelAllocsUnder s f { k with machine := m' }) :
    KernelAllocsUnder s (do
      onMachine (freeUserSpace r)
      onMachine (pageFree r 1)
      f) k := by
  obtain ⟨_, m1, h1, role1, hs1, -⟩ := (freeUserSpace_spec hm.good hr).returns
  have hm1 := hm.shrinks hs1
  obtain ⟨_, m2, h2, hrel⟩ :=
    (pageFree_root_spec hm1.good ((hs1.root_iff r).mpr hr)).returns
  refine .skip (onMachine_ok.mpr ⟨m1, h1, rfl⟩) hs1.asks ?_
  exact .skip (onMachine_ok.mpr ⟨m2, h2, rfl⟩) hrel.freed.asks (hf m2)

theorem forkCurrent_asks {tf : TrapFrame} (hm : Memory role k) (hs : Rooted role s) :
    KernelAllocsUnder s (forkCurrent tf) k := by
  unfold forkCurrent
  refine .get_bind ?_
  dsimp only
  cases k.procs.position (·.isNone) with
  | none => exact .pure _ _
  | some slot =>
    refine .bind (procAt_asks _) fun p k1 hp => ?_
    obtain ⟨-, hp, rfl⟩ := procAt_ok.mp hp
    have hg := hm.good.account k1.procs.nextPid
    refine .bind (onMachineFor_asks (newUserRoot_asks (hg.tablesInUse hs))) fun o k2 ho => ?_
    obtain ⟨m1, h1, rfl⟩ := onMachineFor_ok.mp ho
    have hnew := (newUserRoot_spec hg).ok h1
    cases o with
    | none => exact .pure _ _
    | some r =>
      have hroot := hm.root _ p hp
      have hne := hm.root_ne hnew.got.free hp
      have hkeep : ∀ q, role q ≠ .other → Function.update role r .root q = role q :=
        fun q hq => hnew.keep hg hq
      have hs1 : Rooted (Function.update role r .root) s := by
        rw [Rooted, hkeep s hs.ne_other]
        exact hs
      refine .bind (onMachine_asks (cloneUserSpace_asks hnew.good hs1
        ((hkeep _ (by simp [hroot])).trans hroot) (FreshRoot.role_self role r) hne))
        fun res k3 hclone => ?_
      obtain ⟨m2, h2, rfl⟩ := onMachine_ok.mp hclone
      obtain ⟨role2, hnew2⟩ := hm.fork_effect hp h1 h2
      cases res with
      | error e =>
        exact release_asks (hm.newSpace hnew2) hnew2.adds.root fun _ => .pure _ _
      | ok u =>
        refine .ofExcept_bind fun next _ => ?_
        refine .modify_bind rfl (.modify_bind rfl (.modify_bind rfl (.modify_bind rfl ?_)))
        exact .pure _ _

theorem execCurrent_asks {disk : Disk} {name : List UInt8} (hm : Memory role k)
    (hs : Rooted role s) : KernelAllocsUnder s (execCurrent disk name) k := by
  unfold execCurrent
  refine .get_bind (.ofExcept_bind fun o _ => ?_)
  cases o with
  | none => exact .pure _ _
  | some image =>
    refine .get_bind (.bind (procAt_asks _) fun p k1 hp => ?_)
    obtain ⟨-, hp, rfl⟩ := procAt_ok.mp hp
    have hg := hm.good.account p.pid
    refine .bind (onMachineFor_asks (buildAddressSpace_asks hg hs)) fun res k2 hb => ?_
    obtain ⟨m1, h1, rfl⟩ := onMachineFor_ok.mp hb
    cases res with
    | error e => exact .pure _ _
    | ok built =>
      obtain ⟨q, entry, brk⟩ := built
      rcases hm.build_effect h1 with ⟨-, hf⟩ | ⟨q', vas, ok, role1, hn, -⟩
      · simp [isOk_ok] at hf
      have hm1 := hm.newSpace hn
      refine .bind (procAt_asks _) fun p' k3 h3 => ?_
      obtain ⟨-, hp', rfl⟩ := procAt_ok.mp h3
      refine release_asks hm1 (hm1.root _ p' hp') fun m' => ?_
      exact .modify_bind rfl (.modify_bind rfl (.pure _ _))

theorem currentInfo_asks : KernelAllocsUnder s currentInfo k :=
  .get_bind (.bind (procAt_asks _) fun _ _ _ => .pure _ _)

theorem sysExecve_asks {io : Io} {tf : TrapFrame} (hm : Memory role k) (hs : Rooted role s) :
    KernelAllocsUnder s (sysExecve io tf) k := by
  unfold sysExecve
  refine .bind currentInfo_asks fun r k1 hr => ?_
  obtain ⟨p, -, hp, rfl, rfl⟩ := currentInfo_ok.mp hr
  have ha0 : tf.a0 < usizeBound := UInt64.toNat_lt _
  obtain ⟨res, m', hc, rfl⟩ := (copyInCstr_spec tf.a0 128 hm.good (hm.root _ p hp) ha0).returns
  refine .skip (onMachine_ok.mpr ⟨_, hc, rfl⟩) rfl ?_
  cases res with
  | error e => exact .pure _ _
  | ok name => exact execCurrent_asks hm hs

theorem sysMmap_asks {tf : TrapFrame} (hm : Memory role k) (hs : Rooted role s) :
    KernelAllocsUnder s (sysMmap tf) k := by
  unfold sysMmap
  dsimp only
  split_ifs
  · exact .pure _ _
  · refine .get_bind (.bind (procAt_asks _) fun p k1 hp => ?_)
    obtain ⟨-, hp, rfl⟩ := procAt_ok.mp hp
    refine .ofExcept_bind fun size _ => .ofExcept_bind fun next _ => .modify_bind rfl ?_
    have hb : Both s p.rootPa { k1.machine with account := p.pid } :=
      ⟨role, hm.good.account p.pid, hs, hm.root _ p hp⟩
    refine .bind (onMachineFor_asks (mmapPages_asks (hm.mmap_aligned _ p hp) hb)) fun res k2 _ => ?_
    cases res with
    | ok u => exact .pure _ _
    | error e => exact .pure _ _

theorem heapGrow_asks {size align : ℕ} (hm : Memory role k) (hs : Rooted role s) :
    KernelAllocsUnder s (heapGrow size align) k := by
  have hg := hm.good.account 0
  refine .bind (onMachineFor_asks (pageAlloc_asks _ (hg.tablesInUse hs))) fun o k1 _ => ?_
  cases o with
  | none => exact .stop _ _
  | some addr => exact .none (Prog.modify_apply _ _) rfl

/-- A system call asks for frames only in its own body. -/
theorem step_asks {t : UserTrap} {io : Io} {no : Sysno} (hcause : t.cause = .ecall io)
    (hno : Sysno.ofNr (t.regs 17).toNat = no)
    (h : ∀ tf, KernelAllocsUnder s (syscall io tf no) (trapState t k)) :
    KernelAllocsUnder s (step (.trap t)) k := by
  refine .get_bind ?_
  dsimp only
  split_ifs
  · exact .pure _ _
  · refine .skip (t := ({ k with sstatus := t.sstatus } : Kernel).withFrame k.current
      (saveFrame (k.frames k.current) t)) rfl rfl ?_
    rw [hcause]
    refine .get_bind (.ofExcept_bind fun sepc hsepc => ?_)
    obtain ⟨-, rfl⟩ := checkedAdd_ok.mp hsepc
    refine .skip (a := ()) (t := trapState t k) ?_ rfl ?_
    · refine setFrame_ok.mpr ?_
      unfold trapState trapFrame
      rw [hcause]
      exact (Kernel.withFrame_twice
        (f := fun tf => { tf with sepc := UInt64.ofNat (tf.sepc.toNat + 4) })).symm
    · refine .get_bind ?_
      dsimp only
      have ha7 : ((trapState t k).frames (trapState t k).current).a7 = (t.regs 17).toNat :=
        trapState_frame.symm ▸ trapFrame_reg hcause _ (by decide)
      rw [ha7, hno]
      refine .bind (h _) fun r k1 _ => ?_
      cases r with
      | none => exact .pure _ _
      | some ret => exact .get_bind (.modify_bind rfl resumeCurrent_asks)

end Kernels

end LightOS
