import LightOS.Contents
import LightOS.Hardware
import LightOS.Progress

/-!
# What the loader loads

An image that the loader accepts is loaded exactly: the pages of its PT_LOAD segments, and
no others, are mapped with the permissions of their headers, and hold the bytes of the file
followed by zeros. The headers are described here by the fields of the file format, as
little-endian numbers at their offsets.
-/
namespace LightOS.Elf
open Lib PageAllocator

/-! ### Fields of the file format -/

/-- The little-endian value of a byte string. -/
def leValue : List UInt8 → ℕ
  | [] => 0
  | b :: bs => b.toNat + 256 * leValue bs

/-- The number in the `n` bytes at `off`. -/
def field (image : List UInt8) (off n : ℕ) : ℕ := leValue ((image.drop off).take n)

def eEntry (image : List UInt8) : ℕ := field image 24 8
def ePhoff (image : List UInt8) : ℕ := field image 32 8
def ePhentsize (image : List UInt8) : ℕ := field image 54 2
def ePhnum (image : List UInt8) : ℕ := field image 56 2

/-- Where program header `i` starts. -/
def phdrAt (image : List UInt8) (i : ℕ) : ℕ := ePhoff image + i * ePhentsize image

/-- Program header `i` is a PT_LOAD header. -/
def IsLoad (image : List UInt8) (i : ℕ) : Prop := field image (phdrAt image i) 4 = ptLoad

/-- The segment that program header `i` describes. -/
def segment (image : List UInt8) (i : ℕ) : Segment where
  flags := field image (phdrAt image i + 4) 4
  offset := field image (phdrAt image i + 8) 8
  vaddr := field image (phdrAt image i + 16) 8
  filesz := field image (phdrAt image i + 32) 8
  memsz := field image (phdrAt image i + 40) 8

/-- `page_up(vaddr + memsz)` as a number. -/
def Segment.top (seg : Segment) : ℕ := (seg.vaddr + seg.memsz + 4095) / 4096 * 4096

instance (image : List UInt8) (i : ℕ) : Decidable (IsLoad image i) :=
  inferInstanceAs (Decidable (_ = _))

/-- Program header `i` lies in the file. -/
def InFile (image : List UInt8) (i : ℕ) : Prop := phdrAt image i + 56 ≤ image.length

instance (image : List UInt8) (i : ℕ) : Decidable (InFile image i) :=
  inferInstanceAs (Decidable (_ ≤ _))

/-- The bytes of the segment lie in the file and its pages are aligned. -/
structure Segment.WellFormed (seg : Segment) (image : List UInt8) : Prop where
  filesz_le : seg.filesz ≤ seg.memsz
  in_file : seg.offset + seg.filesz ≤ image.length
  aligned : seg.vaddr % pageSize = 0

/-- A header that the loader accepts, and whose end is an address. -/
def Passes (image : List UInt8) (i : ℕ) : Prop :=
  phdrAt image i + 56 < usizeBound ∧ InFile image i ∧ (IsLoad image i →
    (segment image i).offset + (segment image i).filesz < usizeBound ∧
    (segment image i).WellFormed image ∧
    (segment image i).vaddr + (segment image i).memsz + 4096 < usizeBound)

/-- A header at which one of the sums of the loader exceeds 64 bits. -/
def Overflows (image : List UInt8) (i : ℕ) : Prop :=
  usizeBound ≤ phdrAt image i + 56 ∨ InFile image i ∧ IsLoad image i ∧
    ((segment image i).filesz ≤ (segment image i).memsz ∧
        usizeBound ≤ (segment image i).offset + (segment image i).filesz ∨
      (segment image i).offset + (segment image i).filesz < usizeBound ∧
        (segment image i).WellFormed image ∧
        usizeBound ≤ (segment image i).vaddr + (segment image i).memsz + 4096)

theorem readLe_field {b : List UInt8} {n : ℕ} : ∀ {off : ℕ}, off + n ≤ b.length →
    readLe b off n = .ok (field b off n) := by
  induction n with
  | zero =>
      intro off _
      rw [readLe, field, List.take_zero, leValue]
  | succ n ih =>
      intro off h
      have hlt : off < b.length := by omega
      have hlo : byteAt b off = .ok (b[off]).toNat := by
        rw [byteAt, List.getElem?_eq_getElem hlt]
      rw [readLe, hlo, ih (by omega), field, field, ← List.cons_getElem_drop_succ (h := hlt),
        List.take_succ_cons, leValue]
      rfl

theorem readHeader_fields {image : List UInt8} {h : ℕ × ℕ × ℕ × ℕ}
    (hh : readHeader image = .ok (.ok h)) :
    h = (eEntry image, ePhoff image, ePhentsize image, ePhnum image) := by
  unfold readHeader at hh
  by_cases h1 : image.length < 64 ∨ image.take 4 ≠ [0x7f, 0x45, 0x4c, 0x46]
  · rw [if_pos h1] at hh
    cases hh
  have hlen : 64 ≤ image.length := by
    by_contra hc
    exact h1 (.inl (by omega))
  have e1 : readU16 image 18 = _ := readLe_field (by omega)
  have e2 : readU16 image 16 = _ := readLe_field (by omega)
  have e3 : readU64 image 24 = _ := readLe_field (by omega)
  have e4 : readU64 image 32 = _ := readLe_field (by omega)
  have e5 : readU16 image 54 = _ := readLe_field (by omega)
  have e6 : readU16 image 56 = _ := readLe_field (by omega)
  simp only [if_neg h1, e1, e2, e3, e4, e5, e6, bind, Except.bind, pure, Except.pure] at hh
  split_ifs at hh
  · cases hh
  · cases hh
  · cases hh
  · exact (Except.ok.inj (Except.ok.inj hh)).symm

/-- What the loader makes of a header, by its fields. -/
theorem readSegment_fields (image : List UInt8) (i : ℕ) :
    readSegment image (ePhoff image) (ePhentsize image) i =
      if usizeBound ≤ phdrAt image i + 56 then .error (.panic .overflow)
      else if ¬ InFile image i then .ok (.error "elf: truncated program headers")
      else if ¬ IsLoad image i then .ok (.ok none)
      else if (segment image i).memsz < (segment image i).filesz then
        .ok (.error "elf: malformed segment")
      else if usizeBound ≤ (segment image i).offset + (segment image i).filesz then
        .error (.panic .overflow)
      else if image.length < (segment image i).offset + (segment image i).filesz then
        .ok (.error "elf: malformed segment")
      else if (segment image i).vaddr % pageSize ≠ 0 then
        .ok (.error "elf: unaligned segment (link with -zmax-page-size=4096)")
      else .ok (.ok (some (segment image i))) := by
  obtain ⟨ph, hph⟩ : ∃ ph, ph = phdrAt image i := ⟨_, rfl⟩
  have hph' : ePhoff image + i * ePhentsize image = ph := hph.symm
  unfold readSegment
  rw [← hph]
  by_cases h1 : usizeBound ≤ ph + 56
  · rw [if_pos h1]
    unfold checkedAdd
    rw [hph']
    by_cases h2 : ph < usizeBound
    · simp only [if_pos h2, bind, Except.bind]
      rw [if_neg (by omega)]
    · simp only [if_neg h2, bind, Except.bind]
  · have hadd1 : checkedAdd (ePhoff image) (i * ePhentsize image) = .ok ph :=
      checkedAdd_ok.mpr ⟨by omega, hph⟩
    have hadd2 : checkedAdd ph 56 = .ok (ph + 56) := checkedAdd_ok.mpr ⟨by omega, rfl⟩
    rw [if_neg h1, hadd1]
    simp only [bind, Except.bind, hadd2, pure, Except.pure]
    by_cases h2 : InFile image i
    swap
    · rw [if_pos h2, if_pos (by rw [InFile, ← hph] at h2; omega)]
    have hlen : ph + 56 ≤ image.length := by rwa [InFile, ← hph] at h2
    rw [if_neg (not_not.mpr h2), if_neg (by omega)]
    have e1 : readU32 image ph = _ := readLe_field (by omega)
    have e2 : readU32 image (ph + 4) = _ := readLe_field (by omega)
    have e3 : readU64 image (ph + 8) = _ := readLe_field (by omega)
    have e4 : readU64 image (ph + 16) = _ := readLe_field (by omega)
    have e5 : readU64 image (ph + 32) = _ := readLe_field (by omega)
    have e6 : readU64 image (ph + 40) = _ := readLe_field (by omega)
    simp only [e1, e2, e3, e4, e5, e6]
    by_cases h3 : IsLoad image i
    swap
    · rw [if_pos h3, if_pos (by rwa [IsLoad, ← hph] at h3)]
    rw [if_neg (not_not.mpr h3), if_neg (by rw [IsLoad, ← hph] at h3; exact not_not.mpr h3)]
    have hseg : segment image i = ⟨field image (ph + 4) 4, field image (ph + 8) 8,
        field image (ph + 16) 8, field image (ph + 32) 8, field image (ph + 40) 8⟩ := by
      rw [segment, ← hph]
    rw [hseg]
    dsimp only
    by_cases h4 : field image (ph + 40) 8 < field image (ph + 32) 8
    · rw [if_pos h4, if_pos h4]
    rw [if_neg h4, if_neg h4]
    by_cases h5 : usizeBound ≤ field image (ph + 8) 8 + field image (ph + 32) 8
    · rw [if_pos h5, checkedAdd, if_neg (by omega)]
    · have hadd3 := checkedAdd_ok.mpr ⟨lt_of_not_ge h5, rfl⟩
      rw [if_neg h5, hadd3]

theorem readSegment_none {image : List UInt8} {i : ℕ}
    (h : readSegment image (ePhoff image) (ePhentsize image) i = .ok (.ok none)) :
    Passes image i ∧ ¬ IsLoad image i := by
  rw [readSegment_fields] at h
  split_ifs at h with h1 h2 h3
  all_goals try (cases h; done)
  exact ⟨⟨lt_of_not_ge h1, h2, fun hl => absurd hl h3⟩, h3⟩

theorem readSegment_some {image : List UInt8} {i : ℕ} {seg : Segment}
    (h : readSegment image (ePhoff image) (ePhentsize image) i = .ok (.ok (some seg))) :
    seg = segment image i ∧ phdrAt image i + 56 < usizeBound ∧ InFile image i ∧
      IsLoad image i ∧ (segment image i).offset + (segment image i).filesz < usizeBound ∧
      (segment image i).WellFormed image := by
  rw [readSegment_fields] at h
  split_ifs at h with h1 h2 h3 h4 h5 h6 h7
  all_goals try (cases h; done)
  obtain rfl := Option.some.inj (Except.ok.inj (Except.ok.inj h))
  exact ⟨rfl, lt_of_not_ge h1, h2, h3, lt_of_not_ge h5,
    ⟨le_of_not_gt h4, le_of_not_gt h6, not_not.mp h7⟩⟩

theorem endVa_ok {seg : Segment} {stop : ℕ} : seg.endVa = .ok stop ↔
    seg.vaddr + seg.memsz + 4096 < usizeBound ∧ stop = seg.top := by
  unfold Segment.endVa Segment.top
  by_cases h : seg.vaddr + seg.memsz < usizeBound
  · simp only [checkedAdd_ok.mpr ⟨h, rfl⟩, bind, Except.bind]
    exact pageUp_ok
  · simp only [checkedAdd, if_neg h, bind, Except.bind]
    exact iff_of_false (fun he => by cases he) fun he => h (by omega)

/-! ### Pages and their contents -/

/-- The byte of a segment at an address: the file's, or zero behind it. -/
def Segment.content (seg : Segment) (image : List UInt8) (a : ℕ) : UInt8 :=
  if a - seg.vaddr < seg.filesz then image.getD (seg.offset + (a - seg.vaddr)) 0 else 0

/-- The page of a segment at `va`. -/
def Segment.page (seg : Segment) (image : List UInt8) (va : ℕ) : PageSpec :=
  ⟨va, seg.pteFlags, fun o => seg.content image (va + o)⟩

/-- The pages that a header makes the loader map. -/
def loadPages (image : List UInt8) (i : ℕ) : List PageSpec :=
  if IsLoad image i then
    ((segment image i).pageVas (segment image i).top).map ((segment image i).page image)
  else []

/-- The break after a header. -/
def nextBrk (image : List UInt8) (brk i : ℕ) : ℕ :=
  if IsLoad image i then max brk (segment image i).top else brk

theorem Segment.pteFlags_ok (seg : Segment) : FlagsOk seg.pteFlags := by
  unfold Segment.pteFlags FlagsOk
  split_ifs <;> decide

section Pages

variable {role : ℕ → Role} {m : Machine} {r va : ℕ} {seg : Segment} {image : List UInt8}

/-- A zeroed frame with the part of the file for one page copied to it. -/
theorem Segment.WellFormed.copied (h : seg.WellFormed image) (hva : seg.vaddr ≤ va) {mem : Mem}
    {q : ℕ} (hz : ∀ a, q ≤ a → a < q + pageSize → mem a = 0) {o : ℕ} (ho : o < pageSize) :
    writeBytes mem q (seg.pageBytes image va) (q + o) = seg.content image (va + o) := by
  have hin := h.in_file
  have hsum : va + o - seg.vaddr = va - seg.vaddr + o := by omega
  unfold Segment.content Segment.pageBytes writeBytes
  dsimp only
  rw [hsum, Nat.add_sub_cancel_left]
  by_cases hpart : va - seg.vaddr < seg.filesz
  · rw [if_pos hpart]
    have hlen : ((image.drop (seg.offset + (va - seg.vaddr))).take
        (min pageSize (seg.filesz - (va - seg.vaddr)))).length =
        min pageSize (seg.filesz - (va - seg.vaddr)) := by
      rw [List.length_take, List.length_drop]
      omega
    rw [hlen]
    by_cases hfile : va - seg.vaddr + o < seg.filesz
    · rw [if_pos (by omega), if_pos hfile, List.getD_eq_getElem?_getD, List.getD_eq_getElem?_getD,
        List.getElem?_take_of_lt (by omega), List.getElem?_drop, Nat.add_assoc]
    · rw [if_neg (by omega), if_neg hfile]
      exact hz _ (by omega) (by omega)
  · have hnone : ¬ (q ≤ q + o ∧ q + o < q + ([] : List UInt8).length) := by
      rw [List.length_nil]
      omega
    rw [if_neg hpart, if_neg hnone, if_neg (by omega)]
    exact hz _ (by omega) (by omega)

theorem loadPage_filled (hg : Good role m) (hr : role r = .root) (hw : seg.WellFormed image)
    (hva : va % pageSize = 0) (hle : seg.vaddr ≤ va) :
    Prog.Wp (loadPage image r seg va) m (fun res m' =>
      FilledUpTo r (fun _ => True) [seg.page image va] res.isOk role m m') Prog.Never := by
  unfold loadPage
  refine (pageAlloc_one hg).bind fun res m1 h1 => ?_
  cases res with
  | none =>
    obtain ⟨rfl, -⟩ := h1
    exact Prog.wp_pure.mpr ⟨role, 0, .nil hg, by simp [isOk_error]⟩
  | some q =>
    dsimp only
    rw [Prog.wp_bind, Prog.wp_modify]
    have hlen := seg.pageBytes_length image va
    have hgot : Got m q { m1 with mem := writeBytes m1.mem q (seg.pageBytes image va) } := by
      refine h1.1.fill fun a ha => ?_
      simp only [writeBytes]
      rw [if_neg (by omega)]
    exact map_filled hg hgot (.inl hr) (fun he => absurd he (hg.root_ne hr)) hva seg.pteFlags_ok
      seg.pteFlags_spec.2 (fun o ho => hw.copied hle h1.2 ho) trivial

theorem wellFormed_pageVas (hw : seg.WellFormed image) {stop : ℕ} (hva : va ∈ seg.pageVas stop) :
    va % pageSize = 0 ∧ seg.vaddr ≤ va := by
  have hal := hw.aligned
  obtain ⟨i, -, rfl⟩ := List.mem_map.mp hva
  simp only [pageSize] at *
  omega

/-- The loop over the headers, if it ends without an error. -/
theorem loadSegments_filled (is : List ℕ) : ∀ {role : ℕ → Role} {m : Machine} (brk : ℕ),
    Good role m → role r = .root →
    Prog.Wp (loadSegments image r (ePhoff image) (ePhentsize image) is brk) m (fun res m' =>
      ∀ stop, res = .ok stop → (∃ role', Filled r (fun _ => True) (is.flatMap (loadPages image))
        role m role' m') ∧ (∀ i ∈ is, Passes image i) ∧ stop = is.foldl (nextBrk image) brk)
      fun _ => True := by
  induction is with
  | nil =>
      intro role m brk hg hr
      refine Prog.wp_pure.mpr fun stop hstop => ⟨⟨role, .nil hg⟩, fun i hi => absurd hi List.not_mem_nil, ?_⟩
      exact (Except.ok.inj hstop).symm
  | cons i is ih =>
      intro role m brk hg hr
      rw [loadSegments, Prog.wp_bind, Prog.wp_ofExcept]
      cases hseg : readSegment image (ePhoff image) (ePhentsize image) i with
      | error f => trivial
      | ok res =>
        dsimp only
        cases res with
        | error e => exact Prog.wp_pure.mpr fun stop he => by cases he
        | ok o =>
          cases o with
          | none =>
            obtain ⟨hpass, hnot⟩ := readSegment_none hseg
            refine (ih brk hg hr).mono (fun res m' h stop hstop => ?_) fun _ h => h
            obtain ⟨hfill, hall, htop⟩ := h stop hstop
            rw [List.flatMap_cons, loadPages, if_neg hnot, List.nil_append, List.foldl_cons,
              nextBrk, if_neg hnot]
            exact ⟨hfill, List.forall_mem_cons.mpr ⟨hpass, hall⟩, htop⟩
          | some seg =>
            obtain ⟨rfl, h1, h2, h3, h4, hw⟩ := readSegment_some hseg
            dsimp only
            rw [Prog.wp_bind, Prog.wp_ofExcept]
            cases hend : (segment image i).endVa with
            | error f => trivial
            | ok stop =>
              obtain ⟨hlt, rfl⟩ := endVa_ok.mp hend
              dsimp only
              refine Prog.Wp.bind_total (filled_loop (K := fun _ => True)
                ((segment image i).page image) _ hg hr fun va hva role m hg hr => ?_) ?_
              · obtain ⟨hal, hle⟩ := wellFormed_pageVas hw hva
                exact loadPage_filled hg hr hw hal hle
              rintro res m1 ⟨role1, n, hfill, hn⟩
              cases res with
              | error e => exact Prog.wp_pure.mpr fun stop he => by cases he
              | ok u =>
                rw [hn rfl, List.take_length] at hfill
                have hg1 := hfill.grows.good
                refine (ih _ hg1 ((hfill.grows.root_iff r).mpr hr)).mono
                  (fun res m' h stop hstop => ?_) fun _ h => h
                obtain ⟨⟨role2, hrest⟩, hall, htop⟩ := h stop hstop
                rw [List.flatMap_cons, loadPages, if_pos h3, List.foldl_cons, nextBrk, if_pos h3]
                exact ⟨⟨role2, hfill.append hg hrest⟩,
                  List.forall_mem_cons.mpr ⟨⟨h1, h2, fun _ => ⟨h4, hw, hlt⟩⟩, hall⟩, htop⟩

end Pages

/-! ### The whole image -/

/-- The page permissions that a header asks for: user and read always, write and execute by
its flags. -/
structure Segment.Permits (seg : Segment) (flags : ℕ) : Prop where
  user : flags.testBit 4 = true
  read : flags.testBit 1 = true
  write : flags.testBit 2 = seg.flags.testBit 1
  execute : flags.testBit 3 = seg.flags.testBit 0

theorem Segment.pteFlags_permits (seg : Segment) : seg.Permits seg.pteFlags := by
  have hw : (seg.flags &&& pfW ≠ 0) ↔ seg.flags.testBit 1 = true := by
    rw [← and_two_pow_bne_zero]
    simp [pfW]
  have hx : (seg.flags &&& pfX ≠ 0) ↔ seg.flags.testBit 0 = true := by
    rw [← and_two_pow_bne_zero]
    simp [pfX]
  unfold Segment.pteFlags
  refine ⟨?_, ?_, ?_, ?_⟩
  · split_ifs <;> decide
  · split_ifs <;> decide
  · simp only [hw]
    cases seg.flags.testBit 1 <;> split_ifs <;> simp_all <;> decide
  · simp only [hx]
    cases seg.flags.testBit 0 <;> split_ifs <;> simp_all <;> decide

/-- The addresses of a segment, up to the end of its last page. -/
def Segment.Spans (seg : Segment) (a : ℕ) : Prop := seg.vaddr ≤ a ∧ a < seg.top

instance (seg : Segment) (a : ℕ) : Decidable (seg.Spans a) := inferInstanceAs (Decidable (_ ∧ _))

/-- The tables that the loader leaves at `q`, by what `walk` finds in them. -/
structure LoadedTables (image : List UInt8) (elf : LoadedElf) (q : ℕ) (m m' : Machine) :
    Prop where
  entry : elf.entry = eEntry image
  brk_ge : ∀ i < ePhnum image, IsLoad image i → (segment image i).top ≤ elf.brk
  brk_mem : ∃ i < ePhnum image, IsLoad image i ∧ elf.brk = (segment image i).top
  passes : ∀ i < ePhnum image, Passes image i
  before : ∀ i < ePhnum image, IsLoad image i → ∀ a, (segment image i).Spans a →
    translation m q a = none
  bytes : ∀ i < ePhnum image, IsLoad image i → ∀ a, (segment image i).Spans a →
    ∃ pa flags, translation m' q a = some (pa, flags) ∧ (segment image i).Permits flags ∧
      m'.mem (pa + a % pageSize) = (segment image i).content image a
  other : ∀ a, (∀ i < ePhnum image, IsLoad image i → ∀ b, (segment image i).Spans b →
    ¬ SamePage a b) → translation m' q a = translation m q a
  apart : ∀ i < ePhnum image, ∀ j < ePhnum image, i ≠ j → IsLoad image i → IsLoad image j →
    ∀ a b, (segment image i).Spans a → (segment image j).Spans b → ¬ SamePage a b

/-- The address space that an image describes, made from the one that `m` holds at `q`, as
the hardware sees both. -/
structure LoadedExactly (image : List UInt8) (elf : LoadedElf) (q : ℕ) (m m' : Machine) :
    Prop where
  entry : elf.entry = eEntry image
  brk_ge : ∀ i < ePhnum image, IsLoad image i → (segment image i).top ≤ elf.brk
  brk_mem : ∃ i < ePhnum image, IsLoad image i ∧ elf.brk = (segment image i).top
  in_file : ∀ i < ePhnum image, IsLoad image i →
    (segment image i).offset + (segment image i).filesz ≤ image.length
  bytes : ∀ i < ePhnum image, IsLoad image i → ∀ a, (segment image i).Spans a →
    ∃ pa flags, hardware m' q a = some (pa, flags) ∧ (segment image i).Permits flags ∧
      m'.mem (pa + a % pageSize) = (segment image i).content image a
  other : ∀ a, (∀ i < ePhnum image, IsLoad image i → ¬ (segment image i).Spans a) →
    hardware m' q a = hardware m q a
  apart : ∀ i < ePhnum image, ∀ j < ePhnum image, i ≠ j → IsLoad image i → IsLoad image j →
    ∀ a, (segment image i).Spans a → ¬ (segment image j).Spans a

/-- The segment has no page, or all its addresses are canonical. -/
def Segment.AvoidsGap (seg : Segment) : Prop :=
  seg.vaddr < seg.top → seg.top ≤ 2 ^ 38 ∨ usizeBound - 2 ^ 38 ≤ seg.vaddr

instance (seg : Segment) : Decidable seg.AvoidsGap := inferInstanceAs (Decidable (_ → _))

theorem foldl_nextBrk (image : List UInt8) (is : List ℕ) : ∀ brk,
    brk ≤ is.foldl (nextBrk image) brk ∧
    (∀ i ∈ is, IsLoad image i → (segment image i).top ≤ is.foldl (nextBrk image) brk) ∧
    (is.foldl (nextBrk image) brk = brk ∨
      ∃ i ∈ is, IsLoad image i ∧ is.foldl (nextBrk image) brk = (segment image i).top) := by
  induction is with
  | nil => exact fun brk => ⟨le_rfl, nofun, .inl rfl⟩
  | cons i is ih =>
      intro brk
      rw [List.foldl_cons]
      obtain ⟨h1, h2, h3⟩ := ih (nextBrk image brk i)
      have hle : brk ≤ nextBrk image brk i := by
        unfold nextBrk
        split_ifs <;> omega
      refine ⟨hle.trans h1, List.forall_mem_cons.mpr ⟨fun hl => ?_, h2⟩, ?_⟩
      · refine le_trans ?_ h1
        rw [nextBrk, if_pos hl]
        exact le_max_right _ _
      · rcases h3 with h3 | ⟨j, hj, hl, h3⟩
        · rw [h3]
          by_cases hl : IsLoad image i
          · rw [nextBrk, if_pos hl]
            rcases max_choice brk (segment image i).top with hmax | hmax
            · exact .inl hmax
            · exact .inr ⟨i, by simp, hl, hmax⟩
          · rw [nextBrk, if_neg hl]
            exact .inl rfl
        · exact .inr ⟨j, by simp [hj], hl, h3⟩

section Whole

variable {role : ℕ → Role} {m m' : Machine} {q a : ℕ} {image : List UInt8} {seg : Segment}

/-- The page of an address of the segment is one that the loader maps. -/
theorem Segment.Spans.page (h : seg.Spans a) (hal : seg.vaddr % pageSize = 0) :
    pageDown a ∈ seg.pageVas seg.top ∧ pageDown a + a % pageSize = a ∧ SamePage a (pageDown a) := by
  obtain ⟨h1, h2⟩ := h
  have htop : seg.top % pageSize = 0 := by
    simp only [Segment.top, pageSize]
    omega
  refine ⟨List.mem_map.mpr ⟨(a - seg.vaddr) / pageSize, List.mem_range.mpr ?_, ?_⟩, ?_, ?_⟩
  · simp only [pageSize] at *
    omega
  · simp only [pageDown, pageSize] at *
    omega
  · simp only [pageDown, pageSize]
    omega
  · refine samePage_of_page ?_
    simp only [pageDown, pageSize]
    omega

theorem Segment.spans_of_mem {stop : ℕ} (h : a ∈ seg.pageVas stop) (hstop : stop = seg.top)
    (hal : seg.vaddr % pageSize = 0) : seg.Spans a := by
  obtain ⟨i, hi, rfl⟩ := List.mem_map.mp h
  have hi := List.mem_range.mp hi
  have htop : seg.top % pageSize = 0 := by
    simp only [Segment.top, pageSize]
    omega
  rw [hstop] at hi
  simp only [Segment.Spans, pageSize] at *
  omega

theorem mem_loadPages {i : ℕ} {p : PageSpec} : p ∈ loadPages image i ↔ IsLoad image i ∧
    ∃ va ∈ (segment image i).pageVas (segment image i).top, p = (segment image i).page image va := by
  unfold loadPages
  split_ifs with h
  · simp [h, eq_comm]
  · simp [h]

/-- What is loaded once all headers have passed and their pages are mapped. -/
theorem LoadedTables.of_filled {elf : LoadedElf} {role' : ℕ → Role}
    (hentry : elf.entry = eEntry image)
    (hbrk : elf.brk = (List.range (ePhnum image)).foldl (nextBrk image) 0) (hne : elf.brk ≠ 0)
    (hpass : ∀ i ∈ List.range (ePhnum image), Passes image i)
    (h : Filled q (fun _ => True) ((List.range (ePhnum image)).flatMap (loadPages image))
      role m role' m') : LoadedTables image elf q m m' := by
  have hwell {i : ℕ} (hi : i < ePhnum image) (hl : IsLoad image i) :
      (segment image i).WellFormed image := ((hpass i (List.mem_range.mpr hi)).2.2 hl).2.1
  have hmem {i : ℕ} (hi : i < ePhnum image) (hl : IsLoad image i) {va : ℕ}
      (hva : va ∈ (segment image i).pageVas (segment image i).top) :
      (segment image i).page image va ∈
        (List.range (ePhnum image)).flatMap (loadPages image) :=
    List.mem_flatMap.mpr ⟨i, List.mem_range.mpr hi, mem_loadPages.mpr ⟨hl, va, hva, rfl⟩⟩
  obtain ⟨-, hge, hat⟩ := foldl_nextBrk image (List.range (ePhnum image)) 0
  rw [← hbrk] at hge hat
  have hapart := List.pairwise_flatMap.mp h.apart
  have hlt {i j : ℕ} (hij : i < j) (hj : j < ePhnum image) (hl : IsLoad image i)
      (hl' : IsLoad image j) {a b : ℕ} (ha : (segment image i).Spans a)
      (hb : (segment image j).Spans b) : ¬ SamePage b a := by
    intro hs
    obtain ⟨ha1, -, ha2⟩ := ha.page (hwell (hij.trans hj) hl).aligned
    obtain ⟨hb1, -, hb2⟩ := hb.page (hwell hj hl').aligned
    have hp := List.pairwise_iff_getElem.mp hapart.2 i j (by simp; omega) (by simpa using hj) hij
    rw [List.getElem_range, List.getElem_range] at hp
    refine hp _ (mem_loadPages.mpr ⟨hl, _, ha1, rfl⟩) _ (mem_loadPages.mpr ⟨hl', _, hb1, rfl⟩) ?_
    exact ⟨hb2.1.symm.trans (hs.1.trans ha2.1), hb2.2.1.symm.trans (hs.2.1.trans ha2.2.1),
      hb2.2.2.symm.trans (hs.2.2.trans ha2.2.2)⟩
  refine ⟨hentry, fun i hi hl => hge i (List.mem_range.mpr hi) hl, ?_,
    fun i hi => hpass i (List.mem_range.mpr hi), ?_, ?_, ?_, ?_⟩
  · rcases hat with h0 | ⟨i, hi, hl, he⟩
    · exact absurd h0 hne
    · exact ⟨i, List.mem_range.mp hi, hl, he⟩
  · intro i hi hl a ha
    obtain ⟨hpage, -, hsame⟩ := ha.page (hwell hi hl).aligned
    have hnone := h.before ((segment image i).page image (pageDown a)) (hmem hi hl hpage)
    exact hsame.translation.trans hnone
  · intro i hi hl a ha
    obtain ⟨hpage, hsum, hsame⟩ := ha.page (hwell hi hl).aligned
    obtain ⟨pa, t, k, htr, -, -, hbytes⟩ := h.after _ (hmem hi hl hpage)
    refine ⟨pa, _, hsame.translation.trans htr, (segment image i).pteFlags_permits, ?_⟩
    have hbyte := hbytes (a % pageSize) (Nat.mod_lt a (by decide))
    rw [hbyte]
    change (segment image i).content image (pageDown a + a % pageSize) = _
    rw [hsum]
  · intro a ha
    refine h.other a fun p hp => ?_
    obtain ⟨i, hi, hp⟩ := List.mem_flatMap.mp hp
    obtain ⟨hl, va, hva, rfl⟩ := mem_loadPages.mp hp
    have hi := List.mem_range.mp hi
    exact ha i hi hl va (Segment.spans_of_mem hva rfl (hwell hi hl).aligned)
  · intro i hi j hj hij hl hl' a b ha hb hs
    rcases Nat.lt_or_gt_of_ne hij with h | h
    · exact hlt h hj hl hl' ha hb ⟨hs.1.symm, hs.2.1.symm, hs.2.2.symm⟩
    · exact hlt h hi hl' hl hb ha hs

/-- What the loader leaves of an image that it accepts. -/
theorem load_tables {m0 : Machine} {elf : LoadedElf} (hg : Good role m0)
    (hroot : newUserRoot m0 = .ok (some q, m)) (hload : load image q m = .ok (.ok elf, m')) :
    (∃ role1, Good role1 m ∧ role1 q = .root) ∧ (∃ role2, Good role2 m' ∧ role2 q = .root) ∧
      LoadedTables image elf q m m' := by
  have hfresh : FreshRoot role m0 q m := (newUserRoot_spec hg).ok hroot
  have hself := FreshRoot.role_self role q
  unfold load at hload
  obtain ⟨res, m1, h1, hload⟩ := Prog.bind_ok.mp hload
  obtain ⟨hhead, hm⟩ := Prog.ofExcept_ok.mp h1
  change m1 = m at hm
  subst hm
  cases res with
  | error e => cases hload
  | ok h =>
    obtain rfl := readHeader_fields hhead
    dsimp only at hload
    obtain ⟨res, m2, h2, hload⟩ := Prog.bind_ok.mp hload
    have hspec := (loadSegments_filled (List.range (ePhnum image)) 0 hfresh.good hself).ok h2
    cases res with
    | error e => cases hload
    | ok stop =>
      obtain ⟨⟨role', hfill⟩, hpass, hstop⟩ := hspec stop rfl
      dsimp only at hload
      by_cases h0 : stop = 0
      · rw [if_pos h0] at hload
        cases hload
      · rw [if_neg h0] at hload
        obtain ⟨he, rfl⟩ := Prod.mk.inj (Prog.pure_ok.mp hload)
        obtain rfl := Except.ok.inj he
        exact ⟨⟨_, hfresh.good, hself⟩, ⟨role', hfill.grows.good, (hfill.grows.root_iff q).mpr hself⟩,
          .of_filled rfl hstop h0 hpass hfill⟩

/-- The addresses of a segment are canonical exactly if it avoids the gap. -/
theorem Segment.avoidsGap_iff (hal : seg.vaddr % pageSize = 0)
    (hfit : seg.vaddr + seg.memsz + 4096 < usizeBound) :
    seg.AvoidsGap ↔ ∀ a, seg.Spans a → Canonical a := by
  unfold Segment.AvoidsGap Segment.Spans Canonical Segment.top
  simp only [usizeBound, pageSize] at *
  constructor
  · intro h a ha
    have := h (ha.1.trans_lt ha.2)
    omega
  · intro h hlt
    have hstart := h seg.vaddr ⟨le_rfl, hlt⟩
    by_contra hc
    -- the start lies below the gap, and the gap starts inside the segment
    have := h (2 ^ 38) (by omega)
    omega

/-- An address on a page of the segment is an address of the segment. -/
theorem Segment.Spans.of_page {b : ℕ} (h : seg.Spans b) (hal : seg.vaddr % pageSize = 0)
    (hp : a / pageSize = b / pageSize) : seg.Spans a := by
  unfold Segment.Spans Segment.top at *
  simp only [pageSize] at *
  omega

/-- An image that the loader accepts is loaded exactly if and only if the hardware accepts
the addresses of its segments. -/
theorem load_exact_iff {m0 : Machine} {elf : LoadedElf} (hg : Good role m0)
    (hroot : newUserRoot m0 = .ok (some q, m)) (hload : load image q m = .ok (.ok elf, m')) :
    LoadedExactly image elf q m m' ↔
      ∀ i < ePhnum image, IsLoad image i → (segment image i).AvoidsGap := by
  obtain ⟨⟨role1, hg1, hr1⟩, ⟨role2, hg2, hr2⟩, ht⟩ := load_tables hg hroot hload
  have hwell : ∀ i < ePhnum image, IsLoad image i → (segment image i).vaddr % pageSize = 0 ∧
      (segment image i).vaddr + (segment image i).memsz + 4096 < usizeBound := by
    intro i hi hl
    obtain ⟨-, hw, hfit⟩ := (ht.passes i hi).2.2 hl
    exact ⟨hw.aligned, hfit⟩
  constructor
  · intro h i hi hl
    refine (Segment.avoidsGap_iff (hwell i hi hl).1 (hwell i hi hl).2).mpr fun a ha => ?_
    by_contra hc
    obtain ⟨pa, flags, hpa, -⟩ := h.bytes i hi hl a ha
    rw [hardware_gap hc] at hpa
    cases hpa
  · intro hgap
    have hcan : ∀ i < ePhnum image, IsLoad image i → ∀ a, (segment image i).Spans a → Canonical a :=
      fun i hi hl => (Segment.avoidsGap_iff (hwell i hi hl).1 (hwell i hi hl).2).mp (hgap i hi hl)
    refine ⟨ht.entry, ht.brk_ge, ht.brk_mem, fun i hi hl => ?_, fun i hi hl a ha => ?_,
      fun a ha => ?_, fun i hi j hj hij hl hl' a ha ha' => ?_⟩
    · exact ((ht.passes i hi).2.2 hl).2.1.in_file
    · rw [hg2.hardware_eq hr2 (hcan i hi hl a ha)]
      exact ht.bytes i hi hl a ha
    · by_cases hc : Canonical a
      · rw [hg1.hardware_eq hr1 hc, hg2.hardware_eq hr2 hc]
        refine ht.other a fun i hi hl b hb hs => ha i hi hl ?_
        exact hb.of_page (hwell i hi hl).1 (hc.page_eq (hcan i hi hl b hb) hs)
      · rw [hardware_gap hc, hardware_gap hc]
    · exact ht.apart i hi j hj hij hl hl' a a ha ha' ⟨rfl, rfl, rfl⟩

/-- A new address space is a fresh root, an image and a stack. -/
theorem buildAddressSpace_ok {s : ℕ × ℕ × ℕ} (h : buildAddressSpace image m = .ok (.ok s, m')) :
    ∃ m1 elf m2, newUserRoot m = .ok (some s.1, m1) ∧ load image s.1 m1 = .ok (.ok elf, m2) ∧
      mapStack s.1 m2 = .ok (.ok (), m') ∧ s.2 = (elf.entry, elf.brk) := by
  unfold buildAddressSpace at h
  obtain ⟨o, m1, h1, h⟩ := Prog.bind_ok.mp h
  cases o with
  | none => cases h
  | some root =>
    obtain ⟨res, m2, h2, h⟩ := Prog.bind_ok.mp h
    cases res with
    | error e => cases h
    | ok elf =>
      obtain ⟨res, m3, h3, h⟩ := Prog.bind_ok.mp h
      cases res with
      | error e => cases h
      | ok u =>
        obtain ⟨he, rfl⟩ := Prod.mk.inj (Prog.pure_ok.mp h)
        obtain rfl := Except.ok.inj he
        exact ⟨m1, elf, m2, h1, h2, h3, rfl⟩

/-- A machine that has just started makes a root and loads an image of one page. -/
theorem exists_loaded {entry va : ℕ} (h : OnePage image entry va) : ∃ role m0 m q elf m',
    Good role m0 ∧ newUserRoot m0 = .ok (some q, m) ∧ load image q m = .ok (.ok elf, m') := by
  have hframes := tinyReset_frames image
  obtain ⟨k, role, -, hm, hfree⟩ := boot_succeeds (tinyReset image) (by omega)
  obtain ⟨-, m', hbuild, q, -, rfl, -⟩ := (h.build hm.good (by omega)).returns
  obtain ⟨m1, elf, m2, hroot, hload, -⟩ := buildAddressSpace_ok hbuild
  exact ⟨role, k.machine, m1, q, elf, m2, hm.good, hroot, hload⟩

/-- The smallest image is loaded as it says. -/
theorem load_exact_tiny : ∃ q elf m m', load tinyImage q m = .ok (.ok elf, m') ∧
    LoadedExactly tinyImage elf q m m' := by
  obtain ⟨role, m0, m, q, elf, m', hg, hroot, hload⟩ := exists_loaded tinyImage_onePage
  refine ⟨q, elf, m, m', hload, (load_exact_iff hg hroot hload).mpr ?_⟩
  decide

/-- The same program, linked 2^39 bytes higher. -/
def highImage : List UInt8 :=
  [0x7f, 0x45, 0x4c, 0x46, 2, 1, 1, 0, 0, 0, 0, 0, 0, 0, 0, 0,
   2, 0, 0xf3, 0, 1, 0, 0, 0, 0, 0, 0, 0x40, 0x80, 0, 0, 0,
   64, 0, 0, 0, 0, 0, 0, 0, 0, 0, 0, 0, 0, 0, 0, 0,
   0, 0, 0, 0, 64, 0, 56, 0, 1, 0, 0, 0, 0, 0, 0, 0,
   1, 0, 0, 0, 5, 0, 0, 0, 120, 0, 0, 0, 0, 0, 0, 0,
   0, 0, 0, 0x40, 0x80, 0, 0, 0, 0, 0, 0, 0x40, 0x80, 0, 0, 0,
   4, 0, 0, 0, 0, 0, 0, 0, 4, 0, 0, 0, 0, 0, 0, 0,
   0, 16, 0, 0, 0, 0, 0, 0, 0x6f, 0, 0, 0]

set_option maxRecDepth 4000 in
theorem highImage_onePage : OnePage highImage 0x8040000000 0x8040000000 :=
  ⟨⟨64, 56, ⟨5, 120, 0x8040000000, 4, 4⟩, by rfl, by rfl, by rfl, by rfl⟩, by decide, by decide,
    by decide⟩

/-- It is accepted, but its own address is not mapped, and a page below that no header names
is. -/
theorem load_exact_high : ∃ m0 m q elf m', newUserRoot m0 = .ok (some q, m) ∧
    load highImage q m = .ok (.ok elf, m') ∧ hardware m' q 0x8040000000 = none ∧
    hardware m q 0x40000000 = none ∧ hardware m' q 0x40000000 ≠ none ∧
    ¬ LoadedExactly highImage elf q m m' := by
  obtain ⟨role, m0, m, q, elf, m', hg, hroot, hload⟩ := exists_loaded highImage_onePage
  obtain ⟨⟨role1, hg1, hr1⟩, ⟨role2, hg2, hr2⟩, ht⟩ := load_tables hg hroot hload
  have hspans : (segment highImage 0).Spans 0x8040000000 := by decide
  have hsame : SamePage 0x40000000 0x8040000000 := by decide
  have hlow : Canonical 0x40000000 := by decide
  refine ⟨m0, m, q, elf, m', hroot, hload, hardware_gap (by decide), ?_, ?_, ?_⟩
  · rw [hg1.hardware_eq hr1 hlow, hsame.translation]
    exact ht.before 0 (by decide) (by decide) _ hspans
  · rw [hg2.hardware_eq hr2 hlow, hsame.translation]
    obtain ⟨pa, flags, hpa, -⟩ := ht.bytes 0 (by decide) (by decide) _ hspans
    simp [hpa]
  · rw [load_exact_iff hg hroot hload]
    exact fun h => absurd (h 0 (by decide) (by decide)) (by decide)

end Whole

/-! ### Images that stop the kernel -/

/-- The addresses of the pages that a header makes the loader map. -/
def loadVas (image : List UInt8) (i : ℕ) : List ℕ :=
  if IsLoad image i then (segment image i).pageVas (segment image i).top else []

/-- Some header overflows, and the loader gets to it: the headers before it pass, and with
`n` frames the plan for their pages succeeds. -/
def Reaches (image : List UInt8) (b : Present) (n : ℕ) (is : List ℕ) : Prop :=
  ∃ before i after left, is = before ++ i :: after ∧ Overflows image i ∧
    (∀ j ∈ before, Passes image j) ∧ b.plan n (before.flatMap (loadVas image)) = .enough left

section Faults

variable {image : List UInt8} {i : ℕ} {is : List ℕ} {b : Present} {n : ℕ}

theorem Passes.not_overflows (h : Passes image i) : ¬ Overflows image i := by
  obtain ⟨h1, -, h3⟩ := h
  rintro (h | ⟨-, hl, ⟨-, h⟩ | ⟨-, -, h⟩⟩)
  · omega
  · have := (h3 hl).1
    omega
  · have := (h3 hl).2.2
    omega

theorem readSegment_rejected {e : String}
    (h : readSegment image (ePhoff image) (ePhentsize image) i = .ok (.error e)) :
    ¬ Passes image i ∧ ¬ Overflows image i := by
  rw [readSegment_fields] at h
  split_ifs at h with h1 h2 h3 h4 h5 h6 h7
  all_goals try (cases h; done)
  · refine ⟨fun hp => ?_, ?_⟩
    · have := (hp.2.2 h3).2.1.filesz_le
      omega
    · rintro (h | ⟨-, -, ⟨h, -⟩ | ⟨-, hw, -⟩⟩)
      · exact h1 h
      · omega
      · have := hw.filesz_le
        omega
  · refine ⟨fun hp => ?_, ?_⟩
    · have := (hp.2.2 h3).2.1.in_file
      omega
    · rintro (h | ⟨-, -, ⟨-, h⟩ | ⟨-, hw, -⟩⟩)
      · exact h1 h
      · exact h5 h
      · have := hw.in_file
        omega
  · refine ⟨fun hp => h7 (hp.2.2 h3).2.1.aligned, ?_⟩
    rintro (h | ⟨-, -, ⟨-, h⟩ | ⟨-, hw, -⟩⟩)
    · exact h1 h
    · exact h5 h
    · exact h7 hw.aligned
  · refine ⟨fun hp => h2 hp.2.1, ?_⟩
    rintro (h | ⟨h, -⟩)
    · exact h1 h
    · exact h2 h

theorem readSegment_overflows {f : Fault}
    (h : readSegment image (ePhoff image) (ePhentsize image) i = .error f) :
    Overflows image i := by
  rw [readSegment_fields] at h
  split_ifs at h with h1 h2 h3 h4 h5
  · exact .inl h1
  · exact .inr ⟨h2, h3, .inl ⟨le_of_not_gt h4, h5⟩⟩

theorem reaches_nil : ¬ Reaches image b n [] := by
  rintro ⟨before, i, after, -, h, -⟩
  simp at h

/-- The first header overflows, or it passes, its pages are mapped and a later one is
reached. -/
theorem reaches_cons : Reaches image b n (i :: is) ↔ Overflows image i ∨
    Passes image i ∧ ∃ left, b.plan n (loadVas image i) = .enough left ∧
      Reaches image (b.addAll (loadVas image i)) left is := by
  constructor
  · rintro ⟨before, j, after, left, he, hover, hpass, hplan⟩
    cases before with
    | nil =>
      obtain ⟨rfl, -⟩ := List.cons.inj he
      exact .inl hover
    | cons k before =>
      obtain ⟨rfl, rfl⟩ := List.cons.inj he
      obtain ⟨h1, h2⟩ := List.forall_mem_cons.mp hpass
      rw [List.flatMap_cons, Present.plan_append] at hplan
      cases hfirst : b.plan n (loadVas image i) with
      | enough left' =>
        rw [hfirst] at hplan
        exact .inr ⟨h1, left', rfl, before, j, after, left, rfl, hover, h2, hplan⟩
      | dry => simp [hfirst] at hplan
      | stuck => simp [hfirst] at hplan
  · rintro (hover | ⟨h1, left', hfirst, before, j, after, left, rfl, hover, h2, hplan⟩)
    · exact ⟨[], i, is, n, rfl, hover, nofun, rfl⟩
    · refine ⟨i :: before, j, after, left, rfl, hover, List.forall_mem_cons.mpr ⟨h1, h2⟩, ?_⟩
      rw [List.flatMap_cons, Present.plan_append, hfirst]
      exact hplan

/-- The loop over the headers stops with a fault exactly if it reaches an overflow. -/
theorem loadSegments_faults {r : ℕ} (is : List ℕ) : ∀ {role : ℕ → Role} {m : Machine}
    {b : Present} (brk : ℕ), Good role m → role r = .root → Sees b r role m →
    Prog.Wp (loadSegments image r (ePhoff image) (ePhentsize image) is brk) m
      (fun _ _ => ¬ Reaches image b m.pages.freeFrames is)
      (fun _ => Reaches image b m.pages.freeFrames is) := by
  induction is with
  | nil => exact fun brk _ _ _ => Prog.wp_pure.mpr reaches_nil
  | cons i is ih =>
      intro role m b brk hg hr hs
      rw [loadSegments, Prog.wp_bind, Prog.wp_ofExcept]
      cases hseg : readSegment image (ePhoff image) (ePhentsize image) i with
      | error f => exact reaches_cons.mpr (.inl (readSegment_overflows hseg))
      | ok res =>
        dsimp only
        cases res with
        | error e =>
          obtain ⟨hpass, hover⟩ := readSegment_rejected hseg
          refine Prog.wp_pure.mpr fun h => ?_
          exact (reaches_cons.mp h).elim hover fun h => hpass h.1
        | ok o =>
          cases o with
          | none =>
            obtain ⟨hpass, hnot⟩ := readSegment_none hseg
            have hsame : Reaches image b m.pages.freeFrames (i :: is) ↔
                Reaches image b m.pages.freeFrames is := by
              rw [reaches_cons, loadVas, if_neg hnot]
              simp [hpass, hpass.not_overflows, Present.plan, Present.addAll]
            rw [hsame]
            exact ih brk hg hr hs
          | some seg =>
            obtain ⟨rfl, h1, h2, h3, h4, hw⟩ := readSegment_some hseg
            dsimp only
            rw [Prog.wp_bind, Prog.wp_ofExcept]
            by_cases hlt : (segment image i).vaddr + (segment image i).memsz + 4096 < usizeBound
            · have hpass : Passes image i := ⟨h1, h2, fun _ => ⟨h4, hw, hlt⟩⟩
              rw [endVa_ok.mpr ⟨hlt, rfl⟩]
              dsimp only
              refine Prog.Wp.bind_total (newPages_ran id _ hg hr hs fun va hva _ _ hg hr =>
                loadPage_spec image _ hg hr (wellFormed_pageVas hw hva).1) ?_
              rintro res m1 ⟨role1, hran⟩
              rw [List.map_id] at hran
              cases res with
              | error e =>
                refine Prog.wp_pure.mpr fun h => ?_
                rcases reaches_cons.mp h with h | ⟨-, left, hplan, -⟩
                · exact hpass.not_overflows h
                · rw [loadVas, if_pos h3] at hplan
                  exact hran.not_enough left hplan
              | ok u =>
                obtain ⟨hplan, hsees⟩ := hran.enough
                have hgrows := hran.pages.grows
                have hsame : Reaches image b m.pages.freeFrames (i :: is) ↔
                    Reaches image (b.addAll (loadVas image i)) m1.pages.freeFrames is := by
                  rw [reaches_cons, loadVas, if_pos h3, hplan]
                  simp [hpass, hpass.not_overflows]
                rw [hsame, loadVas, if_pos h3]
                exact ih _ hgrows.good ((hgrows.root_iff r).mpr hr) hsees
            · have hover : Overflows image i :=
                .inr ⟨h2, h3, .inr ⟨h4, hw, le_of_not_gt hlt⟩⟩
              cases hend : (segment image i).endVa with
              | error f => exact reaches_cons.mpr (.inl hover)
              | ok stop => exact absurd (endVa_ok.mp hend).1 hlt

theorem range_split {k : ℕ} {before after : List ℕ} (h : List.range k = before ++ i :: after) :
    i < k ∧ before = List.range i := by
  have hmem : i ∈ List.range k := by
    rw [h]
    simp
  have hlen : before.length < (List.range k).length := by
    rw [h]
    simp
  have hget : (List.range k)[before.length] = i := by
    simp only [h]
    rw [List.getElem_append_right le_rfl]
    simp
  rw [List.getElem_range] at hget
  refine ⟨List.mem_range.mp hmem, ?_⟩
  have htake := congrArg (List.take before.length) h
  rw [List.take_left, List.take_range, hget, Nat.min_eq_left (List.mem_range.mp hmem).le] at htake
  exact htake.symm

end Faults

/-- The image stops the kernel when it is loaded on a fresh root made by `m0`: its file
header is accepted, header `i` is the first whose sums exceed 64 bits, the headers before it
pass, and there is memory for their pages. -/
def Crashes (image : List UInt8) (m0 : Machine) : Prop :=
  (∃ h, readHeader image = .ok (.ok h)) ∧ ∃ i < ePhnum image, Overflows image i ∧
    (∀ j < i, Passes image j) ∧ ∃ left, m0.newView.plan (m0.pages.freeFrames - 1)
      ((List.range i).flatMap (loadVas image)) = .enough left

/-- Every copy of the loader reads inside the file. -/
def ReadsInside (image : List UInt8) : Prop :=
  ∀ i, Passes image i → IsLoad image i → ∀ va ∈ loadVas image i,
    va - (segment image i).vaddr < (segment image i).filesz →
      (segment image i).offset + (va - (segment image i).vaddr) +
        min pageSize ((segment image i).filesz - (va - (segment image i).vaddr)) ≤ image.length

theorem readsInside (image : List UInt8) : ReadsInside image := by
  intro i hp hl va _ hlt
  have := (hp.2.2 hl).2.1.in_file
  omega

/-- On a fresh root the loader returns, for every file but those that overflow. -/
theorem load_returns_iff {role : ℕ → Role} {m0 m : Machine} {q : ℕ} (hg : Good role m0)
    (hroot : newUserRoot m0 = .ok (some q, m)) (image : List UInt8) :
    ((∃ res m', load image q m = .ok (res, m')) ∧ ReadsInside image) ↔ ¬ Crashes image m0 := by
  have hfresh : FreshRoot role m0 q m := (newUserRoot_spec hg).ok hroot
  have hfree : m.pages.freeFrames = m0.pages.freeFrames - 1 := by
    have := hfresh.got.freeFrames
    omega
  suffices hwp : Prog.Wp (load image q) m (fun _ _ => ¬ Crashes image m0)
      fun _ => Crashes image m0 by
    constructor
    · rintro ⟨⟨res, m', h⟩, -⟩
      exact hwp.ok h
    · intro hnot
      obtain ⟨res, m', h, -⟩ := (hwp.mono (fun _ _ h => h) fun _ h => hnot h).returns
      exact ⟨⟨res, m', h⟩, readsInside image⟩
  unfold load
  rw [Prog.wp_bind, Prog.wp_ofExcept]
  obtain ⟨res, hhead⟩ := readHeader_ok image
  rw [hhead]
  cases res with
  | error e =>
    refine Prog.wp_pure.mpr ?_
    rintro ⟨⟨h, hh⟩, -⟩
    rw [hhead] at hh
    cases hh
  | ok h =>
    obtain rfl := readHeader_fields hhead
    have hiff : Reaches image m0.newView m.pages.freeFrames (List.range (ePhnum image)) ↔
        Crashes image m0 := by
      rw [hfree]
      constructor
      · rintro ⟨before, i, after, left, he, hover, hpass, hplan⟩
        obtain ⟨hi, rfl⟩ := range_split he
        exact ⟨⟨_, hhead⟩, i, hi, hover, fun j hj => hpass j (List.mem_range.mpr hj), left, hplan⟩
      · rintro ⟨-, i, hi, hover, hpass, left, hplan⟩
        refine ⟨List.range i, i, (List.range (ePhnum image)).drop (i + 1), left, ?_, hover,
          fun j hj => hpass j (List.mem_range.mp hj), hplan⟩
        have hcons := List.take_append_drop i (List.range (ePhnum image))
        rw [List.take_range, Nat.min_eq_left hi.le,
          List.drop_eq_getElem_cons (by simpa using hi), List.getElem_range] at hcons
        exact hcons.symm
    dsimp only
    rw [Prog.wp_bind]
    refine (loadSegments_faults _ 0 hfresh.good (FreshRoot.role_self role q)
      (hfresh.sees hg)).mono (fun res m' h => ?_) fun _ h => hiff.mp h
    rw [hiff] at h
    cases res with
    | error e => exact Prog.wp_pure.mpr h
    | ok brk =>
      dsimp only
      split_ifs
      · exact Prog.wp_pure.mpr h
      · exact Prog.wp_pure.mpr h

/-- The smallest image is loaded, so it does not crash the loader. -/
theorem load_returns_iff_tiny : ∃ role m0 m q, Good role m0 ∧
    newUserRoot m0 = .ok (some q, m) ∧ (∃ res m', load tinyImage q m = .ok (res, m')) ∧
    ¬ Crashes tinyImage m0 := by
  obtain ⟨role, m0, m, q, elf, m', hg, hroot, hload⟩ := exists_loaded tinyImage_onePage
  have hreturns : ∃ res m', load tinyImage q m = .ok (res, m') := ⟨.ok elf, m', hload⟩
  exact ⟨role, m0, m, q, hg, hroot, hreturns,
    (load_returns_iff hg hroot tinyImage).mp ⟨hreturns, readsInside tinyImage⟩⟩

/-- A file header whose program headers start at the last address. -/
def wrappedImage : List UInt8 :=
  [0x7f, 0x45, 0x4c, 0x46, 2, 1, 1, 0, 0, 0, 0, 0, 0, 0, 0, 0,
   2, 0, 0xf3, 0, 1, 0, 0, 0, 0, 0, 0, 0x40, 0, 0, 0, 0,
   0xff, 0xff, 0xff, 0xff, 0xff, 0xff, 0xff, 0xff, 0, 0, 0, 0, 0, 0, 0, 0,
   0, 0, 0, 0, 64, 0, 56, 0, 1, 0, 0, 0, 0, 0, 0, 0]

set_option maxRecDepth 4000 in
theorem load_wrappedImage (q : ℕ) (m : Machine) :
    load wrappedImage q m = .error (.panic .overflow) := by
  have hhead : readHeader wrappedImage = .ok (.ok (0x40000000, 2 ^ 64 - 1, 56, 1)) := by rfl
  have hseg : readSegment wrappedImage (2 ^ 64 - 1) 56 0 = .error (.panic .overflow) := by rfl
  unfold load
  rw [Prog.bind_apply, hhead, Prog.ofExcept_apply]
  dsimp only
  rw [Prog.bind_apply, show List.range 1 = [0] from rfl, loadSegments, Prog.bind_apply, hseg]
  rfl

/-- On a fresh root that header stops the kernel. -/
theorem load_panics : ∃ m0 m q, newUserRoot m0 = .ok (some q, m) ∧
    load wrappedImage q m = .error (.panic .overflow) := by
  obtain ⟨-, m0, m, q, -, -, -, hroot, -⟩ := exists_loaded tinyImage_onePage
  exact ⟨m0, m, q, hroot, load_wrappedImage q m⟩

end LightOS.Elf
