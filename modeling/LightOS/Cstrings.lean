import LightOS.Copies

/-!
# C strings of a process

`copy_in_cstr` fetches a string byte by byte, so that it may end on the last byte
of a mapped page. Its loop stops one byte short of the buffer: a string takes two
bytes less than the buffer has, where its comment promises one less.
-/
namespace LightOS
open Lib PageAllocator

variable {m m' : Machine} {root uva va : ℕ} {s acc : List UInt8} {b b' : UInt8}

/-- The user address is mapped and holds `b`. -/
def UserByte (m : Machine) (root va : ℕ) (b : UInt8) : Prop :=
  InWindow va ∧ ∃ pa, physical m root va = some pa ∧ m.mem pa = b

theorem UserByte.unique (h : UserByte m root va b) (h' : UserByte m root va b') : b = b' := by
  obtain ⟨-, pa, hpa, rfl⟩ := h
  obtain ⟨-, pa', hpa', rfl⟩ := h'
  rw [Option.some.inj (hpa.symm.trans hpa')]

/-- The bytes from `uva` on are those of `s`, none of them NUL. -/
def Chars (m : Machine) (root uva : ℕ) (s : List UInt8) : Prop :=
  ∀ i b, s[i]? = some b → UserByte m root (uva + i) b ∧ b ≠ 0

/-- The process has the NUL-terminated string `s` at `uva`. -/
structure Cstr (m : Machine) (root uva : ℕ) (s : List UInt8) : Prop where
  chars : Chars m root uva s
  nul : UserByte m root (uva + s.length) 0

theorem Chars.nil : Chars m root uva [] := fun i b h => by simp at h

theorem Chars.snoc (h : Chars m root uva acc) (hb : UserByte m root (uva + acc.length) b)
    (hne : b ≠ 0) : Chars m root uva (acc ++ [b]) := by
  intro i c hc
  rw [List.getElem?_append] at hc
  split_ifs at hc with hi
  · exact h i c hc
  · obtain rfl : i = acc.length := by
      by_contra hne
      rw [List.getElem?_eq_none (by simp; omega)] at hc
      cases hc
    rw [Nat.sub_self] at hc
    obtain rfl : b = c := Option.some.inj hc
    exact ⟨hb, hne⟩

namespace Cstr

/-- Characters from `uva` on are the first ones of the string. -/
theorem length_le (h : Cstr m root uva s) (ha : Chars m root uva acc) : acc.length ≤ s.length := by
  by_contra hlt
  obtain ⟨hb, hne⟩ := ha s.length _ (List.getElem?_eq_getElem (by omega))
  exact hne (hb.unique h.nul)

theorem getElem?_eq (h : Cstr m root uva s) (ha : Chars m root uva acc) {i : ℕ}
    (hi : i < acc.length) : s[i]? = acc[i]? := by
  have hle := h.length_le ha
  have hs := List.getElem?_eq_getElem (l := s) (i := i) (by omega)
  have hc := List.getElem?_eq_getElem hi
  rw [hs, hc, (h.chars i _ hs).1.unique (ha i _ hc).1]

/-- Every byte up to the terminator is there. -/
theorem byte (h : Cstr m root uva s) {i : ℕ} (hi : i ≤ s.length) :
    ∃ b, UserByte m root (uva + i) b ∧ (b = 0 ↔ i = s.length) := by
  rcases hi.lt_or_eq with hlt | rfl
  · obtain ⟨hb, hne⟩ := h.chars i _ (List.getElem?_eq_getElem hlt)
    exact ⟨_, hb, iff_of_false hne hlt.ne⟩
  · exact ⟨0, h.nul, iff_of_true rfl rfl⟩

/-- A process has one string at an address. -/
theorem eq_of_nul (h : Cstr m root uva s) (ha : Cstr m root uva acc) : s = acc := by
  have hlen : s.length = acc.length := le_antisymm (ha.length_le h.chars) (h.length_le ha.chars)
  refine List.ext_getElem? fun i => ?_
  by_cases hi : i < acc.length
  · exact h.getElem?_eq ha.chars hi
  · rw [List.getElem?_eq_none (by omega), List.getElem?_eq_none (by omega)]

end Cstr

/-- One byte can be copied exactly where there is one. -/
theorem copyReady_one : CopyReady m root va 1 ↔ ∃ b, UserByte m root va b := by
  constructor
  · intro h
    have hstop := h.stop
    obtain ⟨x, hx⟩ := Option.isSome_iff_exists.mp (h.mapped va le_rfl (by omega))
    exact ⟨_, ⟨h.start, by omega⟩, _, by rw [physical, hx, Option.map_some], rfl⟩
  · rintro ⟨b, ⟨h1, h2⟩, pa, hpa, -⟩
    refine ⟨?_, h1, by omega, fun a ha ha' => ?_⟩
    · simp only [userVaEnd, usizeBound] at *
      omega
    · obtain rfl : a = va := by omega
      exact isSome_of_physical hpa

/-- The byte that a copy of one byte yields. -/
theorem Reads.userByte {bs : List UInt8} (h : Reads m root va bs) (hlen : bs.length = 1)
    (hw : InWindow va) : ∃ b, bs = [b] ∧ UserByte m root va b := by
  obtain ⟨b, rfl⟩ := List.length_eq_one_iff.mp hlen
  obtain ⟨pa, hpa, hb⟩ := h 0 (by simp)
  exact ⟨b, rfl, hw, pa, hpa, (Option.some.inj hb).symm⟩

/-- What the loop makes of a string that it may read `limit` bytes of. -/
def cstrResult (s : List UInt8) (limit : ℕ) : Except String (List UInt8) :=
  if s.length < limit then
    if utf8Valid s then .ok s else .error "uaccess: invalid UTF-8"
  else .error "uaccess: string too long"

theorem cstrResult_ok {t : List UInt8} {limit : ℕ} :
    cstrResult t limit = .ok s ↔ t = s ∧ t.length < limit ∧ utf8Valid t = true := by
  unfold cstrResult
  split_ifs with hl hv
  · exact ⟨fun h => ⟨Except.ok.inj h, hl, hv⟩, fun h => by rw [h.1]⟩
  · exact iff_of_false nofun fun h => hv h.2.2
  · exact iff_of_false nofun fun h => hl h.2.1

/-- The loop after the characters `acc`: only the string at `uva`, if there is one,
decides what it returns. -/
theorem copyInCstrLoop_exact (hr : UserRoot m root) (hu : uva < usizeBound) (left : ℕ)
    (ha : Chars m root uva acc) :
    Prog.Wp (copyInCstrLoop root uva left acc.length acc) m (fun r m' => m' = m ∧
      (∀ s, Cstr m root uva s → r = cstrResult s (acc.length + left)) ∧
      ((∀ s, ¬ Cstr m root uva s) → r.isOk = false)) Prog.Never := by
  induction left generalizing acc with
  | zero =>
    refine Prog.wp_pure.mpr ⟨rfl, fun s hs => ?_, fun _ => rfl⟩
    have := hs.length_le ha
    rw [cstrResult, if_neg (by omega)]
  | succ left ih =>
    -- the address is one past a byte of the window, or the argument itself
    have hadd : uva + acc.length < usizeBound := by
      by_cases h0 : acc.length = 0
      · omega
      · obtain ⟨⟨hw, -⟩, -⟩ :=
          ha (acc.length - 1) _ (List.getElem?_eq_getElem (by omega))
        have := hw.2
        simp only [userVaEnd, usizeBound] at *
        omega
    rw [copyInCstrLoop, Prog.wp_bind, Prog.wp_ofExcept, checkedAdd, if_pos hadd]
    refine (copyIn_exact hr (uva + acc.length) 1).bind fun res m1 h1 => ?_
    obtain ⟨rfl, hok, hbytes⟩ := h1
    cases res with
    | error e =>
      refine Prog.wp_pure.mpr ⟨rfl, fun s hs => ?_, fun _ => rfl⟩
      obtain ⟨b, hb, -⟩ := hs.byte (hs.length_le ha)
      have := hok.mpr (copyReady_one.mpr ⟨b, hb⟩)
      simp [isOk_error] at this
    | ok bs =>
      have hready := hok.mp rfl
      obtain ⟨hlen, hreads⟩ := hbytes bs rfl
      have hstop := hready.stop
      obtain ⟨b, rfl, hb⟩ := hreads.userByte hlen ⟨hready.start, by omega⟩
      dsimp only
      by_cases h0 : b = 0
      · subst h0
        have hend : Cstr m1 root uva acc := ⟨ha, hb⟩
        have hres : ∀ s, Cstr m1 root uva s →
            cstrResult s (acc.length + (left + 1)) =
              if utf8Valid acc then .ok acc else .error "uaccess: invalid UTF-8" := by
          intro s hs
          rw [hs.eq_of_nul hend, cstrResult, if_pos (by omega)]
        rw [if_pos rfl]
        split_ifs with hv
        · exact Prog.wp_pure.mpr ⟨rfl, fun s hs => by rw [hres s hs, if_pos hv],
            fun h => absurd hend (h acc)⟩
        · exact Prog.wp_pure.mpr ⟨rfl, fun s hs => by rw [hres s hs, if_neg hv], fun _ => rfl⟩
      · rw [if_neg (by simpa using h0)]
        have hnext := ih (ha.snoc hb h0)
        rw [List.length_append, List.length_singleton, Nat.add_assoc, Nat.add_comm 1 left] at hnext
        exact hnext

/-- What `copy_in_cstr` returns on every address and buffer. -/
theorem copyInCstr_exact (hr : UserRoot m root) (hu : uva < usizeBound) (bufLen : ℕ) :
    ∃ r, copyInCstr root uva bufLen m = .ok (r, m) ∧
      (∀ s, Cstr m root uva s → r = cstrResult s (bufLen - 1)) ∧
      ∀ s, r = .ok s ↔ Cstr m root uva s ∧ s.length < bufLen - 1 ∧ utf8Valid s = true := by
  obtain ⟨r, m', hrun, rfl, hsome, hnone⟩ :=
    (copyInCstrLoop_exact hr hu (bufLen - 1) .nil).returns
  rw [List.length_nil, Nat.zero_add] at hsome
  refine ⟨r, hrun, hsome, fun s => ⟨fun h => ?_, fun h => ?_⟩⟩
  · by_cases hex : ∃ t, Cstr m' root uva t
    · obtain ⟨t, ht⟩ := hex
      rw [hsome t ht] at h
      obtain ⟨rfl, hl, hv⟩ := cstrResult_ok.mp h
      exact ⟨ht, hl, hv⟩
    · have := hnone fun t ht => hex ⟨t, ht⟩
      rw [h] at this
      cases this
  · rw [hsome s h.1]
    exact cstrResult_ok.mpr ⟨rfl, h.2⟩

/-- The strings that the comment promises are accepted, exactly where the memory
does not hold one that leaves no room in the buffer but for its terminator. Every call
returns, and what follows the terminator does not matter. -/
theorem copyInCstr_promised_iff (hr : UserRoot m root) (hu : uva < usizeBound) {bufLen : ℕ}
    (_ : 1 ≤ bufLen) : ∃ r, copyInCstr root uva bufLen m = .ok (r, m) ∧
      ((∀ s, r = .ok s ↔ Cstr m root uva s ∧ s.length ≤ bufLen - 1 ∧ utf8Valid s = true) ↔
        ¬ ∃ s, Cstr m root uva s ∧ s.length = bufLen - 1 ∧ utf8Valid s = true) ∧
      ∀ m' s, UserRoot m' root → Cstr m root uva s → Cstr m' root uva s →
        copyInCstr root uva bufLen m' = .ok (r, m') := by
  obtain ⟨r, hrun, hsome, hok⟩ := copyInCstr_exact hr hu bufLen
  refine ⟨r, hrun, ⟨fun h => ?_, fun h s => ?_⟩, fun m' s hr' hs hs' => ?_⟩
  · rintro ⟨s, hs, hlen, hv⟩
    have := (hok s).mp ((h s).mpr ⟨hs, hlen.le, hv⟩)
    omega
  · rw [hok s]
    refine and_congr_right fun hs => and_congr_left fun hv => ⟨fun hl => hl.le, fun hl => ?_⟩
    exact lt_of_le_of_ne hl fun he => h ⟨s, hs, he, hv⟩
  · obtain ⟨r', hrun', hsome', -⟩ := copyInCstr_exact hr' hu bufLen
    rw [hrun', hsome s hs, hsome' s hs']

/-! ### Strings at the limit -/

theorem Reads.cstr (h : Reads m root uva (s ++ [0])) (h0 : 0 ∉ s) (hlo : userVaStart ≤ uva)
    (hhi : uva + (s.length + 1) ≤ userVaEnd) : Cstr m root uva s := by
  have hbyte : ∀ i b, (s ++ [0])[i]? = some b → UserByte m root (uva + i) b := by
    intro i b hb
    obtain ⟨hi, -⟩ := List.getElem?_eq_some_iff.mp hb
    obtain ⟨pa, hpa, hb'⟩ := h i hi
    rw [List.length_append, List.length_singleton] at hi
    exact ⟨⟨by omega, by omega⟩, pa, hpa, Option.some.inj (hb'.symm.trans hb)⟩
  refine ⟨fun i b hb => ⟨hbyte i b ?_, ?_⟩, hbyte s.length 0 ?_⟩
  · rw [List.getElem?_append_left (List.getElem?_eq_some_iff.mp hb).1]
    exact hb
  · rintro rfl
    exact h0 (List.mem_of_getElem? hb)
  · rw [List.getElem?_append_right le_rfl, Nat.sub_self]
    rfl

/-- The first process with a string in its memory. -/
theorem exists_cstr (s : List UInt8) (h0 : 0 ∉ s) (hlen : s.length < pageSize) :
    ∃ m root uva, UserRoot m root ∧ uva < usizeBound ∧ Cstr m root uva s := by
  obtain ⟨k, p, h⟩ := exists_firstRun
  obtain ⟨va, hva⟩ := h.mappedPage
  have hr := h.reached.userRoot h.slot
  obtain ⟨r, m', -, hok, hstored, -⟩ := (copyOut_exact hr va (s ++ [0])).returns
  have hsize : (s ++ [0]).length = s.length + 1 := by simp
  have hready := hva (s ++ [0]).length (by omega)
  have hst := hstored (hok.mpr hready)
  have hstart := hready.start
  have hstop := hready.stop
  have hfits := hready.fits
  refine ⟨m', p.rootPa, va, hr.confined (hst.confined hstart hstop), by omega, ?_⟩
  exact (hst.reads hr hstart hstop).cstr h0 hstart (by omega)

/-- A one-letter string is copied whole. -/
theorem copyInCstr_promised_iff_letter : ∃ m root uva,
    copyInCstr root uva 128 m = .ok (.ok [0x61], m) := by
  obtain ⟨m, root, uva, hr, hu, hs⟩ := exists_cstr [0x61] (by decide) (by decide)
  obtain ⟨r, hrun, hiff, -⟩ := copyInCstr_promised_iff hr hu (by decide : 1 ≤ 128)
  refine ⟨m, root, uva, ?_⟩
  rw [hrun, (hiff.mpr ?_ [0x61]).mpr ⟨hs, by decide, by decide⟩]
  rintro ⟨t, ht, hlen, -⟩
  rw [ht.eq_of_nul hs] at hlen
  exact absurd hlen (by decide)

/-- A path of 127 bytes does not fit a buffer of 128. -/
theorem copyInCstr_too_long : ∃ m root uva s, UserRoot m root ∧ Cstr m root uva s ∧
    s.length ≤ 128 - 1 ∧ utf8Valid s = true ∧
    copyInCstr root uva 128 m = .ok (.error "uaccess: string too long", m) := by
  have hall : ∀ b ∈ List.replicate 127 (0x61 : UInt8), b = 0x61 := fun b hb =>
    List.eq_of_mem_replicate hb
  have hlen : (List.replicate 127 (0x61 : UInt8)).length = 127 := List.length_replicate
  generalize List.replicate 127 (0x61 : UInt8) = s at hall hlen
  obtain ⟨m, root, uva, hr, hu, hs⟩ := exists_cstr s
    (fun h => absurd (hall 0 h) (by decide)) (by rw [hlen]; decide)
  obtain ⟨r, hrun, hsome, -⟩ := copyInCstr_exact hr hu 128
  have hv : utf8Valid s = true := utf8Valid_ascii fun b hb => by rw [hall b hb]; decide
  refine ⟨m, root, uva, s, hr, hs, by omega, hv, ?_⟩
  rw [hrun, hsome s hs, cstrResult, if_neg (by omega)]

end LightOS
