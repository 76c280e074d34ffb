import LightOS.Access
import LightOS.Shapes
import LightOS.Sv39

/-!
# What user copies store and read

`copy_out` and `copy_in` split their range at page boundaries and reach scattered
frames through the software walk. Here the bytes are accounted for one by one:
which user address is which byte of memory, what a copy stores there, and that
every other byte of memory stays. Nothing is assumed of the rest of the machine,
only that the user pages of the root are frames of their own.
-/
namespace LightOS
open Lib PageAllocator

/-- Addresses of the user window. -/
def InWindow (va : ℕ) : Prop := userVaStart ≤ va ∧ va < userVaEnd

/-- The byte of memory that a user address stands for. -/
def physical (m : Machine) (root va : ℕ) : Option ℕ :=
  (translation m root va).map fun x => x.1 + va % pageSize

/-- The user slot of a root: 4 KiB pages at frames of their own, none of them a
table of the slot. -/
structure UserRoot (m : Machine) (root : ℕ) : Prop where
  aligned : root % pageSize = 0
  small : ∀ {va}, InWindow va → SmallPages m root va
  distinct : ∀ {va va' q f f'}, InWindow va → InWindow va' → translation m root va = some (q, f) →
    translation m root va' = some (q, f') → va / pageSize = va' / pageSize
  apart : ∀ {va va' q f p t}, InWindow va → InWindow va' → translation m root va = some (q, f) →
    p <:+ [vpn va' 1, vpn va' 2] → tableAt m root p = some t → t ≠ q

theorem pteAddr_aligned (e : ℕ) : pteAddr e % pageSize = 0 := by
  unfold pteAddr
  rw [Nat.shiftLeft_eq]
  simp only [pageSize, usizeBound]
  omega

theorem translation_aligned {m : Machine} {root va q f : ℕ} (h : translation m root va = some (q, f)) :
    q % pageSize = 0 := by
  unfold translation at h
  split_ifs at h
  rw [← (Prod.mk.inj (Option.some.inj h)).1]
  exact pteAddr_aligned _

theorem physical_eq_some {m : Machine} {root va b : ℕ} :
    physical m root va = some b ↔
      ∃ q f, translation m root va = some (q, f) ∧ b = q + va % pageSize := by
  unfold physical
  constructor
  · intro h
    obtain ⟨⟨q, f⟩, ht, rfl⟩ := Option.map_eq_some_iff.mp h
    exact ⟨q, f, ht, rfl⟩
  · rintro ⟨q, f, ht, rfl⟩
    rw [ht, Option.map_some]

/-- Addresses of one page are next to each other in memory. -/
theorem physical_add {m : Machine} {root va b i : ℕ} (h : physical m root va = some b)
    (hi : va % pageSize + i < pageSize) : physical m root (va + i) = some (b + i) := by
  obtain ⟨q, f, ht, rfl⟩ := physical_eq_some.mp h
  have hpage : (va + i) / pageSize = va / pageSize := by
    simp only [pageSize] at *
    omega
  refine physical_eq_some.mpr ⟨q, f, by rw [translation_page hpage, ht], ?_⟩
  simp only [pageSize] at *
  omega

/-- `m'` differs from `m` at most in bytes of user pages of the root. -/
def Confined (m : Machine) (root : ℕ) (m' : Machine) : Prop :=
  ∀ b, (∀ va, InWindow va → physical m root va ≠ some b) → m'.mem b = m.mem b

namespace UserRoot

variable {m m' : Machine} {root : ℕ}

/-- Different user addresses are different bytes of memory. -/
theorem physical_inj (h : UserRoot m root) {va va' b : ℕ} (hw : InWindow va) (hw' : InWindow va')
    (hb : physical m root va = some b) (hb' : physical m root va' = some b) : va = va' := by
  obtain ⟨q, f, ht, rfl⟩ := physical_eq_some.mp hb
  obtain ⟨q', f', ht', he⟩ := physical_eq_some.mp hb'
  have hq := translation_aligned ht
  have hq' := translation_aligned ht'
  have hqq : q' = q := by
    simp only [pageSize] at *
    omega
  subst hqq
  have hpage := h.distinct hw hw' ht ht'
  simp only [pageSize] at *
  omega

theorem table_aligned (h : UserRoot m root) {p : List ℕ} {t : ℕ} (ht : tableAt m root p = some t) :
    t % pageSize = 0 := by
  cases p with
  | nil =>
    obtain rfl : root = t := Option.some.inj ht
    exact h.aligned
  | cons i p =>
    obtain ⟨s, -, hc⟩ := Option.bind_eq_some_iff.mp ht
    unfold child at hc
    split_ifs at hc
    rw [← Option.some.inj hc]
    exact pteAddr_aligned _

/-- Bytes of a table on the way to a user page are no bytes of user pages. -/
theorem pte_eq (h : UserRoot m root) (hc : Confined m root m') {va i t : ℕ} {p : List ℕ}
    (hw : InWindow va) (hp : p <:+ [vpn va 1, vpn va 2]) (ht : tableAt m root p = some t)
    (hi : i < 512) : m'.pte t i = m.pte t i := by
  refine Machine.pte_congr hi fun b h1 h2 => hc b fun va' hw' hb => ?_
  obtain ⟨q, f, htr, rfl⟩ := physical_eq_some.mp hb
  have hne := h.apart hw' hw htr hp ht
  have hd := frames_disjoint (h.table_aligned ht) (translation_aligned htr) hne
  have hlt := Nat.mod_lt va' (by decide : 0 < pageSize)
  omega

/-- A confined change leads the walk to the same tables. -/
theorem tableAt_eq (h : UserRoot m root) (hc : Confined m root m') {va : ℕ} {p : List ℕ}
    (hw : InWindow va) (hp : p <:+ [vpn va 1, vpn va 2]) :
    tableAt m' root p = tableAt m root p := by
  induction p with
  | nil => rfl
  | cons i p ih =>
    have hp' : p <:+ [vpn va 1, vpn va 2] := (List.suffix_cons i p).trans hp
    have hi : i < 512 := (vpn_path va).2 i (hp.subset (by simp))
    rw [tableAt, tableAt, ih hp']
    cases ht : tableAt m root p with
    | none => rw [Option.bind_none, Option.bind_none]
    | some t =>
      rw [Option.bind_some, Option.bind_some, child, child, h.pte_eq hc hw hp' ht hi]

theorem translation_eq (h : UserRoot m root) (hc : Confined m root m') {va : ℕ}
    (hw : InWindow va) : translation m' root va = translation m root va := by
  refine LightOS.translation_eq ?_
  rw [leafEntry, leafEntry, h.tableAt_eq hc hw (List.suffix_refl _)]
  cases ht : tableAt m root [vpn va 1, vpn va 2] with
  | none => rw [Option.elim_none, Option.elim_none]
  | some t =>
    rw [Option.elim_some, Option.elim_some]
    exact h.pte_eq hc hw (List.suffix_refl _) ht (vpn_lt va 0)

theorem physical_eq (h : UserRoot m root) (hc : Confined m root m') {va : ℕ} (hw : InWindow va) :
    physical m' root va = physical m root va := by
  rw [physical, physical, h.translation_eq hc hw]

theorem confined (h : UserRoot m root) (hc : Confined m root m') : UserRoot m' root := by
  refine ⟨h.aligned, fun hw p t i hp ht => ?_, fun hw hw' ht ht' => ?_, fun hw hw' ht hp htab => ?_⟩
  · have hp' := (List.suffix_cons i p).trans hp
    rw [h.tableAt_eq hc hw hp'] at ht
    rw [h.pte_eq hc hw hp' ht ((vpn_path _).2 i (hp.subset (by simp)))]
    exact h.small hw p t i hp ht
  · rw [h.translation_eq hc hw] at ht
    rw [h.translation_eq hc hw'] at ht'
    exact h.distinct hw hw' ht ht'
  · rw [h.translation_eq hc hw] at ht
    rw [h.tableAt_eq hc hw' hp] at htab
    exact h.apart hw hw' ht hp htab

end UserRoot

/-- The user bytes from `va` on are `bs`. -/
def Reads (m : Machine) (root va : ℕ) (bs : List UInt8) : Prop :=
  ∀ i < bs.length, ∃ b, physical m root (va + i) = some b ∧ bs[i]? = some (m.mem b)

/-- `src` has been stored in the user bytes from `va` on, and nowhere else. -/
structure Stored (m : Machine) (root va : ℕ) (src : List UInt8) (m' : Machine) : Prop where
  bytes : ∀ i < src.length, ∃ b, physical m root (va + i) = some b ∧ src[i]? = some (m'.mem b)
  other : ∀ b, (∀ i < src.length, physical m root (va + i) ≠ some b) → m'.mem b = m.mem b
  rest : m' = { m with mem := m'.mem }

namespace Stored

variable {m m' m'' : Machine} {root va : ℕ} {xs ys : List UInt8}

theorem nil (m : Machine) (root va : ℕ) : Stored m root va [] m :=
  ⟨fun i hi => absurd hi (Nat.not_lt_zero i), fun _ _ => rfl, rfl⟩

theorem confined (h : Stored m root va xs m') (hlo : userVaStart ≤ va)
    (hhi : va + xs.length ≤ userVaEnd) : Confined m root m' := by
  intro b hb
  refine h.other b fun i hi => hb _ ⟨by omega, by omega⟩

/-- Two stores one after the other. -/
theorem append (hr : UserRoot m root) (h : Stored m root va xs m')
    (h' : Stored m' root (va + xs.length) ys m'') (hlo : userVaStart ≤ va)
    (hhi : va + xs.length + ys.length ≤ userVaEnd) : Stored m root va (xs ++ ys) m'' := by
  have hc := h.confined hlo (by omega)
  have hph : ∀ i < ys.length,
      physical m' root (va + xs.length + i) = physical m root (va + xs.length + i) :=
    fun i hi => hr.physical_eq hc ⟨by omega, by omega⟩
  refine ⟨fun i hi => ?_, fun b hb => ?_, ?_⟩
  · rw [List.length_append] at hi
    by_cases hx : i < xs.length
    · -- the second store does not reach the bytes of the first
      obtain ⟨b, hb, hv⟩ := h.bytes i hx
      refine ⟨b, hb, ?_⟩
      rw [List.getElem?_append_left hx, hv, h'.other b fun j hj hbj => ?_]
      rw [hph j hj] at hbj
      have := hr.physical_inj ⟨by omega, by omega⟩ ⟨by omega, by omega⟩ hb hbj
      omega
    · obtain ⟨b, hb, hv⟩ := h'.bytes (i - xs.length) (by omega)
      rw [hph _ (by omega)] at hb
      refine ⟨b, ?_, ?_⟩
      · rw [← hb]
        congr 1
        omega
      · rw [List.getElem?_append_right (by omega), hv]
  · rw [h'.other b fun j hj hbj => ?_, h.other b fun i hi => hb i (by rw [List.length_append]; omega)]
    rw [hph j hj] at hbj
    refine hb (xs.length + j) (by rw [List.length_append]; omega) ?_
    rw [← hbj]
    congr 1
    omega
  · rw [h'.rest, h.rest]

/-- What was stored is read. -/
theorem reads (hr : UserRoot m root) (h : Stored m root va xs m') (hlo : userVaStart ≤ va)
    (hhi : va + xs.length ≤ userVaEnd) : Reads m' root va xs := by
  intro i hi
  obtain ⟨b, hb, hv⟩ := h.bytes i hi
  exact ⟨b, by rw [hr.physical_eq (h.confined hlo hhi) ⟨by omega, by omega⟩, hb], hv⟩

end Stored

/-- Two readings of one range agree. -/
theorem Reads.unique {m : Machine} {root va : ℕ} {bs cs : List UInt8} (h : Reads m root va bs)
    (h' : Reads m root va cs) (hlen : bs.length = cs.length) : bs = cs := by
  refine List.ext_getElem? fun i => ?_
  by_cases hi : i < bs.length
  · obtain ⟨b, hb, hv⟩ := h i hi
    obtain ⟨c, hc, hw⟩ := h' i (by omega)
    obtain rfl : b = c := Option.some.inj (hb.symm.trans hc)
    rw [hv, hw]
  · rw [List.getElem?_eq_none (by omega), List.getElem?_eq_none (by omega)]

/-- The bytes of one chunk, stored at once. -/
theorem Stored.chunk {m : Machine} {root va b : ℕ} {bs : List UInt8}
    (hb : physical m root va = some b) (hlen : va % pageSize + bs.length ≤ pageSize) :
    Stored m root va bs { m with mem := writeBytes m.mem b bs } := by
  refine ⟨fun i hi => ⟨b + i, physical_add hb (by omega), ?_⟩, fun c hc => ?_, rfl⟩
  · simp only [writeBytes]
    rw [if_pos (by omega), show b + i - b = i by omega, List.getD_eq_getElem?_getD,
      List.getElem?_eq_getElem hi, Option.getD_some]
  · simp only [writeBytes]
    refine if_neg fun hin => hc (c - b) (by omega) ?_
    rw [physical_add hb (by omega)]
    congr 1
    omega

/-- Every round of `copy_out` stores one chunk, up to the first address that is
not mapped. -/
theorem copyOutLoop_stored {m : Machine} {root : ℕ} (fuel : ℕ) {va : ℕ} {src : List UInt8}
    (hr : UserRoot m root) (hlo : userVaStart ≤ va) (hhi : va + src.length ≤ userVaEnd)
    (hfuel : src.length ≤ fuel) :
    Prog.Wp (copyOutLoop root fuel va src) m (fun r m' =>
      ∃ n ≤ src.length, Stored m root va (src.take n) m' ∧ match r with
        | .ok _ => n = src.length
        | .error _ => n < src.length ∧ physical m root (va + n) = none) Prog.Never := by
  induction fuel generalizing va src m with
  | zero =>
    obtain rfl : src = [] := List.length_eq_zero_iff.mp (by omega)
    exact Prog.wp_pure.mpr ⟨0, le_rfl, .nil m root va, rfl⟩
  | succ fuel ih =>
    rw [copyOutLoop]
    by_cases hs : src = []
    · rw [if_pos hs, hs]
      exact Prog.wp_pure.mpr ⟨0, le_rfl, .nil m root va, rfl⟩
    · have hpos : 0 < src.length := List.length_pos_of_ne_nil hs
      have hw : InWindow va := ⟨hlo, by omega⟩
      rw [if_neg hs, Prog.wp_bind]
      refine (virtToPhys_reads (hr.small hw)).mono ?_ fun _ h => h
      intro res m₁ hres
      obtain ⟨rfl, hres⟩ := hres
      change res = physical m₁ root va at hres
      cases res with
      | none =>
        refine Prog.wp_pure.mpr ⟨0, Nat.zero_le _, ?_, hpos, hres.symm⟩
        rw [List.take_zero]
        exact .nil m₁ root va
      | some b =>
        dsimp only
        rw [Prog.wp_bind, Prog.wp_modify]
        have hn : chunkLen va src.length ≤ src.length ∧ 0 < chunkLen va src.length := by
          have := Nat.mod_lt va (by decide : 0 < pageSize)
          simp only [chunkLen]
          omega
        generalize hchunk : chunkLen va src.length = n at hn ⊢
        have hlen : (src.take n).length = n := by
          rw [List.length_take]
          omega
        have hfirst : Stored m₁ root va (src.take n)
            { m₁ with mem := writeBytes m₁.mem b (src.take n) } := by
          refine .chunk hres.symm ?_
          rw [hlen, ← hchunk]
          exact chunkLen_le va src.length
        have hr₁ := hr.confined (hfirst.confined hlo (by omega))
        refine (ih hr₁ (by omega) ?_ ?_).mono (fun r m₂ hrest => ?_) fun _ h => h
        · rw [List.length_drop]
          omega
        · rw [List.length_drop]
          omega
        obtain ⟨k, hk, hstored, hend⟩ := hrest
        rw [List.length_drop] at hk
        have hboth : src.take n ++ (src.drop n).take k = src.take (n + k) := by
          rw [List.take_add]
        have hrestLen : ((src.drop n).take k).length = k := by
          rw [List.length_take, List.length_drop]
          omega
        refine ⟨n + k, by omega, ?_, ?_⟩
        · rw [← hboth]
          refine hfirst.append hr ?_ hlo (by omega)
          rw [hlen]
          exact hstored
        · cases r with
          | ok u =>
            have hend' : k = (src.drop n).length := hend
            rw [List.length_drop] at hend'
            change n + k = src.length
            omega
          | error e =>
            obtain ⟨hlt, hnone⟩ := hend
            rw [List.length_drop] at hlt
            refine ⟨by omega, ?_⟩
            rw [hr.physical_eq (hfirst.confined hlo (by omega)) ⟨by omega, by omega⟩] at hnone
            rw [← hnone, Nat.add_assoc]

theorem copyInLoop_reads {m : Machine} {root : ℕ} (fuel : ℕ) {va left : ℕ} (acc : List UInt8)
    (hr : UserRoot m root) (hlo : userVaStart ≤ va) (hhi : va + left ≤ userVaEnd)
    (hfuel : left ≤ fuel) :
    Prog.Wp (copyInLoop root fuel va left acc) m (fun r m' => m' = m ∧ match r with
      | .ok bs => ∃ cs, bs = acc ++ cs ∧ cs.length = left ∧ Reads m root va cs
      | .error _ => ∃ n < left, physical m root (va + n) = none) Prog.Never := by
  have hnil : Reads m root va [] := fun i hi => absurd hi (Nat.not_lt_zero i)
  induction fuel generalizing va left acc with
  | zero => exact Prog.wp_pure.mpr ⟨rfl, [], by simp, by simp; omega, hnil⟩
  | succ fuel ih =>
    rw [copyInLoop]
    by_cases hl : left = 0
    · rw [if_pos hl]
      exact Prog.wp_pure.mpr ⟨rfl, [], by simp, by simp [hl], hnil⟩
    · have hw : InWindow va := ⟨hlo, by omega⟩
      rw [if_neg hl, Prog.wp_bind]
      refine (virtToPhys_reads (hr.small hw)).mono ?_ fun _ h => h
      intro res m₁ hres
      obtain ⟨rfl, hres⟩ := hres
      change res = physical m₁ root va at hres
      cases res with
      | none => exact Prog.wp_pure.mpr ⟨rfl, 0, by omega, hres.symm⟩
      | some b =>
        dsimp only
        rw [Prog.wp_bind, Prog.wp_get]
        have hn : chunkLen va left ≤ left ∧ 0 < chunkLen va left := by
          have := Nat.mod_lt va (by decide : 0 < pageSize)
          simp only [chunkLen]
          omega
        have hpage := chunkLen_le va left
        generalize chunkLen va left = n at hn hpage ⊢
        have hlen : (readBytes m₁.mem b n).length = n := by simp [readBytes]
        refine (ih _ (by omega) (by omega) (by omega) ?_).mono (fun r m₂ hrest => ?_) fun _ h => h
        · exact fun i hi => absurd hi (Nat.not_lt_zero i)
        obtain ⟨hm, hrest⟩ := hrest
        refine ⟨hm, ?_⟩
        cases r with
        | ok bs =>
          obtain ⟨cs, rfl, hcs, hreads⟩ := hrest
          refine ⟨readBytes m₁.mem b n ++ cs, by rw [List.append_assoc], ?_, fun i hi => ?_⟩
          · rw [List.length_append, hlen, hcs]
            omega
          · rw [List.length_append, hlen] at hi
            by_cases hin : i < n
            · refine ⟨b + i, physical_add hres.symm (by omega), ?_⟩
              rw [List.getElem?_append_left (by omega)]
              simp [readBytes, hin]
            · obtain ⟨c, hc, hv⟩ := hreads (i - n) (by omega)
              rw [show va + n + (i - n) = va + i by omega] at hc
              refine ⟨c, hc, ?_⟩
              rw [List.getElem?_append_right (by omega), hlen, hv]
        | error e =>
          obtain ⟨k, hk, hnone⟩ := hrest
          exact ⟨n + k, by omega, by rw [← hnone, Nat.add_assoc]⟩

/-- The range does not overflow, lies in the user window and is fully mapped. -/
structure CopyReady (m : Machine) (root uva len : ℕ) : Prop where
  fits : uva + len < usizeBound
  start : userVaStart ≤ uva
  stop : uva + len ≤ userVaEnd
  mapped : ∀ a, uva ≤ a → a < uva + len → (translation m root a).isSome

theorem checkRange_ok {uva len : ℕ} :
    checkRange uva len = .ok () ↔
      uva + len < usizeBound ∧ userVaStart ≤ uva ∧ uva + len ≤ userVaEnd := by
  unfold checkRange
  split_ifs with h1 h2
  · simp only [false_iff]
    omega
  · simp only [false_iff]
    omega
  · simp only [true_iff]
    omega

theorem CopyReady.not_of_unmapped {m : Machine} {root uva len n : ℕ} (hn : n < len)
    (h : physical m root (uva + n) = none) : ¬ CopyReady m root uva len := by
  intro hready
  have := hready.mapped (uva + n) (by omega) (by omega)
  rw [physical, Option.map_eq_none_iff] at h
  simp [h] at this

theorem isSome_of_physical {m : Machine} {root va b : ℕ} (h : physical m root va = some b) :
    (translation m root va).isSome := by
  obtain ⟨q, f, ht, -⟩ := physical_eq_some.mp h
  rw [ht]
  rfl

/-- `copy_out` on every range. -/
theorem copyOut_exact {m : Machine} {root : ℕ} (hr : UserRoot m root) (uva : ℕ)
    (src : List UInt8) :
    Prog.Wp (copyOut root uva src) m (fun r m' => (r = .ok () ↔ CopyReady m root uva src.length) ∧
      (r = .ok () → Stored m root uva src m') ∧
      ∃ n ≤ src.length, Stored m root uva (src.take n) m') Prog.Never := by
  unfold copyOut
  cases hc : checkRange uva src.length with
  | error e =>
    have hno : ¬ CopyReady m root uva src.length := by
      intro hready
      have := checkRange_ok.mpr ⟨hready.fits, hready.start, hready.stop⟩
      rw [hc] at this
      cases this
    refine Prog.wp_pure.mpr ⟨iff_of_false (by simp) hno, nofun, 0, Nat.zero_le _, ?_⟩
    rw [List.take_zero]
    exact .nil m root uva
  | ok u =>
    obtain ⟨hfits, hlo, hhi⟩ := checkRange_ok.mp hc
    dsimp only
    refine (copyOutLoop_stored _ hr hlo hhi le_rfl).mono (fun r m' h => ?_) fun _ h => h
    obtain ⟨n, hn, hstored, hend⟩ := h
    cases r with
    | ok u =>
      obtain rfl : n = src.length := hend
      rw [List.take_length] at hstored
      refine ⟨iff_of_true rfl ⟨hfits, hlo, hhi, fun a h1 h2 => ?_⟩, fun _ => hstored, ?_⟩
      · obtain ⟨b, hb, -⟩ := hstored.bytes (a - uva) (by omega)
        rw [show uva + (a - uva) = a by omega] at hb
        exact isSome_of_physical hb
      · exact ⟨src.length, le_rfl, by rw [List.take_length]; exact hstored⟩
    | error e =>
      exact ⟨iff_of_false (by simp) (CopyReady.not_of_unmapped hend.1 hend.2), nofun,
        n, hn, hstored⟩

/-- `copy_in` on every range. -/
theorem copyIn_exact {m : Machine} {root : ℕ} (hr : UserRoot m root) (uva len : ℕ) :
    Prog.Wp (copyIn root uva len) m (fun r m' => m' = m ∧
      (r.isOk = true ↔ CopyReady m root uva len) ∧
      ∀ bs, r = .ok bs → bs.length = len ∧ Reads m root uva bs) Prog.Never := by
  unfold copyIn
  cases hc : checkRange uva len with
  | error e =>
    have hno : ¬ CopyReady m root uva len := by
      intro hready
      have := checkRange_ok.mpr ⟨hready.fits, hready.start, hready.stop⟩
      rw [hc] at this
      cases this
    exact Prog.wp_pure.mpr ⟨rfl, iff_of_false (by simp [isOk_error]) hno, nofun⟩
  | ok u =>
    obtain ⟨hfits, hlo, hhi⟩ := checkRange_ok.mp hc
    dsimp only
    refine (copyInLoop_reads _ [] hr hlo hhi le_rfl).mono (fun r m' h => ?_) fun _ h => h
    obtain ⟨hm, hend⟩ := h
    refine ⟨hm, ?_⟩
    cases r with
    | ok bs =>
      obtain ⟨cs, rfl, hlen, hreads⟩ := hend
      refine ⟨iff_of_true rfl ⟨hfits, hlo, hhi, fun a h1 h2 => ?_⟩, fun bs hbs => ?_⟩
      · obtain ⟨b, hb, -⟩ := hreads (a - uva) (by omega)
        rw [show uva + (a - uva) = a by omega] at hb
        exact isSome_of_physical hb
      · obtain rfl := Except.ok.inj hbs
        exact ⟨hlen, hreads⟩
    | error e =>
      obtain ⟨n, hn, hnone⟩ := hend
      exact ⟨iff_of_false (by simp [isOk_error]) (CopyReady.not_of_unmapped hn hnone), nofun⟩

/-! ### The roots of the kernel -/

section Roots

variable {role : ℕ → Role} {m : Machine} {r va : ℕ}

theorem tableAt_two {a b l0 : ℕ} : tableAt m r [b, a] = some l0 ↔ pteValid (m.pte r a) = true ∧
    pteValid (m.pte (pteAddr (m.pte r a)) b) = true ∧
      l0 = pteAddr (m.pte (pteAddr (m.pte r a)) b) := by
  rw [tableAt, tableAt, tableAt, Option.bind_some, child]
  by_cases ha : pteValid (m.pte r a) = true
  · rw [if_pos ha, Option.bind_some, child]
    by_cases hb : pteValid (m.pte (pteAddr (m.pte r a)) b) = true
    · rw [if_pos hb, Option.some.injEq]
      exact ⟨fun h => ⟨ha, hb, h.symm⟩, fun h => h.2.2.symm⟩
    · rw [if_neg hb]
      exact iff_of_false (fun h => by cases h) fun h => hb h.2.1
  · rw [if_neg ha, Option.bind_none]
    exact iff_of_false (fun h => by cases h) fun h => ha h.1

/-- The last table of an address, by its place in the forest. -/
theorem Good.tableAt_iff (hg : Good role m) (hr : IsRoot role m r) {l0 : ℕ} :
    tableAt m r [vpn va 1, vpn va 2] = some l0 ↔ Chain role m r va l0 := by
  rw [tableAt_two, hg.chain_iff hr]

/-- The translation of an address, by the entry of the forest that holds it. -/
theorem Good.translation_iff (hg : Good role m) (hr : IsRoot role m r) {q f : ℕ} :
    translation m r va = some (q, f) ↔ ∃ l0, Chain role m r va l0 ∧
      pteValid (m.pte l0 (vpn va 0)) = true ∧ q = pteAddr (m.pte l0 (vpn va 0)) ∧
      f = pteFlags (m.pte l0 (vpn va 0)) := by
  cases ht : tableAt m r [vpn va 1, vpn va 2] with
  | none =>
    rw [translation_missing ht]
    refine iff_of_false nofun ?_
    rintro ⟨l0, hc, -⟩
    rw [(hg.tableAt_iff hr).mpr hc] at ht
    cases ht
  | some t =>
    have hc := (hg.tableAt_iff hr).mp ht
    rw [translation, leafEntry_table ht]
    constructor
    · intro h
      split_ifs at h with hv
      obtain ⟨rfl, rfl⟩ := Prod.mk.inj (Option.some.inj h)
      exact ⟨t, hc, hv, rfl, rfl⟩
    · rintro ⟨l0, hc', hv, rfl, rfl⟩
      rw [← hc.unique hg hc'] at hv ⊢
      rw [if_pos hv]

/-- The frame of a user address has its place in the forest. -/
theorem Good.window_page (hg : Good role m) (hr : role r = .root) (hw : InWindow va) {q f : ℕ}
    (h : translation m r va = some (q, f)) :
    ∃ l1 l0, role l1 = .table 1 r userRootSlot ∧ role l0 = .table 0 l1 (vpn va 1) ∧
      role q = .page l0 (vpn va 0) := by
  obtain ⟨l0, ⟨l1, h1, h0⟩, hv, rfl, -⟩ := (hg.translation_iff (Or.inl hr)).mp h
  rw [vpn_window hw.1 hw.2, home_user] at h1
  exact ⟨l1, l0, h1, h0, (hg.tables.user_leaf hr h1 h0 (vpn_lt va 0) hv).2⟩

/-- The tables on the way to a user address. -/
theorem Good.window_table (hg : Good role m) (hr : role r = .root) (hw : InWindow va)
    {p : List ℕ} {t : ℕ} (hp : p <:+ [vpn va 1, vpn va 2]) (ht : tableAt m r p = some t) :
    (role t).level = some (2 - p.length) ∧ ∀ i < 512, i :: p <:+ [vpn va 1, vpn va 2] →
      ¬ Shared role m t i := by
  have h2 := vpn_window hw.1 hw.2
  rcases List.suffix_cons_iff.mp hp with rfl | hp
  · obtain ⟨l1, h1, h0⟩ := (hg.tableAt_iff (Or.inl hr)).mp ht
    refine ⟨by rw [h0]; rfl, fun i hi hlong => ?_⟩
    have := hlong.length_le
    simp at this
  rcases List.suffix_cons_iff.mp hp with rfl | hp
  · rw [tableAt, tableAt, Option.bind_some, child] at ht
    split_ifs at ht with hv
    obtain rfl := Option.some.inj ht
    have h1 := root_entry hg (Or.inl hr) (vpn_lt va 2) hv
    exact ⟨by rw [h1]; rfl, fun i hi _ hs => absurd (hs.1.symm.trans h1) (by simp)⟩
  · obtain rfl := List.suffix_nil.mp hp
    obtain rfl : r = t := Option.some.inj ht
    refine ⟨by rw [hr]; rfl, fun i hi hlong hs => ?_⟩
    rcases List.suffix_cons_iff.mp hlong with he | hlong
    · simp at he
    rcases List.suffix_cons_iff.mp hlong with he | hlong
    · have hi : i = userRootSlot := by
        rw [← h2]
        simpa using he
      exact hs.2.1 hi
    · simp at hlong

/-- Every process root meets the conditions of the copies. -/
theorem Good.userRoot (hg : Good role m) (hr : role r = .root) : UserRoot m r := by
  refine ⟨hg.tables.aligned (by rw [hr]; rfl : (role r).level = some 2), ?_, ?_, ?_⟩
  · intro va hw p t i hp ht hv
    obtain ⟨hl, hns⟩ := hg.window_table hr hw ((List.suffix_cons i p).trans hp) ht
    have hi : i < 512 := (vpn_path va).2 i (hp.subset (by simp))
    have hlen := hp.length_le
    simp only [List.length_cons, List.length_nil] at hlen
    exact ((hg.tables.down t _ i hl hi hv (hns i hi hp)).1 (by omega)).1
  · intro va va' q f f' hw hw' ht ht'
    obtain ⟨l1, l0, h1, h0, hq⟩ := hg.window_page hr hw ht
    obtain ⟨l1', l0', h1', h0', hq'⟩ := hg.window_page hr hw' ht'
    rw [hq, Role.page.injEq] at hq'
    obtain ⟨rfl, e0⟩ := hq'
    rw [h0, Role.table.injEq] at h0'
    have hlt : ∀ a, InWindow a → a < 2 ^ 39 := fun a ha =>
      lt_of_lt_of_le ha.2 (by decide : userVaEnd ≤ 2 ^ 39)
    refine vpn_inj (hlt va hw) (hlt va' hw') e0 h0'.2.2 ?_
    rw [vpn_window hw.1 hw.2, vpn_window hw'.1 hw'.2]
  · intro va va' q f p t hw hw' ht hp htab he
    obtain ⟨l1, l0, -, -, hq⟩ := hg.window_page hr hw ht
    have hl := (hg.window_table hr hw' hp htab).1
    rw [he, hq] at hl
    cases hl

end Roots

/-- A root of the running kernel, whatever process it belongs to. -/
theorem Reached.userRoot {k : Kernel} (h : Reached k) {i : ℕ} {p : Process}
    (hp : k.procs.slots i = some p) : UserRoot k.machine p.rootPa := by
  obtain ⟨role, hm⟩ := h.memory
  exact hm.good.userRoot (hm.root i p hp)

/-- The first process has a page to copy to. -/
theorem FirstRun.mappedPage {k : Kernel} {p : Process} (h : FirstRun k p) :
    ∃ va, ∀ n ≤ pageSize, CopyReady k.machine p.rootPa va n := by
  obtain ⟨role, hm⟩ := h.reached.memory
  have hr := hm.root 0 p h.slot
  obtain ⟨va, hva⟩ : ∃ va, va ∈ userPages k.machine p.rootPa := ⟨_, h.own_page⟩
  obtain ⟨l0, hc, hv⟩ := userPages_hasPage hm.good.tables hr hva
  have htr := (hm.good.translation_iff (Or.inl hr)).mpr ⟨l0, hc, hv, rfl, rfl⟩
  unfold userPages at hva
  split_ifs at hva
  · obtain ⟨i1, hi1, -, i0, hi0, -, rfl⟩ := mem_tableVas hva
    have hi1' := List.mem_range.mp hi1
    have heq := userVa_eq hi1' hi0
    refine ⟨userVa i1 i0, fun n hn => ?_⟩
    refine ⟨?_, ?_, ?_, fun a h1 h2 => ?_⟩
    · rw [heq]
      simp only [usizeBound, pageSize] at *
      omega
    · rw [heq]
      simp only [userVaStart]
      omega
    · rw [heq]
      simp only [userVaEnd, pageSize] at *
      omega
    · have hpage : a / pageSize = userVa i1 i0 / pageSize := by
        rw [heq] at *
        simp only [pageSize] at *
        omega
      rw [translation_page hpage, htr]
      rfl
  · simp at hva

/-- User copies are exact and confined. -/
theorem user_copies_exact {m : Machine} {root : ℕ} (hr : UserRoot m root) (uva : ℕ) :
    (∀ src : List UInt8, ∃ r m', copyOut root uva src m = .ok (r, m') ∧
      (r = .ok () ↔ CopyReady m root uva src.length) ∧
      (r = .ok () → copyIn root uva src.length m' = .ok (.ok src, m') ∧
        Stored m root uva src m') ∧
      (r ≠ .ok () → ∃ n ≤ src.length, Stored m root uva (src.take n) m')) ∧
    ∀ len, ∃ r, copyIn root uva len m = .ok (r, m) ∧
      (r.isOk = true ↔ CopyReady m root uva len) ∧
      ∀ bs, r = .ok bs → bs.length = len ∧ Reads m root uva bs := by
  constructor
  · intro src
    obtain ⟨r, m', hout, hok, hstored, hpart⟩ := (copyOut_exact hr uva src).returns
    refine ⟨r, m', hout, hok, fun hr' => ⟨?_, hstored hr'⟩, fun _ => hpart⟩
    have hready := hok.mp hr'
    have hc := (hstored hr').confined hready.start hready.stop
    obtain ⟨r₂, m₂, hin, rfl, hok₂, hbytes⟩ := (copyIn_exact (hr.confined hc) uva src.length).returns
    have hready₂ : CopyReady m₂ root uva src.length := by
      refine ⟨hready.fits, hready.start, hready.stop, fun a h1 h2 => ?_⟩
      have h3 := hready.start
      have h4 := hready.stop
      rw [hr.translation_eq hc ⟨by omega, by omega⟩]
      exact hready.mapped a h1 h2
    cases r₂ with
    | error e => exact absurd (hok₂.mpr hready₂) (by simp [isOk_error])
    | ok bs =>
      obtain ⟨hlen, hreads⟩ := hbytes bs rfl
      rw [hin, hreads.unique ((hstored hr').reads hr hready.start hready.stop) hlen]
  · intro len
    obtain ⟨r, m', hin, rfl, hok, hbytes⟩ := (copyIn_exact hr uva len).returns
    exact ⟨r, hin, hok, hbytes⟩

/-- A page of the first process takes three bytes and gives them back. -/
theorem user_copies_exact_first : ∃ m m' root uva,
    copyOut root uva [1, 2, 3] m = .ok (.ok (), m') ∧
      copyIn root uva 3 m' = .ok (.ok [1, 2, 3], m') := by
  obtain ⟨k, p, h⟩ := exists_firstRun
  obtain ⟨va, hva⟩ := h.mappedPage
  have hr := h.reached.userRoot h.slot
  obtain ⟨r, m', hout, hok, hback, -⟩ := (user_copies_exact hr va).1 [1, 2, 3]
  have hr' : r = .ok () := hok.mpr (hva 3 (by decide))
  exact ⟨k.machine, m', p.rootPa, va, by rw [hout, hr'], (hback hr').1⟩

end LightOS
