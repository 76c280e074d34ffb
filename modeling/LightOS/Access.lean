import LightOS.Teardown
import LightOS.Trap

/-!
# Access to user memory

Copies to and from a process, and the stores of the process itself, reach only
user pages: no page table, no kernel frame and no free frame changes.
-/
namespace LightOS
open Lib PageAllocator

variable {role : ℕ → Role} {m m' m'' : Machine} {r va : ℕ}

/-- Only the contents of user pages have changed. -/
structure DataOnly (role : ℕ → Role) (m m' : Machine) : Prop where
  mem : ∀ a, (∀ q t i, role q = .page t i → a < q ∨ q + pageSize ≤ a) → m'.mem a = m.mem a
  pages : m'.pages = m.pages
  kernelRootPa : m'.kernelRootPa = m.kernelRootPa
  account : m'.account = m.account
  log : m'.log = m.log
  asks : m'.asks = m.asks

namespace DataOnly

theorem refl (role : ℕ → Role) (m : Machine) : DataOnly role m m :=
  ⟨fun _ _ => rfl, rfl, rfl, rfl, rfl, rfl⟩

theorem trans (h : DataOnly role m m') (h' : DataOnly role m' m'') : DataOnly role m m'' :=
  ⟨fun a ha => (h'.mem a ha).trans (h.mem a ha), h'.pages.trans h.pages,
    h'.kernelRootPa.trans h.kernelRootPa, h'.account.trans h.account, h'.log.trans h.log,
    h'.asks.trans h.asks⟩

theorem held (h : DataOnly role m m') (p : ℕ) : m'.Held p ↔ m.Held p := by
  simp only [Machine.Held, Machine.IsFrame, h.pages]

theorem pte (h : DataOnly role m m') (ht : Tables role m) {t l i : ℕ}
    (hl : (role t).level = some l) (hi : i < 512) : m'.pte t i = m.pte t i := by
  refine Machine.pte_congr hi fun b h1 h2 => h.mem b fun q t' i' hq => ?_
  have hne : t ≠ q := by
    rintro rfl
    simp [hq, Role.level] at hl
  have hqa := (ht.held q (by simp [hq])).aligned
  rcases frames_disjoint (ht.aligned hl) hqa hne with hd | hd
  · left; omega
  · right; omega

theorem good (h : DataOnly role m m') (hg : Good role m) : Good role m' := by
  refine ⟨hg.tables.of_agree h.kernelRootPa (fun p hp => (h.held p).mpr (hg.tables.held p hp))
    fun _ _ _ hl hi => h.pte hg.tables hl hi, by rw [h.pages]; exact hg.pages, ?_, ?_⟩
  · rw [h.log]
    exact hg.recorded.balanced
  · intro p hp
    rw [h.held, h.log]
    exact hg.recorded.held p (by simpa only [Machine.IsFrame, h.pages] using hp)

/-- Bytes stored inside one user page. -/
theorem store {q t i off : ℕ} {bs : List UInt8} (hq : role q = .page t i)
    (hlen : off + bs.length ≤ pageSize) :
    DataOnly role m { m with mem := writeBytes m.mem (q + off) bs } := by
  refine ⟨fun a ha => ?_, rfl, rfl, rfl, rfl, rfl⟩
  have := ha q t i hq
  simp only [writeBytes]
  rw [if_neg (by omega)]

end DataOnly

/-- `va` translates to `pa` in the user window of `r`. -/
def Translates (role : ℕ → Role) (m : Machine) (r va pa : ℕ) : Prop :=
  ∃ l0, Chain role m r va l0 ∧ pteValid (m.pte l0 (vpn va 0)) = true ∧
    pa = pteAddr (m.pte l0 (vpn va 0)) + va % pageSize

theorem virtToPhys_spec (hg : Good role m) (hr : role r = .root) :
    Prog.Wp (PageTable.virtToPhys r va) m (fun res m' => m' = m ∧
      ∀ pa, res = some pa ↔ Translates role m r va pa) Prog.Never := by
  unfold PageTable.virtToPhys
  refine (walk_spec false hg (Or.inl hr) fun he => absurd he (hg.root_ne hr)).bind ?_
  rintro res m1 ⟨role1, hw, hres⟩
  obtain ⟨rfl, rfl⟩ := hw.pure rfl
  cases res with
  | none =>
    refine Prog.wp_pure.mpr ⟨rfl, fun pa => iff_of_false (by simp) ?_⟩
    rintro ⟨l0, hc, -⟩
    exact hres.1 l0 hc
  | some l0 =>
    dsimp only
    rw [Prog.wp_bind, Prog.wp_get]
    by_cases hv : pteValid (m1.pte l0 (vpn va 0)) = true
    · rw [if_pos hv, Prog.wp_pure]
      refine ⟨rfl, fun pa => ⟨fun h => ⟨l0, hres, hv, (Option.some.inj h).symm⟩, ?_⟩⟩
      rintro ⟨l0', hc, -, rfl⟩
      rw [hc.unique hg hres]
    · rw [if_neg hv, Prog.wp_pure]
      refine ⟨rfl, fun pa => iff_of_false (by simp) ?_⟩
      rintro ⟨l0', hc, hv', -⟩
      rw [hc.unique hg hres] at hv'
      exact hv hv'

/-- An address of the user window lies in root slot 1. -/
theorem vpn_window (h1 : userVaStart ≤ va) (h2 : va < userVaEnd) : vpn va 2 = userRootSlot := by
  rw [vpn_eq]
  simp only [userVaStart, userVaEnd, userRootSlot] at *
  omega

/-- What an address of the window translates to lies in a user page. -/
theorem Translates.page (hg : Good role m) (hr : role r = .root) (hw : vpn va 2 = userRootSlot)
    {pa : ℕ} (h : Translates role m r va pa) :
    ∃ q l0, Chain role m r va l0 ∧ role q = .page l0 (vpn va 0) ∧ pa = q + va % pageSize := by
  obtain ⟨l0, hc, hv, rfl⟩ := h
  obtain ⟨l1, h1, h0⟩ := hc
  have h1' := h1
  rw [hw, home_user] at h1'
  exact ⟨_, l0, ⟨l1, h1, h0⟩, (hg.tables.user_leaf hr h1' h0 (vpn_lt va 0) hv).2, rfl⟩

theorem chunkLen_le (va left : ℕ) : va % pageSize + chunkLen va left ≤ pageSize := by
  have : va % pageSize < pageSize := Nat.mod_lt _ (by norm_num)
  simp only [chunkLen]
  omega

theorem copyOutLoop_spec (fuel : ℕ) {src : List UInt8} (hg : Good role m) (hr : role r = .root)
    (h1 : userVaStart ≤ va) (h2 : va + src.length ≤ userVaEnd) :
    Prog.Wp (copyOutLoop r fuel va src) m (fun _ m' => DataOnly role m m') Prog.Never := by
  induction fuel generalizing va src m with
  | zero => exact Prog.wp_pure.mpr (.refl role m)
  | succ fuel ih =>
    rw [copyOutLoop]
    by_cases hs : src = []
    · rw [if_pos hs]
      exact Prog.wp_pure.mpr (.refl role m)
    · rw [if_neg hs, Prog.wp_bind]
      have hpos : 0 < src.length := List.length_pos_of_ne_nil hs
      refine (virtToPhys_spec hg hr).mono ?_ fun _ h => h
      rintro res m1 ⟨rfl, hres⟩
      cases res with
      | none => exact Prog.wp_pure.mpr (.refl role m1)
      | some pa =>
        dsimp only
        have hw := vpn_window h1 (by omega : va < userVaEnd)
        obtain ⟨q, l0, -, hq, rfl⟩ := ((hres pa).mp rfl).page hg hr hw
        have hlen : (src.take (chunkLen va src.length)).length = chunkLen va src.length := by
          simp only [List.length_take, chunkLen]
          omega
        have hstore : DataOnly role m1 { m1 with
            mem := writeBytes m1.mem (q + va % pageSize) (src.take (chunkLen va src.length)) } :=
          .store hq (by rw [hlen]; exact chunkLen_le va src.length)
        rw [Prog.wp_bind, Prog.wp_modify]
        have hle : chunkLen va src.length ≤ src.length := by
          simp only [chunkLen]
          omega
        refine (ih (hstore.good hg) (by omega) ?_).mono (fun _ m2 h => hstore.trans h) fun _ h => h
        simp only [List.length_drop]
        omega

theorem copyOut_spec (uva : ℕ) (src : List UInt8) (hg : Good role m) (hr : role r = .root) :
    Prog.Wp (copyOut r uva src) m (fun _ m' => DataOnly role m m') Prog.Never := by
  unfold copyOut checkRange
  split_ifs with h1 h2
  · exact Prog.wp_pure.mpr (.refl role m)
  · exact Prog.wp_pure.mpr (.refl role m)
  · exact copyOutLoop_spec _ hg hr (by omega) (by omega)

theorem copyInLoop_spec (fuel left : ℕ) (acc : List UInt8) (hg : Good role m) (hr : role r = .root) :
    Prog.Wp (copyInLoop r fuel va left acc) m (fun _ m' => m' = m) Prog.Never := by
  induction fuel generalizing va left acc with
  | zero => exact Prog.wp_pure.mpr rfl
  | succ fuel ih =>
    rw [copyInLoop]
    by_cases hl : left = 0
    · rw [if_pos hl]
      exact Prog.wp_pure.mpr rfl
    · rw [if_neg hl, Prog.wp_bind]
      refine (virtToPhys_spec hg hr).mono ?_ fun _ h => h
      rintro res m1 ⟨rfl, -⟩
      cases res with
      | none => exact Prog.wp_pure.mpr rfl
      | some pa =>
        dsimp only
        rw [Prog.wp_bind, Prog.wp_get]
        exact ih _ _

theorem copyIn_spec (uva len : ℕ) (hg : Good role m) (hr : role r = .root) :
    Prog.Wp (copyIn r uva len) m (fun res m' => m' = m ∧ (res.isOk = true → uva + len ≤ userVaEnd))
      Prog.Never := by
  unfold copyIn checkRange
  split_ifs with h1 h2
  · exact Prog.wp_pure.mpr ⟨rfl, by simp [isOk_error]⟩
  · exact Prog.wp_pure.mpr ⟨rfl, by simp [isOk_error]⟩
  · exact (copyInLoop_spec _ _ _ hg hr).mono (fun _ _ h => ⟨h, fun _ => by omega⟩) fun _ h => h

/-- A string is read byte by byte, and every byte must be in the window, so the
address never overflows. -/
theorem copyInCstrLoop_spec (uva left i : ℕ) (acc : List UInt8) (hg : Good role m)
    (hr : role r = .root) (hi : uva + i < usizeBound) :
    Prog.Wp (copyInCstrLoop r uva left i acc) m (fun _ m' => m' = m) Prog.Never := by
  induction left generalizing i acc with
  | zero => exact Prog.wp_pure.mpr rfl
  | succ left ih =>
    rw [copyInCstrLoop, Prog.wp_bind, Prog.wp_ofExcept, checkedAdd, if_pos hi]
    dsimp only
    rw [Prog.wp_bind]
    refine (copyIn_spec (uva + i) 1 hg hr).mono ?_ fun _ h => h
    rintro res m1 ⟨rfl, hres⟩
    cases res with
    | error e => exact Prog.wp_pure.mpr rfl
    | ok byte =>
      have hend := hres rfl
      dsimp only
      split_ifs
      · exact Prog.wp_pure.mpr rfl
      · exact Prog.wp_pure.mpr rfl
      · refine ih (i + 1) _ ?_
        simp only [userVaEnd, usizeBound] at *
        omega

theorem copyInCstr_spec (uva bufLen : ℕ) (hg : Good role m) (hr : role r = .root)
    (hu : uva < usizeBound) :
    Prog.Wp (copyInCstr r uva bufLen) m (fun _ m' => m' = m) Prog.Never :=
  copyInCstrLoop_spec uva _ 0 [] hg hr hu

/-- A store of the process itself. -/
theorem userWritable_spec {pa : ℕ} (hg : Good role m) (hr : role r = .root)
    (h : userWritable m r va = some pa) : ∃ q t i, role q = .page t i ∧ pa = q + va % pageSize := by
  unfold userWritable at h
  dsimp only at h
  split_ifs at h with hc
  obtain ⟨-, hv2, hl2, hv1, hl1, hv0, hu, -⟩ := hc
  obtain rfl := Option.some.inj h
  have hi (l : ℕ) := vpn_lt va l
  -- follow the walk down the forest
  obtain ⟨r', hr'⟩ : ∃ r', role (pteAddr (m.pte r (vpn va 2))) = .table 1 r' (vpn va 2) := by
    by_cases hs : Shared role m r (vpn va 2)
    · rw [hg.tables.shared r _ hs (hi 2)]
      have hnk : ¬ Shared role m m.kernelRootPa (vpn va 2) := by
        intro hs'
        have := hs'.1.symm.trans ((hg.tables.kroot _).mpr rfl)
        simp at this
      exact ⟨_, ((hg.tables.down _ 2 _ hg.tables.kroot_level (hi 2) hs.2.2 hnk).1 (by omega)).2⟩
    · exact ⟨_, ((hg.tables.down r 2 _ (by simp [hr, Role.level]) (hi 2) hv2 hs).1 (by omega)).2⟩
  generalize pteAddr (m.pte r (vpn va 2)) = l1 at *
  have hn1 : ¬ Shared role m l1 (vpn va 1) := fun hs => absurd (hs.1.symm.trans hr') (by simp)
  have h0 := ((hg.tables.down l1 1 _ (by simp [hr', Role.level]) (hi 1) hv1 hn1).1 (by omega)).2
  generalize pteAddr (m.pte l1 (vpn va 1)) = l0 at *
  have hn0 : ¬ Shared role m l0 (vpn va 0) := fun hs => absurd (hs.1.symm.trans h0) (by simp [Role.child])
  have hq := ((hg.tables.down l0 0 _ (by simp [h0, Role.level, Role.child]) (hi 0) hv0 hn0).2 rfl).1 hu
  exact ⟨_, l0, _, hq, rfl⟩

end LightOS
