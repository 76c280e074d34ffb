import LightOS.Canonical

/-!
# Growing the heap

When no free block can serve a layout, the allocator asks for pages by a size that does
not know where the new region will lie or what it will be merged with. The region always
lies in one block of the list, and it is larger than the block asked for plus its
alignment, so the second search succeeds.
-/
namespace LightOS.Kalloc
open Lib

/-- A stretch of covered addresses lies in one span of a coalesced list. -/
theorem spaced_one_span {l : List Span} (hl : Spaced l) {s : Span} (hs : 0 < s.size)
    (hcov : ∀ x, s.Has x → Covers l x) : ∃ b ∈ l, b.addr ≤ s.addr ∧ s.stop ≤ b.stop := by
  obtain ⟨b, hb, hba, hbs⟩ := hcov s.addr ⟨le_rfl, by simp only [Span.stop]; omega⟩
  refine ⟨b, hb, hba, ?_⟩
  by_contra hlt
  -- the end of `b` is covered as well, by a span that touches `b`
  obtain ⟨c, hc, hcb, hcs⟩ := hcov b.stop ⟨hbs.le, by omega⟩
  have hne : b ≠ c := by
    rintro rfl
    exact absurd hcs (lt_irrefl _)
  have hsymm : Std.Symm fun s t : Span => s.Before t ∨ t.Before s := ⟨fun _ _ => Or.symm⟩
  have hboth : l.Pairwise fun s t => s.Before t ∨ t.Before s := hl.imp Or.inl
  have hgap : b.Before c ∨ c.Before b := hboth.forall hb hc hne
  simp only [Span.Before] at hgap
  omega

/-- On the granules of the heap it makes no difference that alignments below a granule
are rounded up. -/
theorem fits_align (l : Layout) {b : Span} (hb : Block b) :
    Fits (blockSize l) l.align b ↔ Fits (blockSize l) (max l.align minBlock) b := by
  constructor
  · rintro ⟨a, ha, hba, has⟩
    obtain hle | hlt := Nat.le_total minBlock l.align
    · rw [max_eq_left hle]
      exact ⟨a, ha, hba, has⟩
    · rw [max_eq_right hlt]
      exact ⟨b.addr, Nat.dvd_of_mod_eq_zero hb.addr16, le_rfl, by omega⟩
  · rintro ⟨a, ha, hba, has⟩
    exact ⟨a, (align_dvd l).trans ha, hba, has⟩

/-- The pages asked for hold the block wherever they lie. -/
theorem region_fits (l : Layout) {addr : ℕ} {b : Span} (hba : b.addr ≤ addr)
    (hbs : (region addr (requestPages l)).stop ≤ b.stop) :
    Fits (blockSize l) (max l.align minBlock) b := by
  have hpos := (request l).alignPos
  obtain ⟨size, hsize⟩ : ∃ n, n = blockSize l := ⟨_, rfl⟩
  obtain ⟨align, halign⟩ : ∃ n, n = max l.align minBlock := ⟨_, rfl⟩
  have hlarge : size + align ≤ requestPages l * pageSize := by
    have hdiv := Nat.div_add_mod (size + align) pageSize
    have hmod := Nat.mod_lt (size + align) (show 0 < pageSize by decide)
    have hpages : (size + align) / pageSize + 1 ≤ requestPages l := by
      rw [requestPages, ← hsize, ← halign]
      exact le_max_left _ _
    have := Nat.mul_le_mul_right pageSize hpages
    rw [Nat.add_mul, Nat.mul_comm (_ / _)] at this
    omega
  rw [← hsize, ← halign]
  rw [← halign] at hpos
  have hmod := Nat.mod_lt (addr + (align - 1)) hpos
  have hdiv := Nat.div_add_mod (addr + (align - 1)) align
  simp only [region, Span.stop] at hbs
  refine ⟨align * ((addr + (align - 1)) / align), Nat.dvd_mul_right _ _, by omega, ?_⟩
  simp only [Span.stop]
  omega

namespace HeapInv

variable {s : HeapState} {free : List Span}

/-- The search after growing succeeds, whatever the region was merged with. -/
theorem take_grown (hi : HeapInv s free) {l : Layout} {addr : ℕ}
    (hd : Donation s addr (requestPages l)) :
    ∃ h p h', donate addr (requestPages l) s.list = .ok ((), h) ∧
      FreeList.take (blockSize l) (max l.align minBlock) h = .ok (p, h') ∧ p ≠ 0 := by
  have hp : 0 < requestPages l := by
    simp only [requestPages]
    omega
  obtain ⟨_, h, hdon, hi'⟩ := (hi.donate_spec hd hp).returns
  obtain ⟨p, h', htake, -, hnull⟩ := (take_exact (request l) hi'.freeOk).returns
  refine ⟨h, p, h', hdon, htake, fun h0 => ?_⟩
  have hcov (x : ℕ) (hx : (region addr (requestPages l)).Has x) :=
    (covers_insertSpan (region addr (requestPages l)) free x).mpr (.inl hx)
  obtain ⟨b, hb, hba, hbs⟩ := spaced_one_span hi'.freeOk.spaced (region_block hd hp).pos hcov
  exact hnull h0 b hb (region_fits l hba hbs)

end HeapInv

/-- An allocation returns null only if no free block can hold the block at the alignment
asked for and the page allocator has nothing; whenever it has, the search after growing
finds a block. -/
theorem heapAlloc_null_iff {mem : Mem} {s : HeapState} (hr : HeapReaches mem s) {l : Layout}
    {grown : Option ℕ} (hop : (HeapOp.alloc l grown).Allowed s) :
    ∃ free p h, s.list.blocks = some free ∧ heapAlloc l grown s.list = .ok (p, h) ∧
      (p = 0 ↔ (∀ b ∈ free, ¬ Fits (blockSize l) l.align b) ∧ grown = none) ∧
      ∀ addr, grown = some addr → ∃ h₁ q h₂,
        donate addr (requestPages l) s.list = .ok ((), h₁) ∧
        FreeList.take (blockSize l) (max l.align minBlock) h₁ = .ok (q, h₂) ∧ q ≠ 0 := by
  obtain ⟨⟨free, hi⟩, -⟩ := heap_reachable hr
  obtain ⟨first, h, hfirst, hserved, hnull⟩ := (take_exact (request l) hi.freeOk).returns
  have hnone : first = 0 ↔ ∀ b ∈ free, ¬ Fits (blockSize l) l.align b := by
    constructor
    · intro h0 b hb
      rw [fits_align l (hi.freeOk.block b hb)]
      exact hnull h0 b hb
    · intro hno
      obtain ⟨h0, -⟩ | ⟨free', -, ht, hal⟩ := hserved
      · exact h0
      · -- the block that was taken lay in a free one
        obtain ⟨b, hb, hba, hbs⟩ := spaced_one_span hi.freeOk.spaced ht.block.pos
          fun x hx => (ht.exact x).mpr (.inl hx)
        exact absurd ⟨first, (align_dvd l).trans hal, hba, hbs⟩ (hno b hb)
  have hgrown (addr : ℕ) (ha : grown = some addr) := hi.take_grown (hop addr ha)
  by_cases h0 : first = 0
  · have hsame : h = s.list := by
      obtain ⟨-, hsame⟩ | ⟨free', -, ht, -⟩ := hserved
      · exact hsame
      · exact absurd h0 ht.block.low.ne'
    subst hsame
    cases grown with
    | none =>
      refine ⟨free, 0, s.list, hi.freeOk.blocks, ?_, ?_, hgrown⟩
      · simp only [heapAlloc, Prog.bind_apply, hfirst, h0, ne_eq, not_true_eq_false, if_false,
          Prog.pure_apply]
      · exact ⟨fun _ => ⟨hnone.mp h0, rfl⟩, fun _ => rfl⟩
    | some addr =>
      obtain ⟨h₁, q, h₂, hdon, htake, hq⟩ := hgrown addr rfl
      refine ⟨free, q, h₂, hi.freeOk.blocks, ?_, ?_, hgrown⟩
      · simp only [heapAlloc, Prog.bind_apply, hfirst, h0, ne_eq, not_true_eq_false, if_false,
          hdon]
        exact htake
      · exact ⟨fun h => absurd h hq, fun h => absurd h.2 (Option.some_ne_none addr)⟩
  · refine ⟨free, first, h, hi.freeOk.blocks, ?_, ?_, hgrown⟩
    · simp only [heapAlloc, Prog.bind_apply, hfirst, ne_eq, h0, not_false_eq_true, if_true,
        Prog.pure_apply]
    · exact ⟨fun h => absurd h h0, fun h => absurd (hnone.mpr h.1) h0⟩

/-- A block that is larger than the seeded heap, aligned to two pages. -/
theorem heapAlloc_null_iff_large : ∃ s, HeapReaches (fun _ => 0) s ∧
    ∃ free p h, s.list.blocks = some free ∧
      heapAlloc ⟨0x500000, 0x2000, ⟨13, by decide⟩, by decide⟩ (some 0x80900000) s.list =
        .ok (p, h) ∧ p ≠ 0 := by
  obtain ⟨s, hs, -, -, hdon⟩ := heapInit_reaches fun _ => 0
  have hop : (HeapOp.alloc ⟨0x500000, 0x2000, ⟨13, by decide⟩, by decide⟩
      (some 0x80900000)).Allowed s := by
    rintro addr ⟨⟩
    refine ⟨by decide, by decide, by decide, ?_⟩
    rw [hdon]
    rintro d hd
    obtain rfl := List.mem_singleton.mp hd
    exact .inr (by decide)
  obtain ⟨free, p, h, hblocks, hrun, hnull, -⟩ := heapAlloc_null_iff hs hop
  exact ⟨s, hs, free, p, h, hblocks, hrun, fun h0 => nomatch (hnull.mp h0).2⟩

end LightOS.Kalloc
