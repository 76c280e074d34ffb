import LightOS.Heap

/-!
# The free list is canonical

A coalesced list is determined by the addresses it covers, and the allocator's free
list covers the donated memory less the live blocks. So the order in which blocks were
allocated and released, and what memory held, leave no trace in it.
-/
namespace LightOS.Kalloc
open Lib

/-- The blocks on the way from `p` along the links; `none` if the links do not end. -/
def follow (mem : Mem) : ℕ → ℕ → Option (List Span)
  | 0, _ => none
  | n + 1, p =>
    if p = 0 then some []
    else (follow mem n (nextOf mem p)).map (⟨p, sizeOf mem p⟩ :: ·)

/-- The free list as it stands in memory. -/
def FreeList.blocks (h : FreeList) : Option (List Span) := follow h.mem linkBound h.head

theorem follow_eq {m : Mem} {l : List Span} {p n : ℕ} (h : Chain m p l 0) (hn : l.length < n) :
    follow m n p = some l := by
  induction l generalizing p n with
  | nil =>
      obtain ⟨n, rfl⟩ : ∃ k, n = k + 1 := ⟨n - 1, by simp at hn; omega⟩
      have hp : p = 0 := h
      rw [follow, if_pos hp]
  | cons b l ih =>
      obtain ⟨n, rfl⟩ : ∃ k, n = k + 1 := ⟨n - 1, by simp at hn; omega⟩
      obtain ⟨rfl, h0, hs, hl⟩ := h
      rw [follow, if_neg h0, ih hl (by simpa using hn), hs, Option.map_some]

theorem FreeOk.blocks {h : FreeList} {l : List Span} (hf : FreeOk h l) : h.blocks = some l :=
  follow_eq hf.chain hf.length

namespace HeapInv

variable {s t : HeapState} {free free' : List Span}

theorem blocks_unique (hs : HeapInv s free) (ht : HeapInv t free')
    (hdon : ∀ x, Covers s.donated x ↔ Covers t.donated x)
    (hlive : ∀ b, b ∈ s.live.map Alloc.span ↔ b ∈ t.live.map Alloc.span) :
    s.list.blocks = t.list.blocks := by
  rw [hs.freeOk.blocks, ht.freeOk.blocks, hs.free_unique ht hdon hlive]

end HeapInv

/-- Release the blocks one after another. -/
def deallocAll (as : List Alloc) (s : HeapState) : Except HeapStop HeapState :=
  as.foldlM (fun s a => heapStep (.dealloc a) s) s

/-- The lists that are kept beside the allocator after releasing some blocks. -/
theorem deallocAll_spec {as : List Alloc} {s : HeapState} {free : List Span}
    (hi : HeapInv s free) (has : as.Subperm s.live) :
    ∃ s' free', deallocAll as s = .ok s' ∧ HeapInv s' free' ∧ s'.donated = s.donated ∧
      s'.live = s.live.diff as := by
  induction as generalizing s free with
  | nil => exact ⟨s, free, rfl, hi, rfl, rfl⟩
  | cons a as ih =>
      have ha : a ∈ s.live := has.subset (by simp)
      obtain ⟨s₁, hstep, hi₁, hdon, hlive⟩ := hi.dealloc_step ha
      have hsub : as.Subperm s₁.live := by
        rw [hlive, ← List.subperm_cons a]
        exact has.trans (List.perm_cons_erase ha).subperm
      obtain ⟨s', free', hall, hi', hdon', hlive'⟩ := ih hi₁ hsub
      refine ⟨s', free', ?_, hi', hdon'.trans hdon, ?_⟩
      · simp only [deallocAll, List.foldlM_cons, hstep, bind, Except.bind]
        exact hall
      · rw [hlive', hlive, List.diff_cons]

/-- The free list depends on the donated memory and on the live blocks only: two
histories that agree on these end with the same list. Releasing what an allocation that
did not grow the heap has just returned restores the list, and releasing a set of blocks
gives one list in whatever order. -/
theorem freeList_canonical {mem mem' : Mem} {s t : HeapState} (hs : HeapReaches mem s)
    (ht : HeapReaches mem' t) :
    ((∀ x, Covers s.donated x ↔ Covers t.donated x) →
      (∀ b, b ∈ s.live.map Alloc.span ↔ b ∈ t.live.map Alloc.span) →
      s.list.blocks = t.list.blocks ∧ ∃ free, s.list.blocks = some free) ∧
    (∀ l grown s₁ a s₂, (HeapOp.alloc l grown).Allowed s →
      heapStep (.alloc l grown) s = .ok s₁ → s₁.donated = s.donated → s₁.live = a :: s.live →
      heapStep (.dealloc a) s₁ = .ok s₂ → s₂.list.blocks = s.list.blocks) ∧
    (∀ as bs : List Alloc, as.Perm bs → as.Subperm s.live →
      ∃ u v, deallocAll as s = .ok u ∧ deallocAll bs s = .ok v ∧
        u.list.blocks = v.list.blocks) := by
  obtain ⟨⟨free, hi⟩, -⟩ := heap_reachable hs
  obtain ⟨⟨free', hi'⟩, -⟩ := heap_reachable ht
  refine ⟨fun hdon hlive => ⟨hi.blocks_unique hi' hdon hlive, free, hi.freeOk.blocks⟩, ?_, ?_⟩
  · intro l grown s₁ a s₂ hop hstep hdon hlive hback
    obtain ⟨s₁', free₁, hstep', hi₁⟩ := hi.step hop
    obtain rfl : s₁' = s₁ := by simpa [hstep] using hstep'.symm
    have hsub : [a].Subperm s₁'.live := by
      rw [hlive]
      exact (List.singleton_sublist.mpr (by simp)).subperm
    obtain ⟨s₂', free₂, hall, hi₂, hdon₂, hlive₂⟩ := deallocAll_spec hi₁ hsub
    obtain rfl : s₂' = s₂ := by
      simpa [deallocAll, hback, bind, Except.bind, pure, Except.pure] using hall.symm
    refine hi₂.blocks_unique hi (fun x => by rw [hdon₂, hdon]) fun b => ?_
    rw [hlive₂, hlive, List.diff_cons, List.erase_cons_head, List.diff_nil]
  · intro as bs hperm has
    obtain ⟨u, free₁, hu, hiu, hdu, hlu⟩ := deallocAll_spec hi has
    obtain ⟨v, free₂, hv, hiv, hdv, hlv⟩ := deallocAll_spec hi (hperm.symm.subperm.trans has)
    refine ⟨u, v, hu, hv, hiu.blocks_unique hiv (fun x => by rw [hdu, hdv]) fun b => ?_⟩
    rw [hlu, hlv, hperm.diff_left s.live]

/-- Another history with the same result: a large block is released after the one behind it was
allocated, and its place is used again. -/
theorem exists_history_reused (mem : Mem) : ∃ s, HeapReaches mem s ∧
    HeapInv s [⟨0x80400030, 0x80⟩, ⟨0x804000d0, 0x3fff30⟩] ∧
    s.live = [⟨0x80400000, smallLayout 48 3⟩, ⟨0x804000b0, smallLayout 32 4⟩] ∧
    s.donated = [region 0x80400000 initialHeapPages] := by
  obtain ⟨s0, r0, i0, l0, d0⟩ := heapInit_reaches mem
  obtain ⟨s1, -, r1, i1, l1, d1⟩ := r0.alloc i0 (l := smallLayout 170 4) (d := 0)
    (by decide) (by decide)
  replace i1 : HeapInv s1 [⟨0x804000b0, 0x3fff50⟩] := i1
  obtain ⟨s2, -, r2, i2, l2, d2⟩ := r1.alloc i1 (l := smallLayout 32 4) (d := 0)
    (by decide) (by decide)
  replace i2 : HeapInv s2 [⟨0x804000d0, 0x3fff30⟩] := i2
  have hl2 : s2.live = [⟨0x804000b0, smallLayout 32 4⟩, ⟨0x80400000, smallLayout 170 4⟩] := by
    rw [l2, l1, l0]
    rfl
  obtain ⟨s3, -, r3, i3, l3, d3⟩ := r2.dealloc (a := ⟨0x80400000, smallLayout 170 4⟩) i2 (by simp [hl2])
  replace i3 : HeapInv s3 [⟨0x80400000, 0xb0⟩, ⟨0x804000d0, 0x3fff30⟩] := i3
  obtain ⟨s4, -, r4, i4, l4, d4⟩ := r3.alloc i3 (l := smallLayout 48 3) (d := 0)
    (by decide) (by decide)
  refine ⟨s4, r4, i4, ?_, ?_⟩
  · rw [l4, l3, hl2]
    decide
  · rw [d4, d3, d2, d1, d0]

/-- Two histories over memories with different contents leave the same two live blocks: one list,
which an allocation and its release restore, and which takes the blocks back in either order. -/
theorem freeList_canonical_histories : ∃ s t, HeapReaches (fun _ => 0) s ∧
    HeapReaches (fun _ => 1) t ∧
    s.live = [⟨0x804000b0, smallLayout 32 4⟩, ⟨0x80400000, smallLayout 48 3⟩] ∧
    t.live = [⟨0x80400000, smallLayout 48 3⟩, ⟨0x804000b0, smallLayout 32 4⟩] ∧
    s.list.blocks = t.list.blocks ∧
    s.list.blocks = some [⟨0x80400030, 0x80⟩, ⟨0x804000d0, 0x3fff30⟩] ∧
    (∃ s₁ s₂, heapStep (.alloc (smallLayout 64 5) none) s = .ok s₁ ∧
      heapStep (.dealloc ⟨0x80400040, smallLayout 64 5⟩) s₁ = .ok s₂ ∧
      s₂.list.blocks = s.list.blocks) ∧
    ∃ u v, deallocAll s.live s = .ok u ∧ deallocAll t.live s = .ok v ∧
      u.list.blocks = v.list.blocks := by
  obtain ⟨s, hs, is, ls, ds⟩ := exists_history fun _ => 0
  obtain ⟨t, ht, it, lt, dt⟩ := exists_history_reused fun _ => 1
  obtain ⟨hsame, hback, hall⟩ := freeList_canonical hs ht
  have hperm : s.live.Perm t.live := by
    rw [ls, lt]
    exact .swap _ _ _
  obtain ⟨s₁, hstep, -, i₁, l₁, d₁⟩ := hs.alloc is (l := smallLayout 64 5) (d := 16)
    (by decide) (by decide)
  obtain ⟨s₂, hstep', -⟩ := i₁.dealloc_step (a := ⟨0x80400040, smallLayout 64 5⟩) (by simp [l₁])
  have hallowed : (HeapOp.alloc (smallLayout 64 5) none).Allowed s := fun addr ha => by cases ha
  refine ⟨s, t, hs, ht, ls, lt, (hsame (fun x => by rw [ds, dt]) fun b => ?_).1, is.freeOk.blocks,
    ⟨s₁, s₂, hstep, hstep', hback _ _ _ _ _ hallowed hstep d₁ l₁ hstep'⟩,
    hall _ _ hperm (List.Subperm.refl _)⟩
  exact (hperm.map Alloc.span).mem_iff

end LightOS.Kalloc
