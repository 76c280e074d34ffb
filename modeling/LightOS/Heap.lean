import LightOS.Kalloc
import LightOS.Lib.Runs

/-!
# The heap invariant

The linked list in memory represents a coalesced list of spans, and every operation
of the allocator is an insertion into that list or the removal of one of its spans.
Free blocks and live blocks are apart and together are the donated memory, over
every sequence of operations and whatever the owners of live blocks store in them.
-/
namespace LightOS.Kalloc
open Lib

/-- From `p` the links lead through the blocks of the list to `q`. -/
def Chain (m : Mem) : ℕ → List Span → ℕ → Prop
  | p, [], q => p = q
  | p, b :: l, q => p = b.addr ∧ p ≠ 0 ∧ sizeOf m p = b.size ∧ Chain m (nextOf m p) l q

theorem chain_append {m : Mem} {l r : List Span} {p q : ℕ} :
    Chain m p (l ++ r) q ↔ ∃ c, Chain m p l c ∧ Chain m c r q := by
  induction l generalizing p with
  | nil => simp [Chain]
  | cons b l ih =>
      simp only [List.cons_append, Chain, ih]
      constructor
      · rintro ⟨hp, h0, hs, c, hl, hr⟩
        exact ⟨c, ⟨hp, h0, hs, hl⟩, hr⟩
      · rintro ⟨c, ⟨hp, h0, hs, hl⟩, hr⟩
        exact ⟨hp, h0, hs, c, hl, hr⟩

/-- The two header words of a block are the same in both memories. -/
def SameHeader (m m' : Mem) (a : ℕ) : Prop := sizeOf m' a = sizeOf m a ∧ nextOf m' a = nextOf m a

theorem SameHeader.of_agree {m m' : Mem} {a : ℕ} (h : AgreeOn m m' a 16) : SameHeader m m' a :=
  ⟨readWord_congr fun b hb hb' => h b hb (by omega),
    readWord_congr fun b hb hb' => h b (by omega) (by omega)⟩

theorem Chain.congr {m m' : Mem} {l : List Span} {p q : ℕ} (h : Chain m p l q)
    (hh : ∀ b ∈ l, SameHeader m m' b.addr) : Chain m' p l q := by
  induction l generalizing p with
  | nil => exact h
  | cons b l ih =>
      obtain ⟨hp, h0, hs, hl⟩ := h
      obtain ⟨hsize, hnext⟩ := hh b (by simp)
      refine ⟨hp, h0, ?_, ?_⟩
      · rw [hp, hsize, ← hp, hs]
      · rw [hp, hnext, ← hp]
        exact ih hl fun c hc => hh c (by simp [hc])

/-- Where a list of blocks begins. -/
def headAddr (l : List Span) (q : ℕ) : ℕ := match l with
  | [] => q
  | b :: _ => b.addr

theorem Chain.head {m : Mem} {l : List Span} {p q : ℕ} (h : Chain m p l q) : p = headAddr l q := by
  cases l with
  | nil => exact h
  | cons b l => exact h.1

/-! Writing one header. -/

/-- Store both header words of a block. -/
def putHeader (m : Mem) (a size next : ℕ) : Mem := writeWord (writeWord m a size) (a + 8) next

theorem sizeOf_putHeader {m : Mem} {a size next : ℕ} (h : size < usizeBound) :
    sizeOf (putHeader m a size next) a = size := by
  rw [sizeOf, putHeader, readWord_congr (writeWord_agreeOn _ _ _ _ _ (by omega)),
    readWord_writeWord_self m a size h]

theorem nextOf_putHeader {m : Mem} {a size next : ℕ} (h : next < usizeBound) :
    nextOf (putHeader m a size next) a = next := by
  rw [nextOf, putHeader, readWord_writeWord_self _ _ _ h]

theorem putHeader_other {m : Mem} {a b size next : ℕ} (h : b + 16 ≤ a ∨ a + 16 ≤ b) :
    SameHeader m (putHeader m a size next) b := by
  refine .of_agree fun c hb hc => ?_
  rw [putHeader, writeWord_agreeOn _ (a + 8) next b 16 (by omega) c hb hc,
    writeWord_agreeOn m a size b 16 (by omega) c hb hc]

theorem writeWord_next {m : Mem} {a v : ℕ} (hv : v < usizeBound) :
    sizeOf (writeWord m (a + 8) v) a = sizeOf m a ∧ nextOf (writeWord m (a + 8) v) a = v := by
  refine ⟨?_, readWord_writeWord_self m (a + 8) v hv⟩
  exact readWord_congr (writeWord_agreeOn _ _ _ _ _ (by omega))

theorem writeWord_other {m : Mem} {a b v : ℕ} (h : b + 16 ≤ a ∨ a + 8 ≤ b) :
    SameHeader m (writeWord m a v) b := .of_agree (writeWord_agreeOn _ _ _ _ _ h)

/-! ## The search loop -/

/-- The address of the last block, or `prev` if there is none. -/
def lastAddr (prev : ℕ) : List Span → ℕ
  | [] => prev
  | b :: l => lastAddr b.addr l

theorem lastAddr_snoc (prev : ℕ) (l : List Span) (b : Span) :
    lastAddr prev (l ++ [b]) = b.addr := by
  induction l generalizing prev with
  | nil => rfl
  | cons c l ih => exact ih c.addr

/-- The loop stops between the blocks below `addr` and the others. -/
theorem seek_eq {m : Mem} {addr : ℕ} {l r : List Span} (hl : ∀ b ∈ l, b.addr < addr)
    (hr : ∀ b ∈ r, addr ≤ b.addr) {n prev p : ℕ} (hn : l.length < n)
    (hc : Chain m p (l ++ r) 0) :
    seek m addr n prev p = some (lastAddr prev l, headAddr r 0) := by
  induction l generalizing n prev p with
  | nil =>
      obtain ⟨n, rfl⟩ : ∃ k, n = k + 1 := ⟨n - 1, by simp only [List.length_nil] at hn; omega⟩
      have hp := hc.head
      rw [List.nil_append] at hp
      have hstop : ¬ (p ≠ 0 ∧ p < addr) := by
        rintro ⟨h0, hlt⟩
        cases r with
        | nil => exact h0 hp
        | cons c r =>
            have := hr c (by simp)
            simp only [headAddr] at hp
            omega
      rw [seek, if_neg hstop, hp]
      rfl
  | cons b l ih =>
      obtain ⟨n, rfl⟩ : ∃ k, n = k + 1 := ⟨n - 1, by simp only [List.length_cons] at hn; omega⟩
      obtain ⟨hp, h0, -, hrest⟩ := hc
      have hlt := hl b (by simp)
      rw [seek, if_pos ⟨h0, hp ▸ hlt⟩, ih (fun c hc => hl c (by simp [hc]))
        (by simp only [List.length_cons] at hn; omega) hrest, hp]
      rfl

/-! ## Insertion -/

/-- A block of the heap: 16-byte granules of memory. -/
structure Block (b : Span) : Prop where
  addr16 : b.addr % 16 = 0
  size16 : b.size % 16 = 0
  pos : 0 < b.size
  low : 0 < b.addr
  high : b.stop ≤ ramEnd

theorem Block.size_ge {b : Span} (h : Block b) : 16 ≤ b.size := by
  have := h.size16
  have := h.pos
  omega

theorem Block.bound {b : Span} (h : Block b) : b.addr + b.size < 2 ^ 32 := by
  have := h.high
  simp only [Span.stop, ramEnd, ramStart, ramSize] at this
  omega

theorem Block.merge {a c : Span} (h : a.stop = c.addr) (ha : Block a) (hc : Block c) :
    Block ⟨a.addr, a.size + c.size⟩ := by
  have h1 := ha.size16
  have h2 := hc.size16
  have h3 := ha.pos
  have h4 := hc.high
  simp only [Span.stop] at *
  refine ⟨ha.addr16, ?_, ?_, ha.low, ?_⟩ <;> simp only [Span.stop] <;> omega

@[simp] theorem wp_heapAdd {a b : ℕ} {h : FreeList} {Q : ℕ → FreeList → Prop}
    (hlt : a + b < 2 ^ 64) : Prog.Wp (heapAdd a b) h Q Prog.Never ↔ Q (a + b) h := by
  have : (checkedAdd a b).mapError HeapStop.fault = .ok (a + b) := by
    rw [checkedAdd, if_pos hlt]
    rfl
  rw [heapAdd, this, Prog.wp_ofExcept]

theorem wp_setSize {b v : ℕ} {h : FreeList} {Q : Unit → FreeList → Prop} :
    Prog.Wp (setSize b v) h Q Prog.Never ↔ Q () { h with mem := writeWord h.mem b v } :=
  Prog.wp_modify

theorem wp_setNext {b v : ℕ} {h : FreeList} {Q : Unit → FreeList → Prop} :
    Prog.Wp (setNext b v) h Q Prog.Never ↔ Q () { h with mem := writeWord h.mem (b + 8) v } :=
  Prog.wp_modify

/-- Only the header of the block at `a` may differ. -/
def OnlyHeader (m m' : Mem) (a : ℕ) : Prop :=
  ∀ b, b + 16 ≤ a ∨ a + 16 ≤ b → SameHeader m m' b

theorem OnlyHeader.refl (m : Mem) (a : ℕ) : OnlyHeader m m a := fun _ _ => ⟨rfl, rfl⟩

theorem putHeader_only (m : Mem) (a size next : ℕ) : OnlyHeader m (putHeader m a size next) a :=
  fun _ h => putHeader_other h

/-- The new block heads the chain of the blocks behind it, merged with the first
of them if they touch. -/
theorem mergeForward_spec {h : FreeList} {s : Span} {r : List Span} (hs : Block s)
    (hr : ∀ b ∈ r, Block b) (hap : ∀ b ∈ r, s.stop ≤ b.addr)
    (hc : Chain h.mem s.addr (s :: r) 0) :
    Prog.Wp (FreeList.mergeForward s.addr s.size (headAddr r 0)) h
      (fun _ h' => h'.head = h.head ∧ Chain h'.mem s.addr (mergeFront s r) 0 ∧
        OnlyHeader h.mem h'.mem s.addr) Prog.Never := by
  have hhigh := hs.bound
  simp only [Span.stop] at hap
  unfold FreeList.mergeForward
  cases r with
  | nil =>
      rw [headAddr, if_neg (by simp)]
      exact Prog.wp_pure.mpr ⟨rfl, hc, .refl _ _⟩
  | cons c r =>
      have hcb := hr c (by simp)
      have hchigh := hcb.bound
      have hsc := hap c (by simp)
      rw [headAddr, if_pos (by have := hcb.low; omega), Prog.wp_bind, wp_heapAdd (by omega)]
      obtain ⟨-, hne, hsz, hcc⟩ := hc
      have hcaddr := hcc.head
      obtain ⟨-, hcne, hcsz, hrest⟩ := hcc
      rw [hcaddr, headAddr] at hrest hcsz
      by_cases ht : s.addr + s.size = c.addr
      · rw [if_pos ht, Prog.wp_bind, Prog.wp_get, Prog.wp_bind, hsz, hcsz,
          wp_heapAdd (by omega), Prog.wp_bind, wp_setSize, wp_setNext]
        have hnextlt : nextOf h.mem c.addr < usizeBound := readWord_lt _ _
        have hlt : s.size + c.size < 2 ^ 64 := by omega
        refine ⟨rfl, ?_, putHeader_only h.mem s.addr (s.size + c.size) _⟩
        rw [mergeFront, Span.stop, if_pos ht]
        refine ⟨rfl, hne, sizeOf_putHeader hlt, ?_⟩
        change Chain (putHeader h.mem s.addr (s.size + c.size) (nextOf h.mem c.addr))
          (nextOf (putHeader h.mem s.addr (s.size + c.size) (nextOf h.mem c.addr)) s.addr) r 0
        rw [nextOf_putHeader hnextlt]
        refine hrest.congr fun b hb => putHeader_other ?_
        have := hap b (by simp [hb])
        have := hs.size_ge
        omega
      · rw [if_neg ht]
        refine Prog.wp_pure.mpr ⟨rfl, ?_, .refl _ _⟩
        rw [mergeFront, Span.stop, if_neg ht]
        refine ⟨rfl, hne, hsz, ?_⟩
        rw [hcaddr, headAddr]
        exact ⟨rfl, by rw [hcaddr, headAddr] at hcne; exact hcne, hcsz, hrest⟩

/-- Hanging the block at `a` behind the last block of a chain: the header of that
block is the only one that changes. -/
theorem linkBehind_spec {h : FreeList} {l r : List Span} {p : Span} {a n c : ℕ}
    (hp : Block p) (hl : ∀ b ∈ l, b.addr + 16 ≤ p.addr) (hr : ∀ b ∈ r, p.addr + 16 ≤ b.addr)
    (ha : p.stop ≤ a) (hn : a + n < 2 ^ 32) (hc : Chain h.mem h.head (l ++ [p]) c)
    (hcr : Chain h.mem a (⟨a, n⟩ :: r) 0) :
    Prog.Wp (FreeList.linkBehind p.addr a) h
      (fun _ h' => Chain h'.mem h'.head
        (l ++ if p.stop = a then ⟨p.addr, p.size + n⟩ :: r else p :: ⟨a, n⟩ :: r) 0)
      Prog.Never := by
  obtain ⟨-, hcl, rfl, hp0, hpsz, -⟩ := chain_append.mp hc
  obtain ⟨-, ha0, hnsz, hrest⟩ := hcr
  change sizeOf h.mem a = n at hnsz
  have hbound := hp.bound
  have hge := hp.size_ge
  simp only [Span.stop] at ha
  -- blocks in front of `p` and behind it keep their headers
  have hfront {m' : Mem} (hm : OnlyHeader h.mem m' p.addr) : Chain m' h.head l p.addr :=
    hcl.congr fun b hb => hm b.addr (.inl (hl b hb))
  have hback {m' : Mem} (hm : OnlyHeader h.mem m' p.addr) : Chain m' (nextOf h.mem a) r 0 :=
    hrest.congr fun b hb => hm b.addr (.inr (hr b hb))
  unfold FreeList.linkBehind
  rw [if_neg hp0, Prog.wp_bind, Prog.wp_get, Prog.wp_bind, hpsz, wp_heapAdd (by omega)]
  by_cases ht : p.stop = a
  · simp only [if_pos ht]
    rw [if_pos (show p.addr + p.size = a from ht), Prog.wp_bind, hnsz, wp_heapAdd (by omega),
      Prog.wp_bind, wp_setSize, wp_setNext]
    have hnextlt : nextOf h.mem a < usizeBound := readWord_lt _ _
    have hlt : p.size + n < 2 ^ 64 := by omega
    have hm := putHeader_only h.mem p.addr (p.size + n) (nextOf h.mem a)
    change Chain (putHeader h.mem p.addr (p.size + n) (nextOf h.mem a)) h.head
      (l ++ ⟨p.addr, p.size + n⟩ :: r) 0
    refine chain_append.mpr ⟨p.addr, hfront hm, rfl, hp0, sizeOf_putHeader hlt, ?_⟩
    rw [nextOf_putHeader hnextlt]
    exact hback hm
  · simp only [if_neg ht]
    rw [if_neg (show ¬ p.addr + p.size = a from ht), wp_setNext]
    have hw := writeWord_next (m := h.mem) (a := p.addr) (v := a)
      (lt_trans (b := 2 ^ 32) (by omega) (by norm_num))
    have hm : OnlyHeader h.mem (writeWord h.mem (p.addr + 8) a) p.addr :=
      fun b hb => writeWord_other (by omega)
    refine chain_append.mpr ⟨p.addr, hfront hm, rfl, hp0, hw.1.trans hpsz, ?_⟩
    have hsame := hm a (.inr (by omega))
    rw [hw.2]
    refine ⟨rfl, ha0, hsame.1.trans hnsz, ?_⟩
    rw [hsame.2]
    exact hback hm

/-- A coalesced list splits at any address. -/
theorem spaced_split {l : List Span} (hl : Spaced l) (hpos : ∀ b ∈ l, 0 < b.size) (a : ℕ) :
    ∃ l₁ r, l = l₁ ++ r ∧ (∀ b ∈ l₁, b.addr < a) ∧ ∀ b ∈ r, a ≤ b.addr := by
  induction l with
  | nil => exact ⟨[], [], rfl, nofun, nofun⟩
  | cons b l ih =>
      obtain ⟨hb, hl'⟩ := List.pairwise_cons.mp hl
      by_cases hlt : b.addr < a
      · obtain ⟨l₁, r, rfl, h1, h2⟩ := ih hl' fun c hc => hpos c (by simp [hc])
        exact ⟨b :: l₁, r, rfl, by simpa using ⟨hlt, h1⟩, h2⟩
      · refine ⟨[], b :: l, rfl, nofun, fun c hc => ?_⟩
        obtain rfl | hc := List.mem_cons.mp hc
        · omega
        · have := hb c hc
          simp only [Span.Before, Span.stop] at this
          omega

/-- Blocks of a coalesced list are fewer than the addresses below its end. -/
theorem spaced_length {l : List Span} (hl : Spaced l) {a z : ℕ}
    (hb : ∀ b ∈ l, a ≤ b.addr ∧ b.addr < z) : l.length ≤ z - a := by
  induction l generalizing a with
  | nil => simp
  | cons b l ih =>
      obtain ⟨hbl, hl'⟩ := List.pairwise_cons.mp hl
      have h0 := hb b (by simp)
      have hrest := ih hl' (a := a + 1) fun c hc => by
        have h1 := hbl c hc
        have h2 := hb c (by simp [hc])
        simp only [Span.Before, Span.stop] at h1
        omega
      simp only [List.length_cons]
      omega

/-- What the allocator knows of its free list. -/
structure FreeOk (h : FreeList) (l : List Span) : Prop where
  chain : Chain h.mem h.head l 0
  spaced : Spaced l
  block : ∀ b ∈ l, Block b

theorem FreeOk.length {h : FreeList} {l : List Span} (hf : FreeOk h l) : l.length < linkBound := by
  have := spaced_length hf.spaced (a := 0) (z := 2 ^ 32) fun b hb => by
    have := (hf.block b hb).bound
    omega
  rw [linkBound]
  exact lt_of_le_of_lt this (by norm_num)

/-- Insertion into the list in memory is insertion into the list of spans. -/
theorem insert_spec {h : FreeList} {l : List Span} {s : Span} (hf : FreeOk h l) (hs : Block s)
    (hap : ∀ b ∈ l, s.Apart b) :
    Prog.Wp (FreeList.insert s.addr s.size) h (fun _ h' => FreeOk h' (insertSpan s l))
      Prog.Never := by
  have hpos : ∀ b ∈ l, 0 < b.size := fun b hb => (hf.block b hb).pos
  suffices hchain : Prog.Wp (FreeList.insert s.addr s.size) h
      (fun _ h' => Chain h'.mem h'.head (insertSpan s l) 0) Prog.Never by
    refine hchain.mono (fun _ h' hc => ⟨hc, ?_, ?_⟩) fun _ => id
    · exact spaced_insertSpan hs.pos hf.spaced hpos hap
    · exact forall_insertSpan (fun a c h ha hc => .merge h ha hc) hs hf.block
  obtain ⟨l₁, r, rfl, hl₁, hr⟩ := spaced_split hf.spaced hpos s.addr
  have hlen : l₁.length < linkBound := by
    have := hf.length
    rw [List.length_append] at this
    omega
  have hseek : seek h.mem s.addr linkBound 0 h.head = some (lastAddr 0 l₁, headAddr r 0) :=
    seek_eq hl₁ hr hlen hf.chain
  -- the blocks behind start where the new one ends, or later
  have hrs : ∀ b ∈ r, s.stop ≤ b.addr := fun b hb => by
    have h1 := hr b hb
    have h2 := hap b (by simp [hb])
    have h3 := hpos b (by simp [hb])
    simp only [Span.Apart, Span.stop] at *
    omega
  have hls : ∀ b ∈ l₁, b.stop ≤ s.addr := fun b hb => by
    have h1 := hl₁ b hb
    have h2 := hap b (by simp [hb])
    have h3 := hs.pos
    simp only [Span.Apart, Span.stop] at *
    omega
  have hblr : ∀ b ∈ r, Block b := fun b hb => hf.block b (by simp [hb])
  have hbll : ∀ b ∈ l₁, Block b := fun b hb => hf.block b (by simp [hb])
  have hsize := hs.size_ge
  have hbound := hs.bound
  have hcurlt : headAddr r 0 < 2 ^ 64 := by
    cases r with
    | nil => simp [headAddr]
    | cons c r =>
        have := (hblr c (by simp)).bound
        simp only [headAddr]
        omega
  unfold FreeList.insert
  rw [Prog.wp_bind, Prog.wp_get, hseek]
  dsimp only
  rw [Prog.wp_bind, wp_setSize, Prog.wp_bind, wp_setNext]
  obtain ⟨m₁, hm₁⟩ : ∃ m, m = putHeader h.mem s.addr s.size (headAddr r 0) := ⟨_, rfl⟩
  have honly : OnlyHeader h.mem m₁ s.addr := hm₁ ▸ putHeader_only _ _ _ _
  obtain ⟨c, hcl, hcr⟩ := chain_append.mp hf.chain
  have hcsr : Chain m₁ s.addr (s :: r) 0 := by
    refine ⟨rfl, by have := hs.low; omega, ?_, ?_⟩
    · rw [hm₁, sizeOf_putHeader (lt_trans (b := 2 ^ 32) (by omega) (by norm_num))]
    · have hnext : nextOf m₁ s.addr = c := by
        rw [hm₁, nextOf_putHeader hcurlt, hcr.head]
      rw [hnext]
      refine hcr.congr fun b hb => honly b.addr (.inr ?_)
      have := hrs b hb
      simp only [Span.stop] at this
      omega
  have hcl₁ : Chain m₁ h.head l₁ c := hcl.congr fun b hb => honly b.addr (.inl (by
    have h1 := hls b hb
    have h2 := (hbll b hb).size_ge
    simp only [Span.stop] at h1
    omega))
  rw [show writeWord (writeWord h.mem s.addr s.size) (s.addr + 8) (headAddr r 0) = m₁ from
    hm₁.symm]
  refine (mergeForward_spec (h := ⟨m₁, h.head⟩) hs hblr hrs hcsr).bind fun _ h₂ hmerged => ?_
  obtain ⟨hhead, hc₂, honly₂⟩ := hmerged
  -- the state of the list in front of the new block
  have hcl₂ : Chain h₂.mem h₂.head l₁ c := by
    rw [hhead]
    refine hcl₁.congr fun b hb => honly₂ b.addr (.inl ?_)
    have h1 := hls b hb
    have h2 := (hbll b hb).size_ge
    simp only [Span.stop] at h1
    omega
  obtain ⟨n, r', hmerge, hn, hsuf, hback⟩ := mergeFront_cons s r
  obtain rfl | ⟨l', p, rfl⟩ := List.eq_nil_or_concat l₁
  · -- no block in front: the new block is the head of the list
    rw [FreeList.linkBehind, lastAddr, if_pos rfl]
    simp only [List.nil_append, insertSpan_front hr]
    exact Prog.wp_modify.mpr hc₂
  · rw [List.concat_eq_append] at *
    have hp := hbll p (by simp)
    have hps := hls p (by simp)
    have hsp : Spaced (l' ++ [p]) := (List.pairwise_append.mp hf.spaced).1
    have hl' : ∀ b ∈ l', b.stop < p.addr := fun b hb =>
      (List.pairwise_append.mp hsp).2.2 b hb p (by simp)
    have hnb : s.addr + n < 2 ^ 32 := by
      have hall := forall_insertSpan (fun a c h ha hc => Block.merge h ha hc) hs hblr
      rw [insertSpan_front hr, hmerge] at hall
      exact (hall ⟨s.addr, n⟩ (by simp)).bound
    have hins : insertSpan s (l' ++ [p] ++ r) = l' ++ if p.stop = s.addr then
        ⟨p.addr, p.size + n⟩ :: r' else p :: ⟨s.addr, n⟩ :: r' := by
      rw [List.append_assoc, insertSpan_append fun b hb => ?_, List.singleton_append, insertSpan,
        if_pos (hl₁ p (by simp))]
      · congr 1
        by_cases ht : p.stop = s.addr
        · rw [if_pos ht, if_pos ht, hback _ ?_]
          · simp only [List.cons.injEq, Span.mk.injEq, true_and, and_true]
            omega
          · simp only [Span.stop] at *
            omega
        · rw [if_neg ht, if_neg ht, insertSpan_front hr, hmerge]
      · have h1 := hl' b hb
        have h2 := hl₁ p (by simp)
        simp only [Span.stop] at *
        omega
    rw [hins, lastAddr_snoc]
    rw [hmerge] at hc₂
    refine linkBehind_spec hp (fun b hb => ?_) (fun b hb => ?_) hps hnb hcl₂ hc₂
    · have h1 := hl' b hb
      have h2 := (hbll b (by simp [hb])).size_ge
      simp only [Span.stop] at h1
      omega
    · have h1 := hrs b (hsuf.subset hb)
      have h2 := hp.size_ge
      simp only [Span.stop] at *
      omega

/-! ## Taking a block -/

/-- Unlinking a block leaves the others, unchanged. -/
theorem unlink_spec {h : FreeList} {l r : List Span} {b : Span} (hf : FreeOk h (l ++ b :: r)) :
    Prog.Wp (FreeList.unlink (lastAddr 0 l) (nextOf h.mem b.addr)) h
      (fun _ h' => FreeOk h' (l ++ r)) Prog.Never := by
  have hsub : (l ++ r).Sublist (l ++ b :: r) := (List.sublist_cons_self b r).append_left l
  suffices hchain : Prog.Wp (FreeList.unlink (lastAddr 0 l) (nextOf h.mem b.addr)) h
      (fun _ h' => Chain h'.mem h'.head (l ++ r) 0) Prog.Never by
    refine hchain.mono (fun _ h' hc => ⟨hc, hf.spaced.sublist hsub, ?_⟩) fun _ => id
    exact fun c hc => hf.block c (hsub.subset hc)
  obtain ⟨-, hcl, rfl, -, -, hcr⟩ := chain_append.mp hf.chain
  obtain rfl | ⟨l', p, rfl⟩ := List.eq_nil_or_concat l
  · rw [lastAddr, FreeList.unlink, if_pos rfl]
    exact Prog.wp_modify.mpr hcr
  · rw [List.concat_eq_append] at *
    have hp := hf.block p (by simp)
    have hpos := hp.low
    have hge := hp.size_ge
    rw [lastAddr_snoc, FreeList.unlink, if_neg (by omega), wp_setNext]
    obtain ⟨-, hcl', rfl, hp0, hpsz, -⟩ := chain_append.mp hcl
    have hw := writeWord_next (m := h.mem) (a := p.addr) (v := nextOf h.mem b.addr)
      (readWord_lt _ _)
    have hother {c : Span} (hc : c.addr + 16 ≤ p.addr ∨ p.addr + 16 ≤ c.addr) :
        SameHeader h.mem (writeWord h.mem (p.addr + 8) (nextOf h.mem b.addr)) c.addr :=
      writeWord_other (by omega)
    have hsp := List.pairwise_append.mp hf.spaced
    rw [List.append_assoc]
    refine chain_append.mpr ⟨p.addr, ?_, rfl, hp0, hw.1.trans hpsz, ?_⟩
    · refine hcl'.congr fun c hc => hother (.inl ?_)
      have h1 := (List.pairwise_append.mp hsp.1).2.2 c hc p (by simp)
      have h2 := (hf.block c (by simp [hc])).size_ge
      simp only [Span.Before, Span.stop] at h1
      omega
    · rw [hw.2]
      refine hcr.congr fun c hc => hother (.inr ?_)
      have h1 := hsp.2.2 p (by simp) c (by simp [hc])
      simp only [Span.Before, Span.stop] at h1
      omega

/-- Nothing is covered by an empty span. -/
theorem covers_empty {l : List Span} {a n : ℕ} (hn : ¬ n > 0) (x : ℕ) :
    Covers l x ↔ Span.Has ⟨a, n⟩ x ∨ Covers l x := by
  have : ¬ Span.Has ⟨a, n⟩ x := by
    simp only [Span.Has, Span.stop]
    omega
  tauto

/-- What giving back the span from `a` to `a + n` does to the free list. -/
def GivenBack (l : List Span) (a n : ℕ) (h : FreeList) : Prop :=
  ∃ l', FreeOk h l' ∧ ∀ x, Covers l' x ↔ Span.Has ⟨a, n⟩ x ∨ Covers l x

theorem givePad_spec {h : FreeList} {l : List Span} {a n : ℕ} (hf : FreeOk h l)
    (hs : 0 < n → Block ⟨a, n⟩) (hap : 0 < n → ∀ b ∈ l, Span.Apart ⟨a, n⟩ b) :
    Prog.Wp (FreeList.givePad a n) h (fun _ h' => GivenBack l a n h') Prog.Never := by
  unfold FreeList.givePad
  by_cases hn : n > 0
  · rw [if_pos hn]
    refine (insert_spec hf (hs hn) (hap hn)).mono (fun _ h' hf' => ?_) fun _ => id
    exact ⟨_, hf', covers_insertSpan _ _⟩
  · rw [if_neg hn]
    exact Prog.wp_pure.mpr ⟨l, hf, covers_empty hn⟩

theorem giveTail_spec {h : FreeList} {l : List Span} {a k n : ℕ} (hf : FreeOk h l)
    (hlt : a + k < 2 ^ 64) (hs : 0 < n → Block ⟨a + k, n⟩)
    (hap : 0 < n → ∀ b ∈ l, Span.Apart ⟨a + k, n⟩ b) :
    Prog.Wp (FreeList.giveTail a k n) h (fun _ h' => GivenBack l (a + k) n h') Prog.Never := by
  unfold FreeList.giveTail
  by_cases hn : n > 0
  · rw [if_pos hn, Prog.wp_bind, wp_heapAdd hlt]
    refine (insert_spec hf (hs hn) (hap hn)).mono (fun _ h' hf' => ?_) fun _ => id
    exact ⟨_, hf', covers_insertSpan _ _⟩
  · rw [if_neg hn]
    exact Prog.wp_pure.mpr ⟨l, hf, covers_empty hn⟩

/-- A list of blocks from which `s` has been taken. -/
structure Taken (l l' : List Span) (s : Span) : Prop where
  block : Block s
  apart : ∀ b ∈ l', s.Apart b
  exact : ∀ x, Covers l x ↔ s.Has x ∨ Covers l' x

/-- Carving a block: padding and tail go back, the middle is taken. -/
theorem carve_spec {h : FreeList} {l r : List Span} {b : Span} {aligned pad size : ℕ}
    (hf : FreeOk h (l ++ b :: r)) (ha : aligned = b.addr + pad) (hp16 : pad % 16 = 0)
    (hs16 : size % 16 = 0) (hspos : 0 < size) (hfit : pad + size ≤ b.size) :
    Prog.Wp (FreeList.carve (lastAddr 0 l) b.addr aligned pad size) h
      (fun p h' => p = aligned ∧ ∃ l', FreeOk h' l' ∧ Taken (l ++ b :: r) l' ⟨aligned, size⟩)
      Prog.Never := by
  obtain ⟨c, -, hca, -, hbsz, -⟩ := chain_append.mp hf.chain
  subst hca
  have hb := hf.block b (by simp)
  have hbound := hb.bound
  have hhigh := hb.high
  simp only [Span.stop] at hhigh
  obtain ⟨hlr, hbr, hlb⟩ := List.pairwise_append.mp hf.spaced
  -- every other block is apart from `b`, hence from every part of it
  have hpart {a n : ℕ} (h1 : b.addr ≤ a) (h2 : a + n ≤ b.addr + b.size) :
      ∀ c ∈ l ++ r, Span.Apart ⟨a, n⟩ c := by
    intro c hc
    simp only [Span.Apart, Span.stop]
    obtain hc | hc := List.mem_append.mp hc
    · have := hlb c hc b (by simp)
      simp only [Span.Before, Span.stop] at this
      omega
    · have := (List.pairwise_cons.mp hbr).1 c hc
      simp only [Span.Before, Span.stop] at this
      omega
  have hblock {a n : ℕ} (h0 : 0 < n) (h1 : b.addr ≤ a) (h2 : a + n ≤ b.addr + b.size)
      (h3 : a % 16 = 0) (h4 : n % 16 = 0) : Block ⟨a, n⟩ :=
    ⟨h3, h4, h0, by have := hb.low; simp only; omega, by simp only [Span.stop]; omega⟩
  have hb16 := hb.addr16
  have hbs16 := hb.size16
  -- `s` is apart from a list whose addresses are those of another list or in `t`
  have hapart {s t : Span} {l₁ l₂ : List Span} {h₂ : FreeList} (hf₂ : FreeOk h₂ l₂)
      (hs : 0 < s.size) (hcov : ∀ x, Covers l₂ x ↔ t.Has x ∨ Covers l₁ x) (hst : s.Apart t)
      (hl₁ : ∀ c ∈ l₁, s.Apart c) : ∀ c ∈ l₂, s.Apart c := by
    intro c hc
    refine Span.apart_of_disjoint hs (hf₂.block c hc).pos fun x hx hcx => ?_
    obtain htx | ⟨d, hd, hdx⟩ := (hcov x).mp ⟨c, hc, hcx⟩
    · exact hst.disjoint hx htx
    · exact (hl₁ d hd).disjoint hx hdx
  have hpadm : Span.Apart ⟨aligned, size⟩ ⟨b.addr, pad⟩ := .inr (by simp only [Span.stop]; omega)
  unfold FreeList.carve
  rw [Prog.wp_bind, Prog.wp_get, hbsz]
  dsimp only
  obtain ⟨tail, ht⟩ : ∃ t, t = b.size - pad - size := ⟨_, rfl⟩
  rw [← ht]
  refine (unlink_spec hf).bind fun _ h₁ hf₁ => ?_
  refine (givePad_spec hf₁ (fun h0 => hblock h0 le_rfl (by omega) hb16 hp16)
    fun _ => hpart le_rfl (by omega)).bind fun _ h₂ hpad => ?_
  obtain ⟨l₂, hf₂, hcov₂⟩ := hpad
  refine (giveTail_spec hf₂ (by omega) (fun h0 => hblock h0 (by omega) (by omega) (by omega)
    (by omega)) fun h0 => ?_).bind fun _ h₃ htail => ?_
  · refine hapart hf₂ h0 hcov₂ (.inr (by simp only [Span.stop]; omega)) (hpart ?_ ?_) <;> omega
  · obtain ⟨l₃, hf₃, hcov₃⟩ := htail
    refine Prog.wp_pure.mpr ⟨rfl, l₃, hf₃, hblock hspos ?_ ?_ ?_ hs16, ?_, fun x => ?_⟩
    · omega
    · omega
    · omega
    · refine hapart hf₃ hspos hcov₃ (.inl (by simp only [Span.stop]; omega)) ?_
      exact hapart hf₂ hspos hcov₂ hpadm (hpart (by omega) (by omega))
    · have hbx : b.Has x ↔ Span.Has ⟨b.addr, pad⟩ x ∨ Span.Has ⟨aligned, size⟩ x ∨
          Span.Has ⟨aligned + size, tail⟩ x := by
        simp only [Span.Has, Span.stop]
        omega
      rw [hcov₃, hcov₂, covers_append, covers_cons, covers_append, hbx]
      simp only [or_assoc, or_comm, or_left_comm]

/-- What an allocation asks for: whole granules at a multiple of the granule. -/
structure Request (size align : ℕ) : Prop where
  size16 : size % 16 = 0
  pos : 0 < size
  align16 : align % 16 = 0
  alignPos : 0 < align
  small : size + align ≤ 2 ^ 63 + 64

/-- The outcomes of a search: nothing fits, or a block is taken at an aligned
address. -/
def Served (l : List Span) (h : FreeList) (size align p : ℕ) (h' : FreeList) : Prop :=
  (p = 0 ∧ h' = h) ∨ ∃ l', FreeOk h' l' ∧ Taken l l' ⟨p, size⟩ ∧ align ∣ p

/-- Rounding up to a multiple of the alignment. -/
theorem alignUp {a align : ℕ} (ha : a % 16 = 0) (h16 : align % 16 = 0) (hpos : 0 < align) :
    ∃ pad, (a + align - 1) / align * align = a + pad ∧ pad < align ∧ pad % 16 = 0 := by
  obtain ⟨k, rfl⟩ : ∃ k, align = 16 * k := ⟨align / 16, by omega⟩
  have hdiv := Nat.div_add_mod (a + 16 * k - 1) (16 * k)
  have hmod := Nat.mod_lt (a + 16 * k - 1) hpos
  obtain ⟨q, hq⟩ : ∃ q, q = (a + 16 * k - 1) / (16 * k) := ⟨_, rfl⟩
  rw [← hq] at hdiv ⊢
  have hqk : q * (16 * k) = 16 * (q * k) := by ring
  have hkq : 16 * k * q = 16 * (q * k) := by ring
  rw [hkq] at hdiv
  refine ⟨q * (16 * k) - a, ?_, ?_, ?_⟩ <;> omega

/-- The span holds `size` bytes at a multiple of `align`. -/
def Fits (size align : ℕ) (b : Span) : Prop := ∃ a, align ∣ a ∧ b.addr ≤ a ∧ a + size ≤ b.stop

/-- The first multiple of the alignment in a span decides whether the span is large enough. -/
theorem fits_iff {b : Span} {size align pad : ℕ} (hdvd : align ∣ b.addr + pad)
    (hpad : pad < align) : Fits size align b ↔ pad + size ≤ b.size := by
  constructor
  · rintro ⟨a, ha, hba, has⟩
    have hle : b.addr + pad ≤ a := by
      by_contra hlt
      have hsub := Nat.le_of_dvd (by omega) (Nat.dvd_sub hdvd ha)
      omega
    simp only [Span.stop] at has
    omega
  · intro h
    exact ⟨b.addr + pad, hdvd, by omega, by simp only [Span.stop]; omega⟩

/-- One round of the search: a block that is large enough is carved, any other is passed over. -/
theorem takeLoop_block {h : FreeList} {l r : List Span} {b : Span} {size align pad : ℕ}
    (hr : Request size align) (hf : FreeOk h (l ++ b :: r))
    (hpad : (b.addr + align - 1) / align * align = b.addr + pad) (hplt : pad < align) (n : ℕ)
    {Q : ℕ → FreeList → Prop} :
    Prog.Wp (FreeList.takeLoop size align (n + 1) (lastAddr 0 l) b.addr) h Q Prog.Never ↔
      if pad + size ≤ b.size then
        Prog.Wp (FreeList.carve (lastAddr 0 l) b.addr (b.addr + pad) pad size) h Q Prog.Never
      else Prog.Wp (FreeList.takeLoop size align n b.addr (headAddr r 0)) h Q Prog.Never := by
  have hsmall := hr.small
  have hb := hf.block b (by simp)
  have hlow := hb.low
  have hbound := hb.bound
  obtain ⟨-, -, rfl, -, hsz, hnext⟩ := chain_append.mp hf.chain
  rw [FreeList.takeLoop, if_neg (by omega), Prog.wp_bind, wp_heapAdd (by omega)]
  dsimp only
  rw [Prog.wp_bind, Prog.wp_get, hpad, Nat.add_sub_cancel_left, Prog.wp_bind,
    wp_heapAdd (by omega), hsz, hnext.head]
  split_ifs <;> rfl

theorem takeLoop_spec {h : FreeList} {size align : ℕ} (hr : Request size align)
    {r : List Span} :
    ∀ {l : List Span} {n : ℕ}, FreeOk h (l ++ r) → r.length < n →
      Prog.Wp (FreeList.takeLoop size align n (lastAddr 0 l) (headAddr r 0)) h
        (fun p h' => Served (l ++ r) h size align p h' ∧ (p = 0 → ∀ b ∈ r, ¬ Fits size align b))
        Prog.Never := by
  induction r with
  | nil =>
      intro l n hf hn
      obtain ⟨n, rfl⟩ : ∃ k, n = k + 1 := ⟨n - 1, by simp only [List.length_nil] at hn; omega⟩
      rw [FreeList.takeLoop, headAddr, if_pos rfl]
      exact Prog.wp_pure.mpr ⟨.inl ⟨rfl, rfl⟩, fun _ => nofun⟩
  | cons b r ih =>
      intro l n hf hn
      obtain ⟨n, rfl⟩ : ∃ k, n = k + 1 := ⟨n - 1, by simp only [List.length_cons] at hn; omega⟩
      have hb := hf.block b (by simp)
      have hlow := hb.low
      obtain ⟨pad, hpad, hplt, hp16⟩ := alignUp hb.addr16 hr.align16 hr.alignPos
      have hdvd : align ∣ b.addr + pad := hpad ▸ Dvd.intro_left _ rfl
      rw [headAddr, takeLoop_block hr hf hpad hplt]
      by_cases hfit : pad + size ≤ b.size
      · rw [if_pos hfit]
        refine (carve_spec hf rfl hp16 hr.size16 hr.pos hfit).mono (fun p h' hc => ?_)
          fun _ => id
        obtain ⟨rfl, l', hf', ht⟩ := hc
        exact ⟨.inr ⟨l', hf', ht, hdvd⟩, fun h0 => by omega⟩
      · rw [if_neg hfit]
        have hstep := ih (l := l ++ [b]) (n := n) (by simpa using hf)
          (by simp only [List.length_cons] at hn; omega)
        rw [lastAddr_snoc, List.append_assoc, List.singleton_append] at hstep
        refine hstep.mono (fun p h' hp => ⟨hp.1, fun h0 c hc => ?_⟩) fun _ => id
        obtain rfl | hc := List.mem_cons.mp hc
        · rwa [fits_iff hdvd hplt]
        · exact hp.2 h0 c hc

/-- What is left when a part of the first block was taken. -/
theorem Taken.front {h h' : FreeList} {b : Span} {r l' : List Span} {pad size : ℕ}
    (hf : FreeOk h (b :: r)) (hf' : FreeOk h' l') (ht : Taken (b :: r) l' ⟨b.addr + pad, size⟩)
    (hfit : pad + size ≤ b.size) : l' = cutFront b pad size r := by
  refine hf'.spaced.unique (spaced_cutFront hf.spaced ht.block.pos hfit)
    (fun c hc => (hf'.block c hc).pos) (pos_cutFront fun c hc => (hf.block c (by simp [hc])).pos)
    fun x => ?_
  rw [covers_cutFront hf.spaced hfit, ht.exact]
  constructor
  · intro hx
    obtain ⟨c, hc, hcx⟩ := hx
    exact ⟨.inr ⟨c, hc, hcx⟩, fun hs => (ht.apart c hc).disjoint hs hcx⟩
  · rintro ⟨hs | hx, hno⟩
    · exact absurd hs hno
    · exact hx

/-- First fit: the first block is carved if it is large enough. -/
theorem take_front {h : FreeList} {b : Span} {r : List Span} {size align pad : ℕ}
    (hr : Request size align) (hf : FreeOk h (b :: r))
    (hpad : (b.addr + align - 1) / align * align = b.addr + pad) (hfit : pad + size ≤ b.size) :
    Prog.Wp (FreeList.take size align) h (fun p h' => p = b.addr + pad ∧
      FreeOk h' (cutFront b pad size r) ∧ Taken (b :: r) (cutFront b pad size r) ⟨p, size⟩)
      Prog.Never := by
  have hb := hf.block b (by simp)
  obtain ⟨pad', hpad', hplt, hp16⟩ := alignUp hb.addr16 hr.align16 hr.alignPos
  obtain rfl : pad' = pad := by omega
  obtain ⟨n, hn⟩ : ∃ n, linkBound = n + 1 := ⟨linkBound - 1, by have := hf.length; omega⟩
  unfold FreeList.take
  rw [Prog.wp_bind, Prog.wp_get, hf.chain.head, hn]
  refine (takeLoop_block (l := []) hr hf hpad hplt n).mpr ?_
  rw [if_pos hfit]
  refine (carve_spec (l := []) hf rfl hp16 hr.size16 hr.pos hfit).mono (fun p h' hc => ?_)
    fun _ => id
  obtain ⟨rfl, l', hf', ht⟩ := hc
  obtain rfl := ht.front hf hf' hfit
  exact ⟨rfl, hf', ht⟩

/-- The search fails only if no block of the list is large enough. -/
theorem take_exact {h : FreeList} {l : List Span} {size align : ℕ} (hr : Request size align)
    (hf : FreeOk h l) :
    Prog.Wp (FreeList.take size align) h
      (fun p h' => Served l h size align p h' ∧ (p = 0 → ∀ b ∈ l, ¬ Fits size align b))
      Prog.Never := by
  unfold FreeList.take
  rw [Prog.wp_bind, Prog.wp_get, hf.chain.head]
  exact takeLoop_spec (l := []) hr hf hf.length

theorem take_spec {h : FreeList} {l : List Span} {size align : ℕ} (hr : Request size align)
    (hf : FreeOk h l) :
    Prog.Wp (FreeList.take size align) h (Served l h size align) Prog.Never :=
  (take_exact hr hf).mono (fun _ _ hp => hp.1) fun _ => id

theorem request (l : Layout) : Request (blockSize l) (max l.align minBlock) := by
  have hfits := l.fits
  have hpos : 0 < l.align := by
    obtain ⟨k, hk⟩ := l.pow
    rw [hk]
    exact Nat.two_pow_pos k
  have h16 : (max l.align 16) % 16 = 0 := by
    obtain ⟨k, hk⟩ := l.pow
    obtain hle | hlt := Nat.lt_or_ge 16 l.align
    · rw [max_eq_left hle.le, hk]
      have h4 : 4 ≤ k := by
        by_contra hk4
        have : 2 ^ k ≤ 2 ^ 4 := Nat.pow_le_pow_right (by norm_num) (by omega)
        omega
      exact Nat.mod_eq_zero_of_dvd (pow_dvd_pow 2 h4)
    · rw [max_eq_right hlt]
  refine ⟨?_, ?_, h16, by simp only [minBlock]; omega, ?_⟩
  · simp only [blockSize, minBlock]
    omega
  · simp only [blockSize, minBlock]
    omega
  · simp only [blockSize, minBlock]
    omega

/-- A power of two divides the alignment that the allocator uses for it. -/
theorem align_dvd (l : Layout) : l.align ∣ max l.align minBlock := by
  obtain ⟨k, hk⟩ := l.pow
  obtain hle | hlt := Nat.le_total l.align 16
  · rw [max_eq_right hle, hk]
    have h4 : k ≤ 4 := by
      by_contra hk4
      have : 2 ^ 5 ≤ 2 ^ k := Nat.pow_le_pow_right (by norm_num) (by omega)
      omega
    exact pow_dvd_pow 2 h4
  · rw [max_eq_left hlt]

/-! ## Runs of the allocator -/

/-- A live block and the layout it was allocated for. -/
structure Alloc where
  addr : ℕ
  layout : Layout
  deriving DecidableEq

def Alloc.span (a : Alloc) : Span := ⟨a.addr, blockSize a.layout⟩

/-- The allocator, the blocks it has handed out and the regions it has received. -/
structure HeapState where
  list : FreeList
  live : List Alloc
  donated : List Span

inductive HeapOp where
  | init (addr : ℕ)
  | alloc (l : Layout) (grown : Option ℕ)
  | dealloc (a : Alloc)
  /-- The owner of a live block stores a byte in it. -/
  | store (x : ℕ) (b : UInt8)

def region (addr pages : ℕ) : Span := ⟨addr, pages * pageSize⟩

/-- What the page allocator may hand out: page-aligned memory, apart from every
region handed out before. -/
structure Donation (s : HeapState) (addr pages : ℕ) : Prop where
  aligned : addr % pageSize = 0
  low : ramStart ≤ addr
  high : addr + pages * pageSize ≤ ramEnd
  apart : ∀ d ∈ s.donated, (region addr pages).Apart d

/-- The caller's side of the contract. -/
def HeapOp.Allowed (s : HeapState) : HeapOp → Prop
  | .init addr => Donation s addr initialHeapPages
  | .alloc l grown => ∀ addr, grown = some addr → Donation s addr (requestPages l)
  | .dealloc a => a ∈ s.live
  | .store x _ => ∃ a ∈ s.live, a.span.Has x

/-- One operation; the lists of live blocks and regions are kept beside it. The page
allocator is asked only if the first search fails. -/
def heapStep : HeapOp → HeapState → Except HeapStop HeapState
  | .init addr, s => do
    let (_, h) ← heapInit addr s.list
    return { s with list := h, donated := region addr initialHeapPages :: s.donated }
  | .alloc l grown, s => do
    let (first, _) ← FreeList.take (blockSize l) (max l.align minBlock) s.list
    let (p, h) ← heapAlloc l grown s.list
    let got := if first = 0 then grown.toList.map (region · (requestPages l)) else []
    return ⟨h, if p = 0 then s.live else ⟨p, l⟩ :: s.live, got ++ s.donated⟩
  | .dealloc a, s => do
    let (_, h) ← heapDealloc a.addr a.layout s.list
    return { s with list := h, live := s.live.erase a }
  | .store x b, s => return { s with list := { s.list with mem := writeBytes s.list.mem x [b] } }

/-- Free blocks and live blocks partition the donated memory. -/
structure HeapInv (s : HeapState) (free : List Span) : Prop where
  freeOk : FreeOk s.list free
  live : ∀ a ∈ s.live, Block a.span ∧ a.layout.align ∣ a.addr
  liveApart : s.live.Pairwise fun a b => a.span.Apart b.span
  freeLive : ∀ b ∈ free, ∀ a ∈ s.live, b.Apart a.span
  exact : ∀ x, Covers s.donated x ↔ Covers free x ∨ Covers (s.live.map Alloc.span) x

/-- The header of a free block is out of reach of a store that misses the block. -/
theorem FreeOk.write {h : FreeList} {l : List Span} (hf : FreeOk h l) {m : Mem}
    (hm : ∀ b ∈ l, AgreeOn h.mem m b.addr b.size) : FreeOk { h with mem := m } l := by
  refine ⟨hf.chain.congr fun b hb => .of_agree fun x h1 h2 => hm b hb x h1 ?_, hf.spaced,
    hf.block⟩
  have := (hf.block b hb).size_ge
  omega

namespace HeapInv

variable {s t : HeapState} {free free' : List Span}

theorem live_apart (hi : HeapInv s free) {a : Alloc} (ha : a ∈ s.live) {x : ℕ}
    (hx : a.span.Has x) : ¬ Covers free x := by
  rintro ⟨b, hb, hbx⟩
  exact (hi.freeLive b hb a ha).disjoint hbx hx

/-- A new region is apart from everything on the heap. -/
theorem region_apart {addr pages : ℕ} (hd : Donation s addr pages)
    (hp : 0 < pages) {b : Span} (hb : 0 < b.size)
    (hcov : ∀ x, b.Has x → Covers s.donated x) : (region addr pages).Apart b := by
  refine Span.apart_of_disjoint (by simp only [region, pageSize]; omega) hb fun x hx hbx => ?_
  obtain ⟨d, hdm, hdx⟩ := hcov x hbx
  exact (hd.apart d hdm).disjoint hx hdx

theorem covered_free (hi : HeapInv s free) {b : Span} (hb : b ∈ free) {x : ℕ} (hx : b.Has x) :
    Covers s.donated x := (hi.exact x).mpr (.inl ⟨b, hb, hx⟩)

theorem covered_live (hi : HeapInv s free) {a : Alloc} (ha : a ∈ s.live) {x : ℕ}
    (hx : a.span.Has x) : Covers s.donated x :=
  (hi.exact x).mpr (.inr ⟨a.span, List.mem_map_of_mem ha, hx⟩)

theorem region_block {addr pages : ℕ} (hd : Donation s addr pages) (hp : 0 < pages) :
    Block (region addr pages) := by
  have h1 := hd.aligned
  have h2 := hd.low
  have h3 := hd.high
  simp only [pageSize, ramStart, ramEnd, ramSize] at *
  refine ⟨?_, ?_, ?_, ?_, ?_⟩ <;> simp only [region, Span.stop, pageSize, ramEnd, ramStart, ramSize]
    <;> omega

/-- Growing: the region is zeroed and goes to the free list as a whole. -/
theorem donate_spec (hi : HeapInv s free) {addr pages : ℕ} (hd : Donation s addr pages)
    (hp : 0 < pages) :
    Prog.Wp (donate addr pages) s.list (fun _ h =>
      HeapInv ⟨h, s.live, region addr pages :: s.donated⟩ (insertSpan (region addr pages) free))
      Prog.Never := by
  have hblock := region_block hd hp
  have hfree : ∀ b ∈ free, (region addr pages).Apart b := fun b hb =>
    region_apart hd hp (hi.freeOk.block b hb).pos fun x => hi.covered_free hb
  unfold donate
  rw [Prog.wp_bind, Prog.wp_modify]
  have hf : FreeOk { s.list with mem := fillZero s.list.mem addr (pages * pageSize) } free := by
    refine hi.freeOk.write fun b hb => fillZero_agreeOn _ _ _ _ _ ?_
    have := hfree b hb
    simp only [Span.Apart, Span.stop, region] at this
    omega
  refine (insert_spec (s := region addr pages) hf hblock hfree).mono (fun _ h' hf' => ?_)
    fun _ => id
  refine ⟨hf', hi.live, hi.liveApart, fun b hb a ha => ?_, fun x => ?_⟩
  · refine Span.apart_of_disjoint (hf'.block b hb).pos (hi.live a ha).1.pos fun x hbx hax => ?_
    obtain hx | hx := (covers_insertSpan _ _ x).mp ⟨b, hb, hbx⟩
    · have := region_apart hd hp (hi.live a ha).1.pos fun y => hi.covered_live ha
      exact this.disjoint hx hax
    · exact hi.live_apart ha hax hx
  · rw [covers_cons, hi.exact, covers_insertSpan, or_assoc]

/-- A block moves from the free list to the live blocks. -/
theorem taken (hi : HeapInv s free) {l : Layout} {p : ℕ} {h : FreeList} {free' : List Span}
    (hf' : FreeOk h free') (ht : Taken free free' ⟨p, blockSize l⟩) (hal : max l.align minBlock ∣ p) :
    HeapInv ⟨h, ⟨p, l⟩ :: s.live, s.donated⟩ free' := by
  have hsub : ∀ b ∈ free', ∀ x, b.Has x → Covers free x := fun b hb x hx =>
    (ht.exact x).mpr (.inr ⟨b, hb, hx⟩)
  refine ⟨hf', ?_, ?_, ?_, fun x => ?_⟩
  · rintro a ha
    obtain rfl | ha := List.mem_cons.mp ha
    · exact ⟨ht.block, (align_dvd l).trans hal⟩
    · exact hi.live a ha
  · refine List.pairwise_cons.mpr ⟨fun a ha => ?_, hi.liveApart⟩
    refine Span.apart_of_disjoint ht.block.pos (hi.live a ha).1.pos fun x hx hax => ?_
    exact hi.live_apart ha hax ((ht.exact x).mpr (.inl hx))
  · intro b hb a ha
    obtain rfl | ha := List.mem_cons.mp ha
    · exact (ht.apart b hb).symm
    · refine Span.apart_of_disjoint (hf'.block b hb).pos (hi.live a ha).1.pos fun x hbx hax => ?_
      exact hi.live_apart ha hax (hsub b hb x hbx)
  · rw [hi.exact, ht.exact, List.map_cons, covers_cons]
    simp only [Alloc.span]
    tauto

theorem served (hi : HeapInv s free) {l : Layout} {p : ℕ} {h : FreeList}
    (hs : Served free s.list (blockSize l) (max l.align minBlock) p h) :
    ∃ free', HeapInv ⟨h, if p = 0 then s.live else ⟨p, l⟩ :: s.live, s.donated⟩ free' := by
  obtain ⟨rfl, rfl⟩ | ⟨free', hf', ht, hal⟩ := hs
  · rw [if_pos rfl]
    exact ⟨free, hi⟩
  · rw [if_neg ht.block.low.ne']
    exact ⟨free', hi.taken hf' ht hal⟩

/-- An allocation from the first free block. -/
theorem alloc_front {b : Span} {r : List Span} (hi : HeapInv s (b :: r)) {l : Layout} {pad : ℕ}
    (hpad : (b.addr + max l.align minBlock - 1) / max l.align minBlock * max l.align minBlock =
      b.addr + pad) (hfit : pad + blockSize l ≤ b.size) (grown : Option ℕ) :
    ∃ h, heapStep (.alloc l grown) s = .ok ⟨h, ⟨b.addr + pad, l⟩ :: s.live, s.donated⟩ ∧
      HeapInv ⟨h, ⟨b.addr + pad, l⟩ :: s.live, s.donated⟩ (cutFront b pad (blockSize l) r) := by
  obtain ⟨p, h, hrun, rfl, hf', ht⟩ := (take_front (request l) hi.freeOk hpad hfit).returns
  have h0 : b.addr + pad ≠ 0 := ht.block.low.ne'
  refine ⟨h, ?_, hi.taken hf' ht (hpad ▸ Dvd.intro_left _ rfl)⟩
  have halloc : heapAlloc l grown s.list = .ok (b.addr + pad, h) := by
    simp only [heapAlloc, Prog.bind_apply, hrun, ne_eq, h0, not_false_eq_true, if_true,
      Prog.pure_apply]
  simp only [heapStep, hrun, halloc, bind, Except.bind, pure, Except.pure, if_neg h0,
    List.nil_append]

/-- Allocation, growing the heap if nothing fits. -/
theorem alloc_step (hi : HeapInv s free) {l : Layout} {grown : Option ℕ}
    (hg : ∀ addr, grown = some addr → Donation s addr (requestPages l)) :
    ∃ s' free', heapStep (.alloc l grown) s = .ok s' ∧ HeapInv s' free' := by
  obtain ⟨first, h₁, hfirst, hserved⟩ := (take_spec (request l) hi.freeOk).returns
  have hstep {p : ℕ} {h : FreeList} (hrun : heapAlloc l grown s.list = .ok (p, h)) :
      heapStep (.alloc l grown) s = .ok ⟨h, if p = 0 then s.live else ⟨p, l⟩ :: s.live,
        (if first = 0 then grown.toList.map (region · (requestPages l)) else []) ++ s.donated⟩ := by
    simp only [heapStep, hfirst, hrun, bind, Except.bind, pure, Except.pure]
  by_cases h0 : first = 0
  · -- the first search failed and changed nothing
    have hsame : h₁ = s.list := by
      obtain ⟨-, h⟩ | ⟨l', hf', ht, hal⟩ := hserved
      · exact h
      · have := ht.block.low
        simp only at this
        omega
    subst hsame
    cases grown with
    | none =>
      have hrun : heapAlloc l none s.list = .ok (0, s.list) := by
        simp only [heapAlloc, Prog.bind_apply, hfirst, h0, ne_eq, not_true_eq_false, if_false,
          Prog.pure_apply]
      refine ⟨_, free, hstep hrun, ?_⟩
      simpa [h0] using hi
    | some addr =>
      have hd := hg addr rfl
      have hp : 0 < requestPages l := by
        simp only [requestPages]
        omega
      obtain ⟨_, h₂, hdon, hi₂⟩ := (hi.donate_spec hd hp).returns
      obtain ⟨p, h₃, htake, hserved₃⟩ := (take_spec (request l) hi₂.freeOk).returns
      obtain ⟨free₃, hi₃⟩ := hi₂.served hserved₃
      have hrun : heapAlloc l (some addr) s.list = .ok (p, h₃) := by
        simp only [heapAlloc, Prog.bind_apply, hfirst, h0, ne_eq, not_true_eq_false, if_false,
          hdon]
        exact htake
      refine ⟨_, free₃, hstep hrun, ?_⟩
      simpa [h0] using hi₃
  · obtain ⟨free₁, hi₁⟩ := hi.served hserved
    have hrun : heapAlloc l grown s.list = .ok (first, h₁) := by
      simp only [heapAlloc, Prog.bind_apply, hfirst, ne_eq, h0, not_false_eq_true, if_true,
        Prog.pure_apply]
    refine ⟨_, free₁, hstep hrun, ?_⟩
    simpa [h0] using hi₁

/-- A live block goes back to the free list as a whole. -/
theorem dealloc_step (hi : HeapInv s free) {a : Alloc} (ha : a ∈ s.live) :
    ∃ s', heapStep (.dealloc a) s = .ok s' ∧ HeapInv s' (insertSpan a.span free) ∧
      s'.donated = s.donated ∧ s'.live = s.live.erase a := by
  have hap : ∀ b ∈ free, a.span.Apart b := fun b hb => (hi.freeLive b hb a ha).symm
  obtain ⟨_, h', hins, hf'⟩ := (insert_spec hi.freeOk (hi.live a ha).1 hap).returns
  have hperm := List.perm_cons_erase ha
  have hpair := (hperm.pairwise_iff fun h => Span.Apart.symm h).mp hi.liveApart
  obtain ⟨hapart, herase⟩ := List.pairwise_cons.mp hpair
  refine ⟨{ s with list := h', live := s.live.erase a }, ?_, ⟨hf', ?_, herase, ?_, fun x => ?_⟩,
    rfl, rfl⟩
  · simp only [heapStep, heapDealloc]
    rw [show FreeList.insert a.addr (blockSize a.layout) s.list = .ok ((), h') from hins]
    rfl
  · exact fun c hc => hi.live c (List.mem_of_mem_erase hc)
  · intro b hb c hc
    have hcl := List.mem_of_mem_erase hc
    refine Span.apart_of_disjoint (hf'.block b hb).pos (hi.live c hcl).1.pos fun x hbx hcx => ?_
    obtain hx | hx := (covers_insertSpan _ _ x).mp ⟨b, hb, hbx⟩
    · exact (hapart c hc).disjoint hx hcx
    · exact hi.live_apart hcl hcx hx
  · have hcov : Covers (s.live.map Alloc.span) x ↔
        a.span.Has x ∨ Covers ((s.live.erase a).map Alloc.span) x := by
      rw [← covers_cons, ← List.map_cons]
      simp only [Covers, (hperm.map Alloc.span).mem_iff]
    rw [hi.exact, covers_insertSpan, hcov]
    tauto

/-- Whatever an owner stores in its block, the free list stays as it is. -/
theorem store_step (hi : HeapInv s free) {x : ℕ} (b : UInt8) (hx : ∃ a ∈ s.live, a.span.Has x) :
    ∃ s' free', heapStep (.store x b) s = .ok s' ∧ HeapInv s' free' := by
  obtain ⟨a, ha, hax⟩ := hx
  refine ⟨_, free, rfl, hi.freeOk.write fun c hc => writeBytes_agreeOn _ _ _ _ _ ?_, hi.live,
    hi.liveApart, hi.freeLive, hi.exact⟩
  have := hi.freeLive c hc a ha
  simp only [Span.Apart, Span.Has, Span.stop, List.length_singleton] at *
  omega

theorem step (hi : HeapInv s free) {op : HeapOp} (hop : op.Allowed s) :
    ∃ s' free', heapStep op s = .ok s' ∧ HeapInv s' free' := by
  cases op with
  | init addr =>
    obtain ⟨_, h, hdon, hi'⟩ := (hi.donate_spec hop (by decide)).returns
    refine ⟨_, _, ?_, hi'⟩
    simp only [heapStep, heapInit, hdon, bind, Except.bind, pure, Except.pure]
  | alloc l grown => exact hi.alloc_step hop
  | dealloc a =>
    obtain ⟨s', hs', hi', -⟩ := hi.dealloc_step hop
    exact ⟨s', _, hs', hi'⟩
  | store x b => exact hi.store_step b hop

/-- Before `init` the list is empty, and what memory holds does not matter. -/
theorem empty (mem : Mem) : HeapInv ⟨⟨mem, 0⟩, [], []⟩ [] :=
  ⟨⟨rfl, .nil, nofun⟩, nofun, .nil, nofun, fun x => by simp⟩

/-- An address is free if it was donated and lies in no live block. -/
theorem free_iff (hi : HeapInv s free) (x : ℕ) :
    Covers free x ↔ Covers s.donated x ∧ ¬ Covers (s.live.map Alloc.span) x := by
  rw [hi.exact]
  constructor
  · rintro hx
    refine ⟨.inl hx, ?_⟩
    rintro ⟨b, hb, hbx⟩
    obtain ⟨a, ha, rfl⟩ := List.mem_map.mp hb
    exact hi.live_apart ha hbx hx
  · rintro ⟨hx | hx, hlive⟩
    · exact hx
    · exact absurd hx hlive

theorem free_unique (hs : HeapInv s free) (ht : HeapInv t free')
    (hdon : ∀ x, Covers s.donated x ↔ Covers t.donated x)
    (hlive : ∀ b, b ∈ s.live.map Alloc.span ↔ b ∈ t.live.map Alloc.span) : free = free' := by
  refine hs.freeOk.spaced.unique ht.freeOk.spaced (fun b hb => (hs.freeOk.block b hb).pos)
    (fun b hb => (ht.freeOk.block b hb).pos) fun x => ?_
  have hcov : Covers (s.live.map Alloc.span) x ↔ Covers (t.live.map Alloc.span) x := by
    simp only [Covers, hlive]
  rw [hs.free_iff, ht.free_iff, hdon, hcov]

end HeapInv

/-- The states that sequences of allowed operations reach from the empty list. -/
def HeapReaches (mem : Mem) : HeapState → Prop :=
  Runs (fun op s s' => heapStep op s = .ok s') (fun op s => op.Allowed s) ⟨⟨mem, 0⟩, [], []⟩

/-- Over every sequence of operations the free list is address-ordered and
coalesced, free and live blocks partition the donated memory, live blocks are
aligned to their layouts, and the next operation returns. -/
theorem heap_reachable {mem : Mem} {s : HeapState} (hr : HeapReaches mem s) :
    (∃ free, HeapInv s free) ∧ ∀ op : HeapOp, op.Allowed s → ∃ s', heapStep op s = .ok s' := by
  have hinv : ∃ free, HeapInv s free := by
    refine hr.invariant (I := fun s => ∃ free, HeapInv s free) ⟨[], .empty mem⟩ ?_
    rintro op s t hop hstep ⟨free, hi⟩
    obtain ⟨s', free', hs', hi'⟩ := hi.step hop
    rw [hs', Except.ok.injEq] at hstep
    exact ⟨free', hstep ▸ hi'⟩
  refine ⟨hinv, fun op hop => ?_⟩
  obtain ⟨free, hi⟩ := hinv
  obtain ⟨s', -, hs', -⟩ := hi.step hop
  exact ⟨s', hs'⟩

/-- Seeding the heap is allowed in the beginning, whatever memory holds. -/
theorem heapInit_reaches (mem : Mem) : ∃ s, HeapReaches mem s ∧
    HeapInv s [region 0x80400000 initialHeapPages] ∧ s.live = [] ∧
    s.donated = [region 0x80400000 initialHeapPages] := by
  have hd : Donation ⟨⟨mem, 0⟩, [], []⟩ 0x80400000 initialHeapPages :=
    ⟨by decide, by decide, by decide, nofun⟩
  obtain ⟨_, h, hdon, hi⟩ := ((HeapInv.empty mem).donate_spec hd (by decide)).returns
  refine ⟨⟨h, [], [region 0x80400000 initialHeapPages]⟩, ?_, hi, rfl, rfl⟩
  refine (Runs.refl _).snoc (e := .init 0x80400000) hd ?_
  simp only [heapStep, heapInit, hdon, bind, Except.bind, pure, Except.pure]

section Histories

variable {mem : Mem} {s : HeapState} {free : List Span}

/-- An allocation from the first free block, in a run. -/
theorem HeapReaches.alloc {b : Span} {r : List Span} (hr : HeapReaches mem s)
    (hi : HeapInv s (b :: r)) {l : Layout} {d : ℕ}
    (hpad : (b.addr + max l.align minBlock - 1) / max l.align minBlock * max l.align minBlock =
      b.addr + d) (hfit : d + blockSize l ≤ b.size) :
    ∃ s', heapStep (.alloc l none) s = .ok s' ∧ HeapReaches mem s' ∧
      HeapInv s' (cutFront b d (blockSize l) r) ∧ s'.live = ⟨b.addr + d, l⟩ :: s.live ∧
      s'.donated = s.donated := by
  obtain ⟨h, hstep, hi'⟩ := hi.alloc_front hpad hfit none
  have hallowed : (HeapOp.alloc l none).Allowed s := fun addr ha => by cases ha
  exact ⟨_, hstep, hr.snoc hallowed hstep, hi', rfl, rfl⟩

theorem HeapReaches.dealloc {a : Alloc} (hr : HeapReaches mem s) (hi : HeapInv s free)
    (ha : a ∈ s.live) : ∃ s', heapStep (.dealloc a) s = .ok s' ∧ HeapReaches mem s' ∧
      HeapInv s' (insertSpan a.span free) ∧ s'.live = s.live.erase a ∧ s'.donated = s.donated := by
  obtain ⟨s', hstep, hi', hdon, hlive⟩ := hi.dealloc_step ha
  exact ⟨s', hstep, hr.snoc (e := .dealloc a) ha hstep, hi', hlive, hdon⟩

theorem smallLayout_fits (size : Fin 4096) (k : Fin 13) : size.val + 2 ^ k.val ≤ 2 ^ 63 := by
  have h1 := size.isLt
  have h2 : 2 ^ k.val ≤ 2 ^ 12 := Nat.pow_le_pow_right (by decide) (Nat.le_of_lt_succ k.isLt)
  omega

/-- At most a page, aligned to `2 ^ k`. -/
def smallLayout (size : Fin 4096) (k : Fin 13) : Layout :=
  ⟨size, 2 ^ k.val, ⟨k, rfl⟩, smallLayout_fits size k⟩

/-- Four blocks are allocated, one of them in the padding of another, and the two in the
middle are released. -/
theorem exists_history (mem : Mem) : ∃ s, HeapReaches mem s ∧
    HeapInv s [⟨0x80400030, 0x80⟩, ⟨0x804000d0, 0x3fff30⟩] ∧
    s.live = [⟨0x804000b0, smallLayout 32 4⟩, ⟨0x80400000, smallLayout 48 3⟩] ∧
    s.donated = [region 0x80400000 initialHeapPages] := by
  obtain ⟨s0, r0, i0, l0, d0⟩ := heapInit_reaches mem
  obtain ⟨s1, -, r1, i1, l1, d1⟩ := r0.alloc i0 (l := smallLayout 48 3) (d := 0)
    (by decide) (by decide)
  replace i1 : HeapInv s1 [⟨0x80400030, 0x3fffd0⟩] := i1
  obtain ⟨s2, -, r2, i2, l2, d2⟩ := r1.alloc i1 (l := smallLayout 100 6) (d := 16)
    (by decide) (by decide)
  replace i2 : HeapInv s2 [⟨0x80400030, 16⟩, ⟨0x804000b0, 0x3fff50⟩] := i2
  obtain ⟨s3, -, r3, i3, l3, d3⟩ := r2.alloc i2 (l := smallLayout 10 0) (d := 0)
    (by decide) (by decide)
  replace i3 : HeapInv s3 [⟨0x804000b0, 0x3fff50⟩] := i3
  obtain ⟨s4, -, r4, i4, l4, d4⟩ := r3.alloc i3 (l := smallLayout 32 4) (d := 0)
    (by decide) (by decide)
  replace i4 : HeapInv s4 [⟨0x804000d0, 0x3fff30⟩] := i4
  have hl4 : s4.live = [⟨0x804000b0, smallLayout 32 4⟩, ⟨0x80400030, smallLayout 10 0⟩,
      ⟨0x80400040, smallLayout 100 6⟩, ⟨0x80400000, smallLayout 48 3⟩] := by
    rw [l4, l3, l2, l1, l0]
    rfl
  obtain ⟨s5, -, r5, i5, l5, d5⟩ := r4.dealloc (a := ⟨0x80400040, smallLayout 100 6⟩) i4 (by simp [hl4])
  replace i5 : HeapInv s5 [⟨0x80400040, 0x70⟩, ⟨0x804000d0, 0x3fff30⟩] := i5
  have hl5 : s5.live = [⟨0x804000b0, smallLayout 32 4⟩, ⟨0x80400030, smallLayout 10 0⟩,
      ⟨0x80400000, smallLayout 48 3⟩] := by
    rw [l5, hl4]
    decide
  obtain ⟨s6, -, r6, i6, l6, d6⟩ := r5.dealloc (a := ⟨0x80400030, smallLayout 10 0⟩) i5 (by simp [hl5])
  replace i6 : HeapInv s6 [⟨0x80400030, 0x80⟩, ⟨0x804000d0, 0x3fff30⟩] := i6
  refine ⟨s6, r6, i6, ?_, ?_⟩
  · rw [l6, hl5]
    decide
  · rw [d6, d5, d4, d3, d2, d1, d0]

/-- After that history the two free blocks and the two live ones are the donated region, and
the owner of either may release it. -/
theorem heap_reachable_history : ∃ s free, HeapReaches (fun _ => 0) s ∧ HeapInv s free ∧
    free = [⟨0x80400030, 0x80⟩, ⟨0x804000d0, 0x3fff30⟩] ∧
    s.live = [⟨0x804000b0, smallLayout 32 4⟩, ⟨0x80400000, smallLayout 48 3⟩] ∧
    s.donated = [region 0x80400000 initialHeapPages] ∧
    ∀ a ∈ s.live, ∃ s', heapStep (.dealloc a) s = .ok s' := by
  obtain ⟨s, hr, hi, hl, hd⟩ := exists_history fun _ => 0
  obtain ⟨⟨free, hi'⟩, hnext⟩ := heap_reachable hr
  exact ⟨s, free, hr, hi', hi'.free_unique hi (fun x => Iff.rfl) fun b => Iff.rfl, hl, hd,
    fun a ha => hnext (.dealloc a) ha⟩

end Histories


end LightOS.Kalloc
