import LightOS.Process
import LightOS.Lib.Riscv

/-!
# The user context switch

The two routines of `kernel/sched/switch.S`, instruction by instruction. The kernel is
mapped at the same addresses in every address space, so changing `satp` does not change
what the routines read from a trap frame.
-/
namespace LightOS.ContextSwitch
open Lib Lib.Riscv

/-- `__user_vec` up to the call of `usertrap`, which does not return. -/
def userVec (trapVector : UInt64) : List Instr :=
  [.csrrw 31 .sscratch 31,
    .sd 1 8 31, .sd 2 16 31, .sd 3 24 31, .sd 4 32 31, .sd 5 40 31, .sd 6 48 31,
    .sd 7 56 31, .sd 8 64 31, .sd 9 72 31, .sd 10 80 31, .sd 11 88 31, .sd 12 96 31,
    .sd 13 104 31, .sd 14 112 31, .sd 15 120 31, .sd 16 128 31, .sd 17 136 31,
    .sd 18 144 31, .sd 19 152 31, .sd 20 160 31, .sd 21 168 31, .sd 22 176 31,
    .sd 23 184 31, .sd 24 192 31, .sd 25 200 31, .sd 26 208 31, .sd 27 216 31,
    .sd 28 224 31, .sd 29 232 31, .sd 30 240 31,
    -- the user's x31 is in sscratch
    .csrr 5 .sscratch, .sd 5 248 31, .csrw .sscratch 31,
    .csrr 5 .sepc, .sd 5 256 31, .csrr 5 .sstatus, .sd 5 264 31,
    .la 5 trapVector, .csrw .stvec 5,
    .mv 10 31, .ld 2 272 31]

/-- `__user_ret` up to `sret`. -/
def userRet (userVector : UInt64) : List Instr :=
  [.sfenceVma, .csrw .satp 11, .sfenceVma,
    .la 5 userVector, .csrw .stvec 5, .csrw .sscratch 10,
    .ld 5 256 10, .csrw .sepc 5, .ld 5 264 10, .csrw .sstatus 5,
    .ld 1 8 10, .ld 2 16 10, .ld 3 24 10, .ld 4 32 10, .ld 5 40 10, .ld 6 48 10,
    .ld 7 56 10, .ld 8 64 10, .ld 9 72 10, .ld 11 88 10, .ld 12 96 10, .ld 13 104 10,
    .ld 14 112 10, .ld 15 120 10, .ld 16 128 10, .ld 17 136 10, .ld 18 144 10,
    .ld 19 152 10, .ld 20 160 10, .ld 21 168 10, .ld 22 176 10, .ld 23 184 10,
    .ld 24 192 10, .ld 25 200 10, .ld 26 208 10, .ld 27 216 10, .ld 28 224 10,
    .ld 29 232 10, .ld 30 240 10, .ld 31 248 10,
    -- the frame pointer goes last
    .ld 10 80 10]

/-! ## The frame in memory -/

/-- `repr(C)`: each field at the next multiple of its alignment. -/
def reprC : ℕ → List (ℕ × ℕ) → List ℕ
  | _, [] => []
  | off, (size, align) :: fields =>
    (off + (align - 1)) / align * align ::
      reprC ((off + (align - 1)) / align * align + size) fields

/-- Sizes and alignments of `regs: [usize; 32]`, `sepc`, `sstatus` and `kernel_sp`. -/
def trapFrameFields : List (ℕ × ℕ) := [(32 * 8, 8), (8, 8), (8, 8), (8, 8)]

def fieldOffset (i : ℕ) : ℕ := (reprC 0 trapFrameFields).getD i 0

/-- The address of a trap frame; the type is aligned to eight bytes. -/
structure FrameAddr where
  addr : UInt64
  aligned : addr.toNat % 8 = 0

/-- The frame as Rust reads it. -/
def frameAt (m : Mem) (tf : FrameAddr) : TrapFrame where
  regs i := word m (tf.addr + UInt64.ofNat (fieldOffset 0 + i.val * 8))
  sepc := word m (tf.addr + UInt64.ofNat (fieldOffset 1))
  sstatus := word m (tf.addr + UInt64.ofNat (fieldOffset 2))
  kernelSp := word m (tf.addr + UInt64.ofNat (fieldOffset 3))

/-- The fields of a frame are the slots behind its address. -/
theorem frameAt_slots (m : Mem) (tf : FrameAddr) :
    frameAt m tf = ⟨fun i => slot m tf.addr i.val, slot m tf.addr 32, slot m tf.addr 33,
      slot m tf.addr 34⟩ := by
  have hregs : fieldOffset 0 = 0 := rfl
  simp only [frameAt, hregs, Nat.zero_add, Nat.mul_comm _ 8]
  rfl

/-! ## Saving -/

/-- What `__user_vec` does once the other registers are saved. -/
def vecTail (v : UInt64) : List Instr :=
  [.csrr 5 .sscratch, .sd 5 (8 * 31) 31, .csrw .sscratch 31, .csrr 5 .sepc, .sd 5 (8 * 32) 31,
    .csrr 5 .sstatus, .sd 5 (8 * 33) 31, .la 5 v, .csrw .stvec 5, .mv 10 31, .ld 2 (8 * 34) 31]

/-- The registers from `lo` up to `hi`. -/
def regRange (lo hi : ℕ) : List Reg := (List.finRange 32).extract lo hi

theorem userVec_eq (v : UInt64) :
    userVec v = .csrrw 31 .sscratch 31 :: (saves 31 (regRange 1 31) ++ vecTail v) := rfl

theorem vecTail_spec {h : Hart} {a v : UInt64} (hb : h.reg 31 = a) :
    let h' := h.run (vecTail v)
    (∀ k < 2 ^ 60, slot h'.mem a k = if k = 33 then h.csr .sstatus else
      if k = 32 then h.csr .sepc else if k = 31 then h.csr .sscratch else slot h.mem a k) ∧
    h'.csr .sscratch = a ∧ h'.csr .stvec = v ∧ h'.reg 10 = a ∧ h'.reg 2 = slot h.mem a 34 := by
  intro h'
  have h31 : (31 : Reg) ≠ 0 ∧ (31 : Reg) ≠ 5 ∧ (5 : Reg) ≠ 0 := by decide
  have hrun : h' = h.run (vecTail v) := rfl
  simp only [vecTail, Hart.run_cons, Hart.run_nil, Hart.exec, Hart.addr, Hart.reg_setReg,
    Hart.reg_setCsr, Hart.reg_store, Hart.csr_setReg, Hart.csr_setCsr, Hart.csr_store,
    Hart.mem_setReg, Hart.mem_setCsr, hb, h31, if_true, if_false, reduceCtorEq, ite_self,
    -Nat.reduceMul] at hrun
  have hslots (k : ℕ) (hk : k < 2 ^ 60) : slot h'.mem a k = if k = 33 then h.csr .sstatus else
      if k = 32 then h.csr .sepc else if k = 31 then h.csr .sscratch else slot h.mem a k := by
    simp only [hrun, Hart.mem_setReg, Hart.mem_setCsr]
    rw [slot_store hk (by norm_num), Hart.mem_setReg, slot_store hk (by norm_num),
      Hart.mem_setReg, Hart.mem_setCsr, slot_store hk (by norm_num), Hart.mem_setReg]
  have hcsr : h'.csr .sscratch = a ∧ h'.csr .stvec = v := by
    simp only [hrun, Hart.csr_setReg, Hart.csr_setCsr, Hart.csr_store, reduceCtorEq, if_true,
      if_false, and_self]
  have h10 : h'.reg 10 = a := by
    simp [hrun]
  have h2 : h'.reg 2 = slot h'.mem a 34 := by
    simp only [hrun, Hart.reg_setReg, Hart.mem_setReg, Hart.mem_setCsr]
    rfl
  refine ⟨hslots, hcsr.1, hcsr.2, h10, ?_⟩
  rw [h2, hslots 34 (by norm_num)]
  rfl

/-- `__user_vec` leaves the registers and the trap's `sepc` and `sstatus` in the frame that
`sscratch` points to, and enters the kernel on its stack with the frame's address. -/
theorem userVec_saves {h : Hart} {tf : FrameAddr} {v : UInt64}
    (hs : h.csr .sscratch = tf.addr) :
    let h' := h.run (userVec v)
    let old := frameAt h.mem tf
    frameAt h'.mem tf = ⟨fun i => if i = 0 then old.regs 0 else h.reg i, h.csr .sepc,
      h.csr .sstatus, old.kernelSp⟩ ∧
    h'.csr .sscratch = tf.addr ∧ h'.csr .stvec = v ∧ h'.reg 10 = tf.addr ∧
    h'.reg 2 = old.kernelSp := by
  intro h' old
  obtain ⟨h₁, hh₁⟩ : ∃ h₁, h₁ = h.exec (.csrrw 31 .sscratch 31) := ⟨_, rfl⟩
  obtain ⟨h₂, hh₂⟩ : ∃ h₂, h₂ = h₁.run (saves 31 (regRange 1 31)) := ⟨_, rfl⟩
  have hrun : h' = h₂.run (vecTail v) := by
    change h.run (userVec v) = _
    rw [userVec_eq, Hart.run_cons, Hart.run_append, hh₂, hh₁]
  have h31 : h₁.reg 31 = tf.addr := by simp [hh₁, Hart.exec, hs]
  have hreg (r : Reg) (hr : r ≠ 31) : h₁.reg r = h.reg r := by
    rw [hh₁, Hart.exec, Hart.reg_setReg, if_neg hr, Hart.reg_setCsr]
    split_ifs with h0
    · rw [Hart.reg, if_pos h0]
    · rfl
  have hmem : h₁.mem = h.mem := by rw [hh₁]; rfl
  obtain ⟨hcsr₂, hreg₂, hin, hout⟩ := run_saves h31 (regRange 1 31)
  rw [← hh₂] at hcsr₂ hreg₂ hin hout
  obtain ⟨hslots, hss, htv, h10, hsp⟩ := vecTail_spec (v := v) ((hreg₂ 31).trans h31)
  rw [← hrun] at hslots hss htv h10 hsp
  have hcsr : h₂.csr .sscratch = h.reg 31 ∧ h₂.csr .sepc = h.csr .sepc ∧
      h₂.csr .sstatus = h.csr .sstatus := by
    rw [hcsr₂, hh₁]
    simp [Hart.exec]
  have hin_iff : ∀ i : Reg, i ∈ regRange 1 31 ↔ 0 < i.val ∧ i.val < 31 := by decide
  have hout_of {k : ℕ} (hk : k < 2 ^ 60) (hk0 : k = 0 ∨ 31 ≤ k) :
      slot h₂.mem tf.addr k = slot h.mem tf.addr k := by
    rw [hout k hk ?_, hmem]
    rintro hm
    obtain ⟨i, hi, rfl⟩ := List.mem_map.mp hm
    have := (hin_iff i).mp hi
    omega
  have hslot (i : Reg) :
      slot h'.mem tf.addr i.val = if i = 0 then slot h.mem tf.addr 0 else h.reg i := by
    have hi : i.val < 2 ^ 60 := by omega
    rw [hslots i.val hi, if_neg (by omega), if_neg (by omega)]
    by_cases h0 : i = 0
    · subst h0
      rw [if_pos rfl, if_neg (by decide)]
      exact hout_of (by norm_num) (.inl rfl)
    · have hpos : i.val ≠ 0 := fun h => h0 (Fin.ext h)
      rw [if_neg h0]
      by_cases hlast : i = 31
      · subst hlast
        exact hcsr.1
      · have hlt : i.val ≠ 31 := fun h => hlast (Fin.ext h)
        rw [if_neg hlt, hin i ((hin_iff i).mpr (by omega)), hreg i hlast]
  have hkernelSp : slot h₂.mem tf.addr 34 = old.kernelSp := by
    change _ = (frameAt h.mem tf).kernelSp
    rw [hout_of (by norm_num) (.inr (by norm_num)), frameAt_slots]
  refine ⟨?_, hss, htv, h10, hsp.trans hkernelSp⟩
  have hold : old.regs 0 = slot h.mem tf.addr 0 := by
    change (frameAt h.mem tf).regs 0 = _
    rw [frameAt_slots]
    rfl
  rw [frameAt_slots, hold, hslots 32 (by norm_num), hslots 33 (by norm_num),
    hslots 34 (by norm_num), ← hkernelSp, ← hcsr.2.1, ← hcsr.2.2]
  simp only [TrapFrame.mk.injEq]
  exact ⟨funext hslot, rfl, rfl, rfl⟩

/-! ## Restoring -/

/-- What `__user_ret` does before it touches the frame. -/
def retHead (v : UInt64) : List Instr :=
  [.sfenceVma, .csrw .satp 11, .sfenceVma, .la 5 v, .csrw .stvec 5, .csrw .sscratch 10]

theorem userRet_eq (v : UInt64) :
    userRet v = retHead v ++ (loadCsr 5 .sepc 32 10 ++ (loadCsr 5 .sstatus 33 10 ++
      (loads 10 (regRange 1 10 ++ regRange 11 32) ++ loads 10 [10]))) := rfl

theorem retHead_eq {h : Hart} {a v : UInt64} (ha : h.reg 10 = a) :
    h.run (retHead v) =
      (((h.setCsr .satp (h.reg 11)).setReg 5 v).setCsr .stvec v).setCsr .sscratch a := by
  have h5 : (10 : Reg) ≠ 0 ∧ (10 : Reg) ≠ 5 ∧ (5 : Reg) ≠ 0 := by decide
  simp only [retHead, Hart.run_cons, Hart.run_nil, Hart.exec, Hart.reg_setReg, Hart.reg_setCsr, ha,
    h5, if_true, if_false]

/-- `__user_ret` loads the frame at `a0` and leaves its address in `sscratch`. -/
theorem userRet_loads {h : Hart} {tf : FrameAddr} {v : UInt64} (ha : h.reg 10 = tf.addr) :
    let h' := h.run (userRet v)
    let f := frameAt h.mem tf
    (∀ r, r ≠ 0 → h'.reg r = f.regs r) ∧ h'.csr .sepc = (Pc.of f.sepc).val ∧
    h'.csr .sstatus = f.sstatus ∧ h'.csr .sscratch = tf.addr ∧ h'.csr .stvec = v ∧
    h'.csr .satp = h.reg 11 ∧ h'.mem = h.mem := by
  have hne : (10 : Reg) ≠ 5 ∧ (5 : Reg) ≠ 0 ∧ (10 : Reg) ≠ 0 := by decide
  obtain ⟨h₁, hh₁⟩ : ∃ h₁, h₁ = h.run (retHead v) := ⟨_, rfl⟩
  obtain ⟨h₂, hh₂⟩ : ∃ h₂, h₂ = h₁.run (loadCsr 5 .sepc 32 10) := ⟨_, rfl⟩
  obtain ⟨h₃, hh₃⟩ : ∃ h₃, h₃ = h₂.run (loadCsr 5 .sstatus 33 10) := ⟨_, rfl⟩
  obtain ⟨h₄, hh₄⟩ : ∃ h₄, h₄ = h₃.run (loads 10 (regRange 1 10 ++ regRange 11 32)) := ⟨_, rfl⟩
  have hrun : h.run (userRet v) = h₄.run (loads 10 [10]) := by
    rw [userRet_eq, Hart.run_append, Hart.run_append, Hart.run_append, Hart.run_append, hh₄, hh₃,
      hh₂, hh₁]
  rw [retHead_eq ha] at hh₁
  have hmem₁ : h₁.mem = h.mem := by
    simp only [hh₁, Hart.mem_setCsr, Hart.mem_setReg]
  have ha₁ : h₁.reg 10 = tf.addr := by
    simp only [hh₁, Hart.reg_setCsr, Hart.reg_setReg, hne, if_false, ha]
  have hcsr₁ : h₁.csr .sscratch = tf.addr ∧ h₁.csr .stvec = v ∧ h₁.csr .satp = h.reg 11 := by
    simp only [hh₁, Hart.csr_setCsr, Hart.csr_setReg, reduceCtorEq, if_true, if_false, and_self]
  obtain ⟨hmem₂, ha₂, hepc, hcsr₂⟩ := run_loadCsr ha₁ hne.2.1 hne.1 .sepc 32
  rw [← hh₂] at hmem₂ ha₂ hepc hcsr₂
  obtain ⟨hmem₃, ha₃, hstatus, hcsr₃⟩ := run_loadCsr ha₂ hne.2.1 hne.1 .sstatus 33
  rw [← hh₃] at hmem₃ ha₃ hstatus hcsr₃
  have hrange : ∀ r : Reg, r ∈ regRange 1 10 ++ regRange 11 32 ↔ r ≠ 0 ∧ r ≠ 10 := by decide
  have hbase : (10 : Reg) ∉ regRange 1 10 ++ regRange 11 32 := fun h => ((hrange 10).mp h).2 rfl
  obtain ⟨hcsr₄, hmem₄, hin, hout⟩ := run_loads ha₃ hbase
  rw [← hh₄] at hcsr₄ hmem₄ hin hout
  have ha₄ : h₄.reg 10 = tf.addr := (hout 10 fun h => ((hrange 10).mp h).2 rfl).trans ha₃
  have hmem : h₄.mem = h.mem := by rw [hmem₄, hmem₃, hmem₂, hmem₁]
  have hlast : h.run (userRet v) = h₄.setReg 10 (slot h.mem tf.addr 10) := by
    rw [hrun, loads, List.map_singleton, Hart.run_cons, Hart.run_nil, Hart.exec, Hart.addr, ha₄,
      hmem]
    rfl
  have hcsr (c : Csr) (h1 : c ≠ .sepc) (h2 : c ≠ .sstatus) : h₄.csr c = h₁.csr c := by
    rw [hcsr₄, hcsr₃ c h2, hcsr₂ c h1]
  intro h' f
  have hf : f = _ := frameAt_slots h.mem tf
  have hh' : h' = h₄.setReg 10 (slot h.mem tf.addr 10) := hlast
  clear_value h' f
  subst hf hh'
  refine ⟨fun r hr => ?_, ?_, ?_, ?_, ?_, ?_, hmem⟩
  · rw [Hart.reg_setReg, if_neg hr]
    split_ifs with h10
    · rw [h10]
      rfl
    · rw [hin r ((hrange r).mpr ⟨hr, h10⟩) hr, hmem₃, hmem₂, hmem₁]
  · rw [Hart.csr_setReg, hcsr₄, hcsr₃ _ (by decide), hepc, if_pos rfl, hmem₁]
  · rw [Hart.csr_setReg, hcsr₄, hstatus, if_neg (by decide), hmem₂, hmem₁]
  · rw [Hart.csr_setReg, hcsr _ (by decide) (by decide), hcsr₁.1]
  · rw [Hart.csr_setReg, hcsr _ (by decide) (by decide), hcsr₁.2.1]
  · rw [Hart.csr_setReg, hcsr _ (by decide) (by decide), hcsr₁.2.2]

/-- From a trap that finds the frame's address in `sscratch` to the return through the same
frame, nothing of the user's registers and program counter is lost, and `sscratch` holds
the address again. In between the kernel may do anything but change the frame. What the
routines save and load is what the fields of the `repr(C)` frame hold. -/
theorem switch_lossless (tf : FrameAddr) {h k : Hart} (trapVector userVector : UInt64)
    (hs : h.csr .sscratch = tf.addr) (hk : k.reg 10 = tf.addr)
    (hsame : frameAt k.mem tf = frameAt (h.trap.run (userVec trapVector)).mem tf) :
    let saved := h.trap.run (userVec trapVector)
    let back := (k.run (userRet userVector)).sret
    ((∀ r, r ≠ 0 → back.reg r = h.reg r) ∧ back.pc = h.pc ∧ back.user = true ∧
      back.csr .sscratch = tf.addr) ∧
    (frameAt saved.mem tf = ⟨fun i => if i = 0 then (frameAt h.mem tf).regs 0 else h.reg i,
      h.pc.val, Hart.trapStatus (h.csr .sstatus), (frameAt h.mem tf).kernelSp⟩ ∧
      saved.csr .sscratch = tf.addr ∧ saved.reg 10 = tf.addr ∧
      saved.reg 2 = (frameAt h.mem tf).kernelSp) ∧
    ∀ g : Hart, g.reg 10 = tf.addr →
      let ret := g.run (userRet userVector)
      (∀ r, r ≠ 0 → ret.reg r = (frameAt g.mem tf).regs r) ∧
      ret.sret.pc = Pc.of (frameAt g.mem tf).sepc ∧ ret.csr .sstatus = (frameAt g.mem tf).sstatus
      ∧ ret.csr .sscratch = tf.addr := by
  intro saved back
  have htrap : h.trap.csr .sscratch = tf.addr ∧ h.trap.csr .sepc = h.pc.val ∧
      h.trap.csr .sstatus = Hart.trapStatus (h.csr .sstatus) := by
    refine ⟨?_, rfl, rfl⟩
    rw [← hs]
    rfl
  obtain ⟨hframe, hss, -, h10, hsp⟩ := userVec_saves (v := trapVector) htrap.1
  rw [htrap.2.1, htrap.2.2] at hframe
  have hret {g : Hart} (hg : g.reg 10 = tf.addr) :
      (∀ r, r ≠ 0 → (g.run (userRet userVector)).reg r = (frameAt g.mem tf).regs r) ∧
      (g.run (userRet userVector)).sret.pc = Pc.of (frameAt g.mem tf).sepc ∧
      (g.run (userRet userVector)).csr .sstatus = (frameAt g.mem tf).sstatus ∧
      (g.run (userRet userVector)).csr .sscratch = tf.addr := by
    obtain ⟨hregs, hepc, hstatus, hscratch, -⟩ := userRet_loads (v := userVector) hg
    exact ⟨hregs, by rw [Hart.pc_sret, hepc, Pc.of_val], hstatus, hscratch⟩
  obtain ⟨hregs, hback, hstatus, hscratch⟩ := hret hk
  rw [hsame, hframe] at hregs hback hstatus
  refine ⟨⟨fun r hr => ?_, ?_, ?_, ?_⟩, ⟨hframe, hss, h10, hsp⟩, fun g hg => hret hg⟩
  · rw [Hart.reg_sret, hregs r hr]
    dsimp only
    rw [if_neg hr, Hart.reg_trap]
  · rw [hback, Pc.of_val]
  · rw [Hart.user_sret, hstatus, trapStatus_spp]
    rfl
  · rw [Hart.scratch_sret, hscratch]

/-- A kernel that only gives the frame's address back. -/
theorem switch_lossless_untouched : ∃ (tf : FrameAddr) (h k : Hart), h.csr .sscratch = tf.addr ∧
    k = (h.trap.run (userVec 0x80000000)).setReg 10 tf.addr ∧
    (∀ r, r ≠ 0 → (k.run (userRet 0x80000040)).sret.reg r = h.reg r) ∧
    (k.run (userRet 0x80000040)).sret.pc = h.pc := by
  let tf : FrameAddr := ⟨0x80200000, by decide⟩
  let h : Hart := ⟨fun r => UInt64.ofNat (3 * r.val), fun _ => tf.addr, Pc.of 0x40000000, true,
    fun _ => 0⟩
  have hk : ((h.trap.run (userVec 0x80000000)).setReg 10 tf.addr).reg 10 = tf.addr := by
    rw [Hart.reg_setReg, if_neg (by decide), if_pos rfl]
  obtain ⟨⟨hregs, hpc, -⟩, -⟩ := switch_lossless tf (h := h) 0x80000000 0x80000040 rfl hk
    (by rw [Hart.mem_setReg])
  exact ⟨tf, h, _, rfl, rfl, hregs, hpc⟩

end LightOS.ContextSwitch
