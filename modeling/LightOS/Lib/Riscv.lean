import LightOS.Lib.Bytes

/-!
# Straight-line RISC-V supervisor code

Registers, control registers and memory of one hart, the few instructions that move
words between them, trap entry and return. A block of stores or loads through one base
register is treated as a whole: what it leaves in memory or in the registers is read off
its list of registers and offsets.
-/
namespace LightOS.Lib.Riscv

abbrev Reg := Fin 32

/-- Literals name registers. -/
instance neZeroRegs : NeZero 32 := ⟨by decide⟩

inductive Csr where
  | sscratch
  | sepc
  | sstatus
  | stvec
  | satp
  deriving DecidableEq

/-- A program counter; its lowest bit is always clear. -/
structure Pc where
  val : UInt64
  even : val &&& ~~~1 = val

/-- The program counter that a value written to `sepc` stands for. -/
def Pc.of (v : UInt64) : Pc := ⟨v &&& ~~~1, by rw [UInt64.and_assoc, UInt64.and_self]⟩

theorem Pc.of_val (p : Pc) : Pc.of p.val = p := by
  cases p with
  | mk val even => simp only [Pc.of, even]

structure Hart where
  regs : Reg → UInt64
  csr : Csr → UInt64
  pc : Pc
  user : Bool
  mem : Mem

inductive Instr where
  /-- Swap: the old value goes to `rd`, the value of `rs` to the control register. -/
  | csrrw (rd : Reg) (csr : Csr) (rs : Reg)
  | csrr (rd : Reg) (csr : Csr)
  | csrw (csr : Csr) (rs : Reg)
  | sd (rs : Reg) (off : ℕ) (base : Reg)
  | ld (rd : Reg) (off : ℕ) (base : Reg)
  /-- The address of a symbol. -/
  | la (rd : Reg) (addr : UInt64)
  | mv (rd rs : Reg)
  | sfenceVma
  deriving DecidableEq

/-- The double word at an address. -/
def word (m : Mem) (a : UInt64) : UInt64 := UInt64.ofNat (readWord m a.toNat)

namespace Hart

/-- `x0` reads as zero. -/
def reg (h : Hart) (r : Reg) : UInt64 := if r = 0 then 0 else h.regs r

def setReg (h : Hart) (rd : Reg) (v : UInt64) : Hart :=
  { h with regs := Function.update h.regs rd v }

/-- Control registers hold legal values only. -/
def setCsr (h : Hart) (c : Csr) (v : UInt64) : Hart :=
  { h with csr := Function.update h.csr c (if c = .sepc then (Pc.of v).val else v) }

def store (h : Hart) (a v : UInt64) : Hart :=
  { h with mem := writeWord h.mem a.toNat v.toNat }

/-- The address that an access names. -/
def addr (h : Hart) (base : Reg) (off : ℕ) : UInt64 := h.reg base + UInt64.ofNat off

/-- One instruction. In straight-line code nothing reads the program counter. -/
def exec (h : Hart) : Instr → Hart
  | .csrrw rd c rs => (h.setCsr c (h.reg rs)).setReg rd (h.csr c)
  | .csrr rd c => h.setReg rd (h.csr c)
  | .csrw c rs => h.setCsr c (h.reg rs)
  | .sd rs off base => h.store (h.addr base off) (h.reg rs)
  | .ld rd off base => h.setReg rd (word h.mem (h.addr base off))
  | .la rd a => h.setReg rd a
  | .mv rd rs => h.setReg rd (h.reg rs)
  | .sfenceVma => h

def run (h : Hart) (is : List Instr) : Hart := is.foldl exec h

/-- The previous privilege mode, and the interrupt enable bits before and during a trap. -/
def spp : UInt64 := 0x100
def spie : UInt64 := 0x20
def sie : UInt64 := 0x2

/-- `sstatus` after a trap from user mode. -/
def trapStatus (s : UInt64) : UInt64 :=
  if s &&& sie = 0 then s &&& ~~~(spp ||| spie ||| sie)
  else s &&& ~~~(spp ||| spie ||| sie) ||| spie

/-- A trap from user mode. -/
def trap (h : Hart) : Hart :=
  { h with
    csr := Function.update (Function.update h.csr .sepc h.pc.val) .sstatus
      (trapStatus (h.csr .sstatus))
    pc := Pc.of (h.csr .stvec)
    user := false }

/-- `sstatus` after a return. -/
def returnStatus (s : UInt64) : UInt64 :=
  if s &&& spie = 0 then s &&& ~~~(spp ||| sie) ||| spie
  else s &&& ~~~spp ||| spie ||| sie

/-- Return to the mode and the address that the trap came from. -/
def sret (h : Hart) : Hart :=
  { h with
    pc := Pc.of (h.csr .sepc)
    user := h.csr .sstatus &&& spp = 0
    csr := Function.update h.csr .sstatus (returnStatus (h.csr .sstatus)) }

variable {h : Hart}

@[simp] theorem reg_setReg (rd r : Reg) (v : UInt64) :
    (h.setReg rd v).reg r = if r = 0 then 0 else if r = rd then v else h.reg r := by
  simp only [reg, setReg, Function.update_apply]
  split_ifs <;> rfl

@[simp] theorem csr_setReg (rd : Reg) (v : UInt64) : (h.setReg rd v).csr = h.csr := rfl
@[simp] theorem mem_setReg (rd : Reg) (v : UInt64) : (h.setReg rd v).mem = h.mem := rfl
@[simp] theorem reg_setCsr (c : Csr) (v : UInt64) (r : Reg) : (h.setCsr c v).reg r = h.reg r := rfl
@[simp] theorem mem_setCsr (c : Csr) (v : UInt64) : (h.setCsr c v).mem = h.mem := rfl
@[simp] theorem reg_store (a v : UInt64) (r : Reg) : (h.store a v).reg r = h.reg r := rfl
@[simp] theorem csr_store (a v : UInt64) : (h.store a v).csr = h.csr := rfl
@[simp] theorem reg_trap (r : Reg) : h.trap.reg r = h.reg r := rfl
@[simp] theorem mem_trap : h.trap.mem = h.mem := rfl
@[simp] theorem reg_sret (r : Reg) : h.sret.reg r = h.reg r := rfl
theorem user_sret : h.sret.user = decide (h.csr .sstatus &&& spp = 0) := rfl
theorem pc_sret : h.sret.pc = Pc.of (h.csr .sepc) := rfl
theorem scratch_sret : h.sret.csr .sscratch = h.csr .sscratch := rfl

@[simp] theorem csr_setCsr (c d : Csr) (v : UInt64) :
    (h.setCsr c v).csr d = if d = c then if c = .sepc then (Pc.of v).val else v else h.csr d := by
  simp only [setCsr, Function.update_apply]

theorem run_append (is js : List Instr) : h.run (is ++ js) = (h.run is).run js :=
  List.foldl_append

@[simp] theorem run_nil : h.run [] = h := rfl

@[simp] theorem run_cons (i : Instr) (is : List Instr) : h.run (i :: is) = (h.exec i).run is := rfl

end Hart

/-! ## Slots behind a base address -/

/-- The `k`-th double word behind `a`. -/
def slot (m : Mem) (a : UInt64) (k : ℕ) : UInt64 := word m (a + UInt64.ofNat (8 * k))

theorem slot_addr {a : UInt64} {j k : ℕ} (hj : j < 2 ^ 60) (hk : k < 2 ^ 60)
    (hne : j ≠ k) : (a + UInt64.ofNat (8 * j)).toNat + 8 ≤ (a + UInt64.ofNat (8 * k)).toNat ∨
      (a + UInt64.ofNat (8 * k)).toNat + 8 ≤ (a + UInt64.ofNat (8 * j)).toNat := by
  have hlt := a.toNat_lt
  simp only [UInt64.toNat_add, UInt64.toNat_ofNat']
  omega

/-- A store to one slot. -/
theorem slot_store {h : Hart} {a v : UInt64} {j k : ℕ} (hj : j < 2 ^ 60) (hk : k < 2 ^ 60) :
    slot (h.store (a + UInt64.ofNat (8 * k)) v).mem a j =
      if j = k then v else slot h.mem a j := by
  split_ifs with hjk
  · subst hjk
    rw [slot, word, Hart.store, readWord_writeWord_self _ _ _ v.toNat_lt, UInt64.ofNat_toNat]
  · rw [slot, word, Hart.store, readWord_congr (writeWord_agreeOn _ _ _ _ _ ?_), slot, word]
    exact slot_addr hj hk hjk

/-! ## Blocks of stores and loads -/

/-- Store each register to the slot of its number. -/
def saves (base : Reg) (rs : List Reg) : List Instr := rs.map fun r => .sd r (8 * r.val) base

/-- Load each register from the slot of its number. -/
def loads (base : Reg) (rs : List Reg) : List Instr := rs.map fun r => .ld r (8 * r.val) base

/-- A block of stores changes the slots of its registers and nothing else. -/
theorem run_saves {h : Hart} {base : Reg} {a : UInt64} (hb : h.reg base = a) (rs : List Reg) :
    (h.run (saves base rs)).csr = h.csr ∧ (∀ r, (h.run (saves base rs)).reg r = h.reg r) ∧
      (∀ r ∈ rs, slot (h.run (saves base rs)).mem a r.val = h.reg r) ∧
      ∀ k < 2 ^ 60, k ∉ rs.map Fin.val →
        slot (h.run (saves base rs)).mem a k = slot h.mem a k := by
  induction rs generalizing h with
  | nil => exact ⟨rfl, fun _ => rfl, nofun, fun _ _ _ => rfl⟩
  | cons r rs ih =>
      obtain ⟨h', hh'⟩ : ∃ h', h' = h.store (a + UInt64.ofNat (8 * r.val)) (h.reg r) := ⟨_, rfl⟩
      have hrun : h.run (saves base (r :: rs)) = h'.run (saves base rs) := by
        rw [hh', saves, List.map_cons, Hart.run_cons, Hart.exec, Hart.addr, hb]
        rfl
      have hr : r.val < 2 ^ 60 := by omega
      obtain ⟨hcsr, hreg, hin, hout⟩ := ih (h := h') (by rw [hh', Hart.reg_store, hb])
      rw [hrun]
      refine ⟨hcsr.trans (by rw [hh', Hart.csr_store]), fun q => ?_, fun q hq => ?_,
        fun k hk hkr => ?_⟩
      · rw [hreg, hh', Hart.reg_store]
      · by_cases hqrs : q ∈ rs
        · rw [hin q hqrs, hh', Hart.reg_store]
        · obtain rfl : q = r := (List.mem_cons.mp hq).resolve_right hqrs
          have hnot : q.val ∉ rs.map Fin.val := by
            rwa [List.mem_map_of_injective Fin.val_injective]
          rw [hout q.val hr hnot, hh', slot_store hr hr, if_pos rfl]
      · rw [List.map_cons, List.mem_cons, not_or] at hkr
        rw [hout k hk hkr.2, hh', slot_store hk hr, if_neg hkr.1]

/-- A block of loads sets its registers and nothing else. -/
theorem run_loads {h : Hart} {base : Reg} {a : UInt64} (hb : h.reg base = a) {rs : List Reg}
    (hbase : base ∉ rs) :
    (h.run (loads base rs)).csr = h.csr ∧ (h.run (loads base rs)).mem = h.mem ∧
      (∀ r ∈ rs, r ≠ 0 → (h.run (loads base rs)).reg r = slot h.mem a r.val) ∧
      ∀ r, r ∉ rs → (h.run (loads base rs)).reg r = h.reg r := by
  induction rs generalizing h with
  | nil => exact ⟨rfl, rfl, nofun, fun _ _ => rfl⟩
  | cons r rs ih =>
      obtain ⟨hne, hnot⟩ : base ≠ r ∧ base ∉ rs := by simpa using hbase
      obtain ⟨h', hh'⟩ : ∃ h', h' = h.setReg r (slot h.mem a r.val) := ⟨_, rfl⟩
      have hrun : h.run (loads base (r :: rs)) = h'.run (loads base rs) := by
        rw [hh', loads, List.map_cons, Hart.run_cons, Hart.exec, Hart.addr, hb]
        rfl
      have hb' : h'.reg base = a := by
        rw [hh', Hart.reg_setReg, if_neg hne]
        split_ifs with h0
        · rw [← hb, Hart.reg, if_pos h0]
        · exact hb
      obtain ⟨hcsr, hmem, hin, hout⟩ := ih hb' hnot
      have hm : h'.mem = h.mem := by rw [hh', Hart.mem_setReg]
      rw [hrun]
      refine ⟨hcsr.trans (by rw [hh', Hart.csr_setReg]), hmem.trans hm, fun q hq hq0 => ?_,
        fun q hq => ?_⟩
      · by_cases hqrs : q ∈ rs
        · rw [hin q hqrs hq0, hm]
        · obtain rfl : q = r := (List.mem_cons.mp hq).resolve_right hqrs
          rw [hout q hqrs, hh', Hart.reg_setReg, if_neg hq0, if_pos rfl]
      · obtain ⟨hqr, hqrs⟩ : q ≠ r ∧ q ∉ rs := by simpa using hq
        rw [hout q hqrs, hh', Hart.reg_setReg, if_neg hqr]
        split_ifs with h0
        · rw [Hart.reg, if_pos h0]
        · rfl

/-- Load a control register from a slot by way of `t`. -/
def loadCsr (t : Reg) (c : Csr) (k : ℕ) (base : Reg) : List Instr :=
  [.ld t (8 * k) base, .csrw c t]

theorem run_loadCsr {h : Hart} {base t : Reg} {a : UInt64} (hb : h.reg base = a) (ht : t ≠ 0)
    (hne : base ≠ t) (c : Csr) (k : ℕ) :
    (h.run (loadCsr t c k base)).mem = h.mem ∧ (h.run (loadCsr t c k base)).reg base = a ∧
    (h.run (loadCsr t c k base)).csr c =
      (if c = .sepc then (Pc.of (slot h.mem a k)).val else slot h.mem a k) ∧
    ∀ d, d ≠ c → (h.run (loadCsr t c k base)).csr d = h.csr d := by
  obtain ⟨v, hv⟩ : ∃ v, v = slot h.mem a k := ⟨_, rfl⟩
  have hrun : h.run (loadCsr t c k base) = (h.setReg t v).setCsr c v := by
    rw [loadCsr, Hart.run_cons, Hart.run_cons, Hart.run_nil, Hart.exec, Hart.exec, Hart.addr, hb,
      Hart.reg_setReg, if_neg ht, if_pos rfl, hv, slot]
  rw [hrun, ← hv]
  refine ⟨by rw [Hart.mem_setCsr, Hart.mem_setReg], ?_, ?_, fun d hd => ?_⟩
  · rw [Hart.reg_setCsr, Hart.reg_setReg, if_neg hne, hb]
    split_ifs with h0
    · rw [← hb, Hart.reg, if_pos h0]
    · rfl
  · rw [Hart.csr_setCsr, if_pos rfl]
  · rw [Hart.csr_setCsr, if_neg hd, Hart.csr_setReg]

/-! ## The mode bit -/

/-- A trap from user mode leaves the previous mode at user. -/
theorem trapStatus_spp (s : UInt64) : Hart.trapStatus s &&& Hart.spp = 0 := by
  have hclear : ~~~(Hart.spp ||| Hart.spie ||| Hart.sie) &&& Hart.spp = 0 := by decide
  have hspie : Hart.spie &&& Hart.spp = 0 := by decide
  unfold Hart.trapStatus
  split_ifs
  · rw [UInt64.and_assoc, hclear, UInt64.and_zero]
  · have hdistrib (a b c : UInt64) : (a ||| b) &&& c = (a &&& c) ||| (b &&& c) :=
      UInt64.toBitVec_inj.mp BitVec.and_or_distrib_right
    rw [hdistrib, UInt64.and_assoc, hclear, hspie, UInt64.and_zero, UInt64.or_zero]

end LightOS.Lib.Riscv
