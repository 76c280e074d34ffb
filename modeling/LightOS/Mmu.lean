import LightOS.Page
import Mathlib.Data.Nat.Bitwise

/-!
# Sv39 page tables in physical memory

Page tables are pages of the machine's memory: 512 eight-byte entries at the
table's physical address. `walk`, `map` and `unmap` follow `kernel/mem/mmu.rs`
entry by entry, including the tables a walk allocates before a later level
fails.
-/
namespace LightOS
open Lib

abbrev pteV : ℕ := 1
abbrev pteR : ℕ := 2
abbrev pteW : ℕ := 4
abbrev pteX : ℕ := 8
abbrev pteU : ℕ := 16
abbrev pteA : ℕ := 64
abbrev pteD : ℕ := 128

/-- Root slot of the user window: VAs 0x4000_0000..0x8000_0000. -/
abbrev userRootSlot : ℕ := 1

/-- `*pte & PTE_V != 0`. -/
def pteValid (pte : ℕ) : Bool := pte &&& pteV != 0

/-- `*pte & (PTE_R | PTE_W | PTE_X) != 0`. -/
def pteLeaf (pte : ℕ) : Bool := pte &&& (pteR ||| pteW ||| pteX) != 0

/-- `*pte & PTE_U != 0`. -/
def pteUser (pte : ℕ) : Bool := pte &&& pteU != 0

/-- `((*pte >> 10) << 12)` in 64 bits. -/
def pteAddr (pte : ℕ) : ℕ := ((pte >>> 10) <<< 12) % usizeBound

/-- Entry pointing to the next-level table. -/
def tablePte (pa : ℕ) : ℕ := ((pa >>> 12) <<< 10) ||| pteV

/-- Leaf entry; A and D are set eagerly. -/
def leafPte (pa flags : ℕ) : ℕ := ((pa >>> 12) <<< 10) ||| flags ||| pteA ||| pteD ||| pteV

/-- VPN slice of a Sv39 address (level 2 is the root). -/
def vpn (va level : ℕ) : ℕ := (va >>> (12 + 9 * level)) &&& 0x1ff

theorem and_two_pow_bne_zero (e k : ℕ) : (e &&& 2 ^ k != 0) = e.testBit k := by
  rw [Nat.and_two_pow]
  cases e.testBit k <;> simp

theorem pteValid_eq (e : ℕ) : pteValid e = e.testBit 0 := and_two_pow_bne_zero e 0

theorem pteUser_eq (e : ℕ) : pteUser e = e.testBit 4 := and_two_pow_bne_zero e 4

theorem or_bne_zero (a b : ℕ) : (a ||| b != 0) = (a != 0 || b != 0) := by
  rw [Bool.eq_iff_iff]
  simp only [bne_iff_ne, Bool.or_eq_true, ne_eq, Nat.or_eq_zero_iff]
  tauto

theorem pteLeaf_eq (e : ℕ) : pteLeaf e = (e.testBit 1 || e.testBit 2 || e.testBit 3) := by
  unfold pteLeaf
  rw [Nat.and_or_distrib_left, Nat.and_or_distrib_left, or_bne_zero, or_bne_zero]
  rw [← and_two_pow_bne_zero e 1, ← and_two_pow_bne_zero e 2, ← and_two_pow_bne_zero e 3]
  simp only [pteR, pteW, pteX, Nat.reducePow]

/-- An entry is the page number above ten flag bits. -/
theorem pteAddr_or {pa flags : ℕ} (ha : pa % pageSize = 0) (hp : pa < usizeBound)
    (hf : flags < 2 ^ 10) : pteAddr (((pa >>> 12) <<< 10) ||| flags) = pa := by
  have h0 : flags >>> 10 = 0 := Nat.shiftRight_eq_zero flags 10 hf
  unfold pteAddr
  rw [Nat.shiftRight_or_distrib, h0, Nat.or_zero, Nat.shiftLeft_shiftRight,
    Nat.shiftRight_eq_div_pow, Nat.shiftLeft_eq]
  simp only [pageSize, usizeBound] at *
  omega

theorem tablePte_valid (pa : ℕ) : pteValid (tablePte pa) = true := by
  simp [pteValid_eq, tablePte]

theorem tablePte_leaf (pa : ℕ) : pteLeaf (tablePte pa) = false := by
  simp [pteLeaf_eq, tablePte, Nat.testBit_or]
  decide

theorem leafPte_valid (pa flags : ℕ) : pteValid (leafPte pa flags) = true := by
  simp [pteValid_eq, leafPte]

theorem leafPte_user (pa flags : ℕ) : pteUser (leafPte pa flags) = flags.testBit 4 := by
  have h : pteA.testBit 4 = false ∧ pteD.testBit 4 = false ∧ pteV.testBit 4 = false := by decide
  simp [pteUser_eq, leafPte, Nat.testBit_or, h]

theorem pteAddr_tablePte {pa : ℕ} (ha : pa % pageSize = 0) (hp : pa < usizeBound) :
    pteAddr (tablePte pa) = pa := pteAddr_or ha hp (by norm_num)

theorem pteAddr_leafPte {pa flags : ℕ} (ha : pa % pageSize = 0) (hp : pa < usizeBound)
    (hf : flags < 2 ^ 10) : pteAddr (leafPte pa flags) = pa := by
  have hor : leafPte pa flags = ((pa >>> 12) <<< 10) ||| (flags ||| pteA ||| pteD ||| pteV) := by
    simp only [leafPte, Nat.or_assoc]
  rw [hor]
  refine pteAddr_or ha hp ?_
  exact Nat.or_lt_two_pow (Nat.or_lt_two_pow (Nat.or_lt_two_pow hf (by norm_num)) (by norm_num))
    (by norm_num)

theorem tablePte_lt {pa : ℕ} (hp : pa < 2 ^ 56) : tablePte pa < usizeBound := by
  refine Nat.or_lt_two_pow ?_ (by norm_num)
  rw [Nat.shiftRight_eq_div_pow, Nat.shiftLeft_eq]
  omega

theorem leafPte_lt {pa flags : ℕ} (hp : pa < 2 ^ 56) (hf : flags < 2 ^ 10) :
    leafPte pa flags < usizeBound := by
  have hs : (pa >>> 12) <<< 10 < 2 ^ 64 := by
    rw [Nat.shiftRight_eq_div_pow, Nat.shiftLeft_eq]
    omega
  exact Nat.or_lt_two_pow (Nat.or_lt_two_pow (Nat.or_lt_two_pow
    (Nat.or_lt_two_pow hs (by omega)) (by norm_num)) (by norm_num)) (by norm_num)

theorem vpn_eq (va level : ℕ) : vpn va level = va / 2 ^ (12 + 9 * level) % 512 := by
  unfold vpn
  rw [Nat.shiftRight_eq_div_pow]
  exact Nat.and_two_pow_sub_one_eq_mod _ 9

theorem vpn_lt (va level : ℕ) : vpn va level < 512 := by
  rw [vpn_eq]
  exact Nat.mod_lt _ (by norm_num)

@[simp] theorem pteValid_zero : pteValid 0 = false := rfl

/-- Entry `i` of the table at physical address `t`. -/
def Machine.pte (m : Machine) (t i : ℕ) : ℕ := readWord m.mem (t + 8 * i)

theorem Machine.pte_lt (m : Machine) (t i : ℕ) : m.pte t i < usizeBound := readWord_lt _ _

def Machine.setPte (m : Machine) (t i v : ℕ) : Machine :=
  { m with mem := writeWord m.mem (t + 8 * i) v }

def writePte (t i v : ℕ) : MachineM Unit := modify fun m => m.setPte t i v

@[simp] theorem wp_writePte {t i v : ℕ} {m : Machine} {Q : Unit → Machine → Prop}
    {E : Fault → Prop} : Prog.Wp (writePte t i v) m Q E ↔ Q () (m.setPte t i v) := Prog.wp_modify

theorem Machine.pte_setPte_self (m : Machine) (t i : ℕ) {v : ℕ} (hv : v < usizeBound) :
    (m.setPte t i v).pte t i = v := readWord_writeWord_self m.mem (t + 8 * i) v hv

/-- Writing one entry leaves every other entry of every table alone. -/
theorem Machine.pte_setPte_ne (m : Machine) {t t' i i' : ℕ} (v : ℕ) (ht : t % pageSize = 0)
    (ht' : t' % pageSize = 0) (hi : i < 512) (hi' : i' < 512) (hne : t' ≠ t ∨ i' ≠ i) :
    (m.setPte t i v).pte t' i' = m.pte t' i' := by
  refine readWord_congr (writeWord_agreeOn m.mem (t + 8 * i) v (t' + 8 * i') 8 ?_)
  simp only [pageSize] at ht ht'
  omega

namespace PageTable

/-- Allocate a zeroed table. -/
def alloc : MachineM (Option ℕ) := pageAlloc 1

/-- One level of the walk: the table that entry `vpn va level` of `table` leads to. -/
def walkLevel (table va level : ℕ) (create : Bool) : MachineM (Option ℕ) := do
  let m ← get
  let pte := m.pte table (vpn va level)
  if !pteValid pte then
    if !create then return none
    match ← alloc with
    | none => return none
    | some next =>
      writePte table (vpn va level) (tablePte next)
      return some (pteAddr (tablePte next))
  else if pteLeaf pte then Prog.stop (.panic .superpage)
  else return some (pteAddr pte)

/-- The level-0 table of `va`; its entry is at index `vpn va 0`. -/
def walk (root va : ℕ) (create : Bool) : MachineM (Option ℕ) := do
  match ← walkLevel root va 2 create with
  | none => return none
  | some l1 => walkLevel l1 va 1 create

def map (root va pa flags : ℕ) : MachineM (Except String Unit) := do
  if va % pageSize ≠ 0 then Prog.stop (.panic .unalignedVa)
  else if pa % pageSize ≠ 0 then Prog.stop (.panic .unalignedPa)
  else
    match ← walk root va true with
    | none => return .error "mmu: out of memory for page table"
    | some l0 =>
      let m ← get
      if pteValid (m.pte l0 (vpn va 0)) then return .error "mmu: va already mapped"
      else
        writePte l0 (vpn va 0) (leafPte pa flags)
        return .ok ()

/-- Identity-map every page in `[start, stop)`. -/
def mapRange (root start stop flags : ℕ) : MachineM (Except String Unit) := do
  let first := pageDown start
  let last ← Prog.ofExcept (pageUp stop)
  Prog.tryEach (fun i => map root (first + i * pageSize) (first + i * pageSize) flags)
    (List.range ((last - first) / pageSize))

/-- Remove the mapping of `va`; returns the physical address that was mapped. -/
def unmap (root va : ℕ) : MachineM (Option ℕ) := do
  match ← walk root va false with
  | none => return none
  | some l0 =>
    let m ← get
    let pte := m.pte l0 (vpn va 0)
    if pteValid pte then
      writePte l0 (vpn va 0) 0
      return some (pteAddr pte)
    else return none

def virtToPhys (root va : ℕ) : MachineM (Option ℕ) := do
  match ← walk root va false with
  | none => return none
  | some l0 =>
    let m ← get
    let pte := m.pte l0 (vpn va 0)
    if pteValid pte then return some (pteAddr pte + va % pageSize) else return none

end PageTable

/-- A fresh process root: every entry but the user slot copied from the kernel
root, so the kernel subtrees are shared by reference. -/
def newUserRoot : MachineM (Option ℕ) := do
  match ← PageTable.alloc with
  | none => return none
  | some root =>
    Prog.each (fun i =>
      if i ≠ userRootSlot then do
        let m ← get
        writePte root i (m.pte m.kernelRootPa i)
      else pure ()) (List.range 512)
    return some root

/-- Free every frame and table under the user slot of `root`. -/
def freeUserSpace (root : ℕ) : MachineM Unit := do
  let m ← get
  let rootEntry := m.pte root userRootSlot
  if !pteValid rootEntry then return ()
  let l1 := pteAddr rootEntry
  Prog.each (fun i1 => do
    let m ← get
    let e1 := m.pte l1 i1
    if !pteValid e1 then pure ()
    else
      let l0 := pteAddr e1
      Prog.each (fun i0 => do
        let m ← get
        let e0 := m.pte l0 i0
        if pteValid e0 then pageFree (pteAddr e0) 1 else pure ()) (List.range 512)
      pageFree l0 1) (List.range 512)
  pageFree l1 1
  writePte root userRootSlot 0

/-- `(USER_ROOT_SLOT << 30) | (i1 << 21) | (i0 << 12)`. -/
def userVa (i1 i0 : ℕ) : ℕ := (userRootSlot <<< 30) ||| (i1 <<< 21) ||| (i0 <<< 12)

/-- The permissions a forked page inherits. -/
def pteFlags (pte : ℕ) : ℕ := pte &&& (pteR ||| pteW ||| pteX ||| pteU)

/-- Duplicate one page of the source into `dst`. -/
def clonePage (dst va e0 : ℕ) : MachineM (Except String Unit) := do
  match ← pageAlloc 1 with
  | none => return .error "fork: out of memory"
  | some frame =>
    modify fun m => { m with mem := copyBytes m.mem (pteAddr e0) frame pageSize }
    PageTable.map dst va frame (pteFlags e0)

/-- Deep-copy the user slot of `src` into `dst`. -/
def cloneUserSpace (src dst : ℕ) : MachineM (Except String Unit) := do
  let m ← get
  let rootEntry := m.pte src userRootSlot
  if !pteValid rootEntry then return .ok ()
  let l1 := pteAddr rootEntry
  Prog.tryEach (fun i1 => do
    let m ← get
    let e1 := m.pte l1 i1
    if !pteValid e1 then return .ok ()
    let l0 := pteAddr e1
    Prog.tryEach (fun i0 => do
      let m ← get
      let e0 := m.pte l0 i0
      if !pteValid e0 then return .ok ()
      clonePage dst (userVa i1 i0) e0) (List.range 512)) (List.range 512)

end LightOS
