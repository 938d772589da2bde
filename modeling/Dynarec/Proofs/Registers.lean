/-
  Dynarec.Proofs.Registers

  Reading back what was written to the register file. The 34 registers sit in
  cells of their own; higher numbers share the cells of the general registers
  and are never used by generated code.
-/
import Dynarec.Registers

namespace Dynarec

namespace Reg

/-- The number of a register that has a cell of its own. -/
def IsOwn (r : Reg) : Prop := r.toNat < 34

instance (r : Reg) : Decidable r.IsOwn := inferInstanceAs (Decidable (_ < _))

theorem isOwn_lo : lo.IsOwn := by decide

theorem isOwn_hi : hi.IsOwn := by decide

theorem isOwn_ra : ra.IsOwn := by decide

end Reg

namespace Instruction

/-- The five bits of a register field name a general register. -/
theorem toNat_field_lt (w : UInt32) : ((w &&& 0x1f).toUInt8).toNat < 32 := by
  rw [UInt32.toNat_toUInt8, UInt32.toNat_and]
  have h : w.toNat &&& (0x1f : UInt32).toNat ≤ 31 := Nat.and_le_right
  omega

variable (i : Instruction)

theorem toNat_rs_lt : i.rs.toNat < 32 := toNat_field_lt _

theorem toNat_rt_lt : i.rt.toNat < 32 := toNat_field_lt _

theorem toNat_rd_lt : i.rd.toNat < 32 := toNat_field_lt _

theorem isOwn_rs : i.rs.IsOwn := Nat.lt_trans i.toNat_rs_lt (by decide)

theorem isOwn_rt : i.rt.IsOwn := Nat.lt_trans i.toNat_rt_lt (by decide)

theorem isOwn_rd : i.rd.IsOwn := Nat.lt_trans i.toNat_rd_lt (by decide)

end Instruction

namespace Registers

/-- A register of its own sits in the cell of its number. -/
theorem cell_val {r : Reg} (h : r.IsOwn) : (cell r).val = r.toNat := by
  unfold cell
  split
  · rename_i hlo
    rw [hlo]
    rfl
  · rename_i hlo
    split
    · rename_i hhi
      rw [hhi]
      rfl
    · rename_i hhi
      have hlo' : r.toNat ≠ 32 := fun e => hlo (UInt8.toNat_inj.mp e)
      have hhi' : r.toNat ≠ 33 := fun e => hhi (UInt8.toNat_inj.mp e)
      have hlt : r.toNat < 32 := by
        unfold Reg.IsOwn at h
        omega
      show (r &&& 31).toNat = r.toNat
      rw [UInt8.toNat_and]
      exact (Nat.and_two_pow_sub_one_eq_mod r.toNat 5).trans (Nat.mod_eq_of_lt hlt)

theorem cell_inj {q r : Reg} (hq : q.IsOwn) (hr : r.IsOwn) (h : cell q = cell r) : q = r := by
  apply UInt8.toNat_inj.mp
  rw [← cell_val hq, ← cell_val hr, h]

@[simp] theorem set_zero (regs : Registers) (v : UInt32) : regs.set 0 v = regs := by
  simp [set]

theorem get_set_self {r : Reg} (h0 : r ≠ 0) (regs : Registers) (v : UInt32) :
    (regs.set r v).get r = v := by
  simp [get, set, h0]

theorem get_set_of_ne {q r : Reg} (hq : q.IsOwn) (hr : r.IsOwn) (h : q ≠ r) (regs : Registers)
    (v : UInt32) : (regs.set r v).get q = regs.get q := by
  unfold set
  split
  · rfl
  · have hc : cell q ≠ cell r := fun e => h (cell_inj hq hr e)
    exact regs.cells.getElem_set_of_ne hc v

/-- Two register files with the same 34 values are the same. -/
theorem ext_get {a b : Registers} (h : ∀ r : Reg, r.IsOwn → a.get r = b.get r) : a = b := by
  cases a with
  | mk x =>
    cases b with
    | mk y =>
      have hxy : x = y := by
        apply Cells.ext_getElem
        intro i
        have hown : Reg.IsOwn (UInt8.ofNat i.val) := by
          unfold Reg.IsOwn
          rw [UInt8.toNat_ofNat']
          omega
        have hcell : cell (UInt8.ofNat i.val) = i := by
          apply Fin.ext
          rw [cell_val hown, UInt8.toNat_ofNat']
          omega
        have := h (UInt8.ofNat i.val) hown
        simpa only [get, hcell] using this
      rw [hxy]

/-- Writing the value a register has changes nothing. -/
theorem set_get_self {r : Reg} (hr : r.IsOwn) (regs : Registers) : regs.set r (regs.get r) = regs := by
  apply ext_get
  intro q hq
  by_cases h : q = r
  · subst h
    by_cases h0 : q = 0
    · rw [h0, set_zero]
    · rw [get_set_self h0]
  · rw [get_set_of_ne hq hr h]

/-- The later of two writes to one register counts. -/
theorem set_set_self (regs : Registers) (r : Reg) (v w : UInt32) :
    (regs.set r v).set r w = regs.set r w := by
  unfold set
  split
  · rfl
  · simp

theorem set_comm {q r : Reg} (hq : q.IsOwn) (hr : r.IsOwn) (h : q ≠ r) (regs : Registers)
    (v w : UInt32) : (regs.set q v).set r w = (regs.set r w).set q v := by
  unfold set
  have hc : cell q ≠ cell r := fun e => h (cell_inj hq hr e)
  split
  · rfl
  · split
    · rfl
    · congr 1
      exact regs.cells.set_comm hc v w

end Registers

end Dynarec
