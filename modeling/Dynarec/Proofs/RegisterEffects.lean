/-
  Dynarec.Proofs.RegisterEffects

  Which registers an instruction changes.

  An instruction changes the registers that it writes and no others, and what
  goes to register zero is lost. Of the general registers this leaves the
  destination. LO and HI are written by the moves to them and by products and
  quotients, all of them in the register-register group.
-/
import Dynarec.Proofs.Machine.Time
import Dynarec.Proofs.Registers

namespace Dynarec

/-- Registers that the instruction can change. What is written to register zero is lost. -/
def Instruction.written (i : Instruction) : List Reg :=
  match i.operation with
  | .mulDiv _ => [.lo, .hi]
  | .moveToHi => [.hi]
  | .moveToLo => [.lo]
  | .unknown => []
  | _ => i.destination?.toList

namespace Interpreter

variable {δ κ : Type} {r d : Reg}

theorem setReg_zero (m : Machine δ κ) (v : UInt32) : m.setReg 0 v = m := by
  simp [Machine.setReg]

theorem get_setReg (hr : r.IsOwn) (hd : d.IsOwn) (h : r = d → r = 0) (m : Machine δ κ)
    (v : UInt32) : (m.setReg d v).regs.get r = m.regs.get r := by
  by_cases heq : r = d
  · rw [← heq, h heq, setReg_zero]
  · exact Registers.get_set_of_ne hr hd heq m.regs v

theorem get_zero_setReg (hd : d.IsOwn) (m : Machine δ κ) (v : UInt32) :
    (m.setReg d v).regs.get 0 = m.regs.get 0 :=
  get_setReg (by decide) hd (fun _ => rfl) m v

variable [Device δ] [Coprocessor κ] {i : Instruction}

/-- An instruction leaves the registers alone that it does not write. -/
theorem get_execute (hr : r.IsOwn) (h : r ∈ i.written → r = 0) (m : Machine δ κ) (pc : UInt32) :
    (execute m i pc).machine.regs.get r = m.regs.get r := by
  have hset {d : Reg} (hd : d.IsOwn) (hzero : r ∈ [d] → r = 0) (m : Machine δ κ) (v : UInt32) :
      (m.setReg d v).regs.get r = m.regs.get r :=
    get_setReg hr hd (fun heq => hzero (List.mem_singleton.mpr heq)) m v
  unfold Instruction.written at h
  rw [Instruction.destination?_eq] at h
  unfold Operation.destination? at h
  rw [execute_eq]
  unfold executeOperation
  cases hop : i.operation with rw [hop] at h
  | shift | shiftVariable | jumpLinkRegister | moveFromHi | moveFromLo | alu =>
    exact hset i.isOwn_rd h m _
  | aluImmediate | loadUpper => exact hset i.isOwn_rt h m _
  | moveToHi => exact hset Reg.isOwn_hi h m _
  | moveToLo => exact hset Reg.isOwn_lo h m _
  | jumpLink => exact hset Reg.isOwn_ra h m _
  | mulDiv kind =>
    -- two registers are written, neither of which is `r`
    have hlo (heq : r = .lo) : r = 0 := h (by simp [heq])
    have hhi (heq : r = .hi) : r = 0 := h (by simp [heq])
    exact (get_setReg hr Reg.isOwn_hi hhi _ _).trans (get_setReg hr Reg.isOwn_lo hlo m _)
  | syscall | breakpoint | unknown => rfl
  | branch condition link =>
    have hlink : (if link then m.setReg .ra (pc + 8) else m).regs.get r = m.regs.get r := by
      cases link with
      | false => rfl
      | true => exact hset Reg.isOwn_ra h m _
    dsimp only
    split
    · exact hlink
    · exact hlink
  | copRead control =>
    dsimp only
    rw [hset i.isOwn_rt h, m.regs_copRead]
  | copWrite control =>
    dsimp only
    rw [m.regs_copWrite]
  | copExecute =>
    dsimp only
    rw [m.regs_copExecute]
  | memory access =>
    have hregs := m.regs_transfer i (m.regs.get i.rs) (m.regs.get i.rt)
    dsimp only [executeAccess] at h ⊢
    split
    · rw [hregs]
    · split
      · rw [hregs]
      · rename_i hload
        rw [if_neg hload] at h
        rw [hset i.isOwn_rt h, hregs]

/-- No instruction changes register zero. -/
theorem get_zero_execute (m : Machine δ κ) (i : Instruction) (pc : UInt32) :
    (execute m i pc).machine.regs.get 0 = m.regs.get 0 :=
  get_execute (by decide) (fun _ => rfl) m pc

/-- An instruction without effect has none. -/
theorem execute_of_isNop {i : Instruction} (hi : i.isNop = true) (m : Machine δ κ) (pc : UInt32) :
    execute m i pc = { machine := m } := by
  have hset : ∀ {r} v, (r == 0) = true →
      ({ machine := m.setReg r v } : Executed δ κ) = { machine := m } := by
    intro r v hr
    rw [beq_iff_eq.mp hr, setReg_zero]
  rw [Instruction.isNop_eq] at hi
  rcases Bool.or_eq_true_iff.mp hi with hw | ho
  · obtain ⟨w⟩ := i
    have hw : w = 0 := beq_iff_eq.mp hw
    subst hw
    exact hset _ rfl
  · rw [execute_eq]
    unfold executeOperation
    cases hop : i.operation with
    | shift | shiftVariable | moveFromHi | moveFromLo | loadUpper =>
      rw [hop] at ho
      exact hset _ ho
    | alu kind trapping | aluImmediate kind trapping =>
      rw [hop] at ho
      cases trapping with
      | false => exact hset _ ho
      | true => cases ho
    | _ =>
      rw [hop] at ho
      cases ho

end Interpreter

/-! ## What is written -/

namespace Instruction

variable {i : Instruction} {r : Reg}

/-- Registers that can change are the destination, LO and HI. -/
theorem mem_written_cases (h : r ∈ i.written) : r.toNat < 32 ∧ i.destination? = some r ∨
    r = .lo ∧ (i.operation = .moveToLo ∨ ∃ kind, i.operation = .mulDiv kind) ∨
    r = .hi ∧ (i.operation = .moveToHi ∨ ∃ kind, i.operation = .mulDiv kind) := by
  -- where a destination is reported at all it is a general register, but for products and quotients
  have hdest {q : Reg} (hq : q.toNat < 32) (hd : i.destination? = some q)
      (hmem : r ∈ i.destination?.toList) : r.toNat < 32 ∧ i.destination? = some r := by
    rw [hd, Option.mem_toList] at hmem
    exact ⟨Option.some.inj hmem ▸ hq, hd.trans hmem⟩
  unfold written at h
  cases hop : i.operation with rw [hop] at h
  | moveToHi => exact .inr (.inr ⟨List.mem_singleton.mp h, .inl rfl⟩)
  | moveToLo => exact .inr (.inl ⟨List.mem_singleton.mp h, .inl rfl⟩)
  | mulDiv kind =>
    rcases List.mem_cons.mp h with hlo | hhi
    · exact .inr (.inl ⟨hlo, .inr ⟨kind, rfl⟩⟩)
    · exact .inr (.inr ⟨List.mem_singleton.mp hhi, .inr ⟨kind, rfl⟩⟩)
  | shift | shiftVariable | jumpLinkRegister | moveFromHi | moveFromLo | alu =>
    exact .inl (hdest i.toNat_rd_lt (by rw [destination?_eq, hop]; rfl) h)
  | aluImmediate | loadUpper | copRead =>
    exact .inl (hdest i.toNat_rt_lt (by rw [destination?_eq, hop]; rfl) h)
  | jumpLink => exact .inl (hdest (q := .ra) (by decide) (by rw [destination?_eq, hop]; rfl) h)
  | branch condition link =>
    cases link with
    | true => exact .inl (hdest (q := .ra) (by decide) (by rw [destination?_eq, hop]; rfl) h)
    | false => simp [destination?_eq, Operation.destination?, hop] at h
  | memory access =>
    by_cases hstore : (access.isStore || access = .lwc2) = true
    · simp [destination?_eq, Operation.destination?, hop, hstore] at h
    · exact .inl (hdest i.toNat_rt_lt (by rw [destination?_eq, hop]; exact if_neg hstore) h)
  | jumpRegister | syscall | breakpoint | jump | copWrite | copExecute | unknown =>
    simp [destination?_eq, Operation.destination?, hop] at h

/-- What changes one of LO and HI is the move to it, a product or a quotient. -/
theorem funct_of_writes_hiLo {o : Operation} {code : UInt8} (ho : o = .moveToHi ∨ o = .moveToLo)
    (hcode : specialOperation i.funct = o → i.funct = code)
    (h : i.operation = o ∨ ∃ kind, i.operation = .mulDiv kind) :
    i.op = 0 ∧ i.funct ∈ [code, 0x18, 0x19, 0x1a, 0x1b] := by
  have hspecial : i.op = 0 ∧ i.operation = specialOperation i.funct := by
    apply special_of_writes_hiLo
    rcases ho with rfl | rfl
    · exact h.imp_right .inr
    · exact .inr h
  rw [hspecial.2] at h
  refine ⟨hspecial.1, ?_⟩
  rcases h with hmove | ⟨kind, hmul⟩
  · exact List.mem_cons.mpr (.inl (hcode hmove))
  · exact List.mem_cons_of_mem _ (funct_of_specialOperation.2.2 kind hmul)

end Instruction

namespace Interpreter

variable {δ κ : Type} [Device δ] [Coprocessor κ]

/-- An instruction changes no general register but its destination. -/
theorem get_execute_of_ne {i : Instruction} {r : Reg} (hr : r.toNat < 32)
    (h : i.destination? ≠ some r) (m : Machine δ κ) (pc : UInt32) :
    (execute m i pc).machine.regs.get r = m.regs.get r := by
  refine get_execute (Nat.lt_trans hr (by decide)) (fun hmem => ?_) m pc
  rcases Instruction.mem_written_cases hmem with ⟨-, hd⟩ | ⟨heq, -⟩ | ⟨heq, -⟩
  · exact absurd hd h
  · exact absurd hr (by rw [heq]; decide)
  · exact absurd hr (by rw [heq]; decide)

/-- An instruction changes no general register but its destination, LO and HI only where it moves to
them, multiplies or divides, and register zero never. One that counts as having no effect changes
nothing at all. -/
theorem execute_changes_only_destination (m : Machine δ κ) (i : Instruction) (pc : UInt32) :
    (∀ r : Reg, 1 ≤ r.toNat → r.toNat < 32 → i.destination? ≠ some r →
      (execute m i pc).machine.regs.get r = m.regs.get r) ∧
    (¬(i.op = 0 ∧ i.funct ∈ [0x13, 0x18, 0x19, 0x1a, 0x1b]) →
      (execute m i pc).machine.regs.get .lo = m.regs.get .lo) ∧
    (¬(i.op = 0 ∧ i.funct ∈ [0x11, 0x18, 0x19, 0x1a, 0x1b]) →
      (execute m i pc).machine.regs.get .hi = m.regs.get .hi) ∧
    (execute m i pc).machine.regs.get 0 = m.regs.get 0 ∧
    (i.isNop = true → execute m i pc = { machine := m, step := .next, access := none }) := by
  refine ⟨fun r _ hr hd => get_execute_of_ne hr hd m pc, ?_, ?_, get_zero_execute m i pc,
    fun hnop => execute_of_isNop hnop m pc⟩
  · intro hlo
    refine get_execute Reg.isOwn_lo (fun hmem => absurd ?_ hlo) m pc
    rcases Instruction.mem_written_cases hmem with ⟨hlt, -⟩ | ⟨-, hop⟩ | ⟨heq, -⟩
    · exact absurd hlt (by decide)
    · exact Instruction.funct_of_writes_hiLo (.inr rfl)
        Instruction.funct_of_specialOperation.2.1 hop
    · exact absurd heq (by decide)
  · intro hhi
    refine get_execute Reg.isOwn_hi (fun hmem => absurd ?_ hhi) m pc
    rcases Instruction.mem_written_cases hmem with ⟨hlt, -⟩ | ⟨heq, -⟩ | ⟨-, hop⟩
    · exact absurd hlt (by decide)
    · exact absurd heq (by decide)
    · exact Instruction.funct_of_writes_hiLo (.inl rfl) Instruction.funct_of_specialOperation.1 hop

/-- A division reports LO as its destination and leaves the general registers alone; a sum that goes
to register zero leaves everything alone. -/
theorem execute_changes_only_destination_divu :
    (Instruction.mk 0x0043001b).destination? = some .lo ∧
    (execute (Machine.withBudget 8) ⟨0x0043001b⟩ 0).machine.regs.get 3 =
      (Machine.withBudget 8).regs.get 3 ∧
    (Instruction.mk 0x00430021).isNop = true ∧
    execute (Machine.withBudget 8) ⟨0x00430021⟩ 0 = { machine := Machine.withBudget 8 } :=
  ⟨by decide,
    (execute_changes_only_destination (Machine.withBudget 8) ⟨0x0043001b⟩ 0).1 3 (by decide)
      (by decide) (by decide),
    by decide,
    (execute_changes_only_destination (Machine.withBudget 8) ⟨0x00430021⟩ 0).2.2.2.2 (by decide)⟩

end Interpreter

end Dynarec
