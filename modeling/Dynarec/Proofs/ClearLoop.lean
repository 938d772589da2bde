/-
  Dynarec.Proofs.ClearLoop

  Clearing memory at once is running the loop that clears it.

  `Machine.memset` fills a stretch of bytes after one look at its bounds; the
  guest loop resolves and stores word by word, with its count latched in front
  of a delay slot that moves the address. The loop is followed instruction by
  instruction: `Done` says which part of the work a machine has behind it, `At`
  says where in the loop a cursor stands with it, and each instruction has a
  lemma that takes it one further. Four of them make a round, and an induction
  over the rounds leads to the end. There memory and registers are what the
  filling at once leaves.
-/
import Dynarec.Block.Annotate
import Dynarec.Proofs.Host.Path
import Dynarec.Proofs.Memory

namespace Dynarec

/-! ## Bytes and words -/

theorem toUInt32_toNat_mul_four (w : UInt32) : (w.toNat * 4).toUInt32 = 4 * w := by
  rw [UInt32.mul_comm]
  apply UInt32.toNat_inj.mp
  rw [UInt32.toNat_mul]
  rfl

/-- Counting down from a word ends at its value. -/
theorem sub_toUInt32_eq_zero_iff {x : UInt32} {k : Nat} (hk : k ≤ x.toNat) :
    x - k.toUInt32 = 0 ↔ k = x.toNat := by
  constructor
  · intro h
    have hx : x = k.toUInt32 := by grind
    have hlt := x.toNat_lt
    have hnat := congrArg UInt32.toNat hx
    rw [UInt32.toNat_ofNat_of_lt' (by
      rw [UInt32.size]
      omega)] at hnat
    exact hnat.symm
  · rintro rfl
    rw [Nat.toUInt32_eq, UInt32.ofNat_toNat, UInt32.sub_self]

namespace Bytes

/-- Filling goes on where it ended. -/
theorem fill_add (v : UInt8) (m n i : Nat) (data : ByteArray) :
    fill v (m + n) i data = fill v n (i + m) (fill v m i data) := by
  induction m generalizing i data with
  | zero => simp [fill]
  | succ m ih =>
    rw [Nat.add_right_comm, fill, ih, fill]
    congr 1
    omega

/-- Storing the word zero clears four bytes. -/
theorem setWord_zero (data : ByteArray) (i : Nat) : setWord data i 0 = fill 0 4 i data := rfl

end Bytes

namespace Memory

variable {δ : Type} (m : Memory δ)

theorem modifyBytes_modifyBytes (index : Nat) (f g : ByteArray → ByteArray) :
    (m.modifyBytes index f).modifyBytes index g = m.modifyBytes index fun data => g (f data) := by
  unfold modifyBytes
  dsimp only
  congr 1
  apply Array.ext_getElem?
  intro i
  simp only [Array.getElem?_modify]
  split
  · cases m.contents[i]? with
    | none => rfl
    | some content => cases content <;> rfl
  · rfl

/-- Memory with `n` words of a region cleared, from the offset `start` on. -/
def cleared (m : Memory δ) (region start n : Nat) : Memory δ :=
  m.modifyBytes region (Bytes.fill 0 (4 * n) start)

theorem cleared_zero (region start : Nat) : m.cleared region start 0 = m := by
  unfold cleared modifyBytes
  cases m with
  | mk layout contents =>
    congr 1
    apply Array.ext_getElem?
    intro i
    rw [Array.getElem?_modify]
    split
    · cases contents[i]? with
      | none => rfl
      | some content => cases content <;> rfl
    · rfl

/-- Storing zero behind the words that are cleared clears one more. -/
theorem cleared_succ (region start n : Nat) : (m.cleared region start n).modifyBytes region
      (fun data => Bytes.setWord data (start + 4 * n) 0) = m.cleared region start (n + 1) := by
  have hfill : (fun data => Bytes.setWord (Bytes.fill 0 (4 * n) start data) (start + 4 * n) 0) =
      Bytes.fill 0 (4 * (n + 1)) start := by
    funext data
    rw [Bytes.setWord_zero, ← Bytes.fill_add]
    rfl
  unfold cleared
  rw [modifyBytes_modifyBytes, hfill]

theorem layout_cleared (region start n : Nat) : (m.cleared region start n).layout = m.layout := rfl

theorem size?_cleared (region start n i : Nat) : (m.cleared region start n).size? i = m.size? i :=
  (m.sameExcept_modifyBytes region (Bytes.local_fill 0 (4 * n) start)).size i

end Memory

/-- Region and offset of the memory behind an address. -/
def Layout.direct? (l : Layout) (addr : UInt32) : Option (Nat × Nat) :=
  match l.resolve addr with
  | .ok r => if r.kind = .direct then some (r.index, r.offset.toNat) else none
  | .error _ => none

theorem Layout.resolve_of_direct? {l : Layout} {addr : UInt32} {region offset : Nat}
    (h : l.direct? addr = some (region, offset)) :
    ∃ r, l.resolve addr = .ok r ∧ r.kind = .direct ∧ r.index = region ∧
      r.offset.toNat = offset := by
  unfold direct? at h
  cases hr : l.resolve addr with
  | error fault =>
    rw [hr] at h
    cases h
  | ok r =>
    rw [hr] at h
    dsimp only at h
    split at h
    · rename_i hkind
      cases h
      exact ⟨r, rfl, hkind, rfl, rfl⟩
    · cases h

namespace Machine

variable {δ κ : Type}

/-! ## Clearing at once -/

variable (m : Machine δ κ) (addr length : UInt32)

theorem regs_invalidateByGuest : (m.invalidateByGuest addr length).regs = m.regs := by
  unfold invalidateByGuest
  split <;> rfl

theorem memory_invalidateByGuest : (m.invalidateByGuest addr length).memory = m.memory := by
  unfold invalidateByGuest
  split <;> rfl

theorem clock_invalidateByGuest : (m.invalidateByGuest addr length).clock = m.clock := by
  unfold invalidateByGuest
  split <;> rfl

/-- The `$a1` words at `$a0` can be cleared: they are the writable bytes of `region` from
`start` on. -/
structure MayClear (m : Machine δ κ) (region start : Nat) : Prop where
  count : m.regs.get .a1 ≠ 0
  direct : m.memory.layout.direct? (m.regs.get .a0) = some (region, start)
  writable : m.memory.layout.isReadOnly region = false
  fits : ∃ limit, m.memory.size? region = some limit ∧ start + 4 * (m.regs.get .a1).toNat ≤ limit

/-- Clearing at once declines and changes nothing, or clears the words and leaves the address
behind the last of them and a count of zero. -/
theorem memset_cases : m.memset = (none, m) ∨
    ∃ region start, m.MayClear region start ∧ m.memset.1.isSome = true ∧
      m.memset.2.regs =
        (m.regs.set .a0 (m.regs.get .a0 + 4 * m.regs.get .a1)).set .a1 0 ∧
      m.memset.2.memory = m.memory.cleared region start (m.regs.get .a1).toNat := by
  unfold memset
  dsimp only
  split
  · exact .inl rfl
  · rename_i hcount
    split
    · exact .inl rfl
    · rename_i r hr
      split
      · exact .inl rfl
      · rename_i hkind
        split
        · exact .inl rfl
        · rename_i limit hlimit
          split
          · rename_i hfits
            simp only [Bool.or_eq_true, decide_eq_true_eq, not_or] at hcount hkind
            -- nothing declined, so every condition is met
            refine .inr ⟨r.index, r.offset.toNat, ⟨hcount.1, ?_, ?_, limit, hlimit, ?_⟩, rfl, ?_, ?_⟩
            · have hdirect : r.kind = .direct := by
                cases hk : r.kind with
                | direct => rfl
                | device => exact absurd hk hkind.1
              unfold Layout.direct?
              rw [hr]
              exact if_pos hdirect
            · exact Bool.not_eq_true _ ▸ hkind.2
            · omega
            · show ((invalidateByGuest _ _ _).regs.set .a0 _).set .a1 0 = _
              rw [regs_invalidateByGuest, toUInt32_toNat_mul_four]
            · show (invalidateByGuest _ _ _).memory = _
              rw [memory_invalidateByGuest, Nat.mul_comm]
              rfl
          · exact .inl rfl

theorem memset_eq_of_declined {m m' : Machine δ κ} (h : m.memset = (none, m')) : m' = m := by
  rcases m.memset_cases with hdeclined | ⟨-, -, -, hsome, -, -⟩
  · cases h.symm.trans hdeclined
    rfl
  · rw [h] at hsome
    cases hsome

theorem mayClear_of_memset {m : Machine δ κ} (h : m.memset.1.isSome = true) :
    ∃ region start, m.MayClear region start ∧
      m.memset.2.regs =
        (m.regs.set .a0 (m.regs.get .a0 + 4 * m.regs.get .a1)).set .a1 0 ∧
      m.memset.2.memory = m.memory.cleared region start (m.regs.get .a1).toNat := by
  rcases m.memset_cases with hdeclined | ⟨region, start, hmay, -, hleaves⟩
  · rw [hdeclined] at h
    cases h
  · exact ⟨region, start, hmay, hleaves⟩

end Machine

/-! ## The loop -/

open Interpreter (Cursor Executed execute execute_eq executeOperation cyclesPerOp indexIn? toUInt32_succ)

/-- The first four instructions clear `$a1` words at `$a0`: clear and count in either order, branch
back while the count is not zero, advance in the delay slot. -/
structure IsClearLoop (base : UInt32) (ops : Array Op) : Prop where
  size : 4 ≤ ops.size
  body :
    Annotate.isClear (ops.getD 0 default).instr = true ∧
      Annotate.isCount (ops.getD 1 default).instr = true ∨
    Annotate.isCount (ops.getD 0 default).instr = true ∧
      Annotate.isClear (ops.getD 1 default).instr = true
  branch : (ops.getD 2 default).instr.operation = .branch .ne false ∧
    (ops.getD 2 default).instr.rs = .a1 ∧ (ops.getD 2 default).instr.rt = 0
  target : (ops.getD 2 default).instr.branchTarget? (base + 8) = some base
  advance : Annotate.isAdvance (ops.getD 3 default).instr = true

/-- The words that a machine is to clear lie one behind the other. -/
def Machine.InLine {δ κ : Type} (m : Machine δ κ) (region start : Nat) : Prop :=
  ∀ k < (m.regs.get .a1).toNat,
    m.memory.layout.direct? (m.regs.get .a0 + 4 * k.toUInt32) = some (region, start + 4 * k)

/-- The first of the words is where clearing at once begins. -/
theorem Machine.MayClear.inLine {δ κ : Type} {m : Machine δ κ} {region start region' start' : Nat}
    (h : m.MayClear region start) (hline : m.InLine region' start') : m.InLine region start := by
  have hpos : 0 < (m.regs.get .a1).toNat :=
    Nat.pos_of_ne_zero fun hzero => h.count (UInt32.toNat_inj.mp hzero)
  have hfirst := hline 0 hpos
  rw [show m.regs.get .a0 + 4 * (0 : Nat).toUInt32 = m.regs.get .a0 from UInt32.add_zero _,
    h.direct] at hfirst
  cases hfirst
  exact hline

/-- The budget is not used up where any but the last of `rounds` rounds of four instructions
ends. -/
def Clock.Lasts (c : Clock) (rounds : Nat) : Prop :=
  ∀ k < rounds, 0 < k → (c.add (8 * k.toUInt32)).exhausted = false

/-- A loop that is about to clear words it can clear. -/
structure ClearLoop (δ κ : Type) where
  machine : Machine δ κ
  base : UInt32
  ops : Array Op
  region : Nat
  start : Nat
  size : ops.size ≤ 65536
  loops : IsClearLoop base ops
  zero : machine.regs.get 0 = 0
  quiet : machine.clock.exit.isNormal = true
  mayClear : machine.MayClear region start
  inLine : machine.InLine region start
  lasts : machine.clock.Lasts (machine.regs.get .a1).toNat

namespace ClearLoop

variable {δ κ : Type}

/-- How often each part of the loop has been done, and how many instructions have run. -/
structure Work where
  cleared : Nat := 0
  counted : Nat := 0
  advanced : Nat := 0
  ran : Nat := 0

/-- The work of whole rounds. -/
def Work.rounds (k : Nat) : Work := ⟨k, k, k, 4 * k⟩

/-- The work has been done on the machine. -/
structure Done (L : ClearLoop δ κ) (w : Work) (m : Machine δ κ) : Prop where
  regs : m.regs =
    (L.machine.regs.set .a0 (L.machine.regs.get .a0 + 4 * w.advanced.toUInt32)).set .a1
      (L.machine.regs.get .a1 - w.counted.toUInt32)
  memory : m.memory = L.machine.memory.cleared L.region L.start w.cleared
  clock : m.clock = L.machine.clock.add (2 * w.ran.toUInt32)

variable {L : ClearLoop δ κ} {w : Work} {m : Machine δ κ}

theorem Done.a0 (h : L.Done w m) :
    m.regs.get .a0 = L.machine.regs.get .a0 + 4 * w.advanced.toUInt32 := by
  rw [h.regs, Registers.get_set_of_ne (by decide) (by decide) (by decide),
    Registers.get_set_self (by decide)]

theorem Done.a1 (h : L.Done w m) :
    m.regs.get .a1 = L.machine.regs.get .a1 - w.counted.toUInt32 := by
  rw [h.regs, Registers.get_set_self (by decide)]

/-- All other registers keep their values. -/
theorem Done.other (h : L.Done w m) {r : Reg} (hr : r.IsOwn) (h0 : r ≠ .a0) (h1 : r ≠ .a1) :
    m.regs.get r = L.machine.regs.get r := by
  rw [h.regs, Registers.get_set_of_ne hr (by decide) h1, Registers.get_set_of_ne hr (by decide) h0]

theorem Done.zero (h : L.Done w m) : m.regs.get 0 = 0 :=
  (h.other (by decide) (by decide) (by decide)).trans L.zero

theorem done_start (L : ClearLoop δ κ) : L.Done {} L.machine where
  regs := by
    show _ = (L.machine.regs.set .a0 (_ + 0)).set .a1 (_ - 0)
    rw [UInt32.add_zero, UInt32.sub_zero, Registers.set_get_self (by decide),
      Registers.set_get_self (by decide)]
  memory := (Memory.cleared_zero _ _ _).symm
  clock := by
    show _ = { L.machine.clock with current := L.machine.clock.current + 0 }
    rw [UInt32.add_zero]

/-- No reason to leave comes up. -/
theorem Done.segfault (h : L.Done w m) : m.clock.exit.segfault = false := by
  have hquiet := L.quiet
  rw [h.clock]
  show L.machine.clock.exit.segfault = false
  unfold ExitFlags.isNormal at hquiet
  grind

theorem Done.tick (h : L.Done w m) : L.Done { w with ran := w.ran + 1 } (m.tick cyclesPerOp) where
  regs := h.regs
  memory := h.memory
  clock := by
    show m.clock.add 2 = L.machine.clock.add (2 * (w.ran + 1).toUInt32)
    rw [h.clock, toUInt32_succ, UInt32.mul_add, UInt32.mul_one]
    unfold Clock.add
    dsimp only
    rw [UInt32.add_assoc]

/-! ## Its instructions -/

section Instructions

variable [Device δ] [Coprocessor κ] {i : Instruction}

omit [Device δ] [Coprocessor κ] in
theorem operation_addiu (hop : i.op = 0x09) : i.operation = .aluImmediate .add false := by
  simp [Instruction.operation, hop]

theorem execute_count (h : L.Done w m) (hi : Annotate.isCount i = true) (pc : UInt32) :
    (execute m i pc).step = .next ∧
      L.Done { w with counted := w.counted + 1 } (execute m i pc).machine := by
  simp only [Annotate.isCount, Bool.and_eq_true, beq_iff_eq] at hi
  obtain ⟨⟨⟨hop, hrs⟩, hrt⟩, himm⟩ := hi
  have hrun : execute m i pc = { machine := m.setReg .a1 (m.regs.get .a1 + 0xffffffff) } := by
    rw [execute_eq, operation_addiu hop]
    dsimp only [executeOperation]
    rw [hrs, hrt, ← himm]
    rfl
  rw [hrun]
  refine ⟨rfl, ?_, h.memory, h.clock⟩
  show m.regs.set .a1 (m.regs.get .a1 + 0xffffffff) = _
  have hvalue : m.regs.get .a1 + 0xffffffff =
      L.machine.regs.get .a1 - (w.counted + 1).toUInt32 := by
    rw [h.a1, toUInt32_succ]
    grind
  rw [hvalue, h.regs, Registers.set_set_self]

theorem execute_advance (h : L.Done w m) (hi : Annotate.isAdvance i = true) (pc : UInt32) :
    (execute m i pc).step = .next ∧
      L.Done { w with advanced := w.advanced + 1 } (execute m i pc).machine := by
  simp only [Annotate.isAdvance, Bool.and_eq_true, beq_iff_eq] at hi
  obtain ⟨⟨⟨hop, hrs⟩, hrt⟩, himm⟩ := hi
  have hrun : execute m i pc = { machine := m.setReg .a0 (m.regs.get .a0 + 4) } := by
    rw [execute_eq, operation_addiu hop]
    dsimp only [executeOperation]
    rw [hrs, hrt, ← himm]
    rfl
  rw [hrun]
  refine ⟨rfl, ?_, h.memory, h.clock⟩
  show m.regs.set .a0 (m.regs.get .a0 + 4) = _
  rw [h.a0, h.regs, Registers.set_comm (by decide) (by decide) (by decide), Registers.set_set_self,
    toUInt32_succ, UInt32.mul_add, UInt32.mul_one, UInt32.add_assoc]

/-- What a store of a word to writable memory does. -/
theorem transfer_sw (hop : i.operation = .memory .sw) {base : UInt32} {r : Resolved}
    (hr : m.memory.layout.resolve (base + i.simm) = .ok r) (hkind : r.kind = .direct)
    (hwritable : m.memory.layout.isReadOnly r.index = false) {limit : Nat}
    (hlimit : m.memory.size? r.index = some limit) (hfits : r.offset.toNat + 4 ≤ limit)
    (data : UInt32) :
    m.transfer i base data =
      { value := 0
        kind := some .direct
        machine :=
          { m with
            memory := m.memory.modifyBytes r.index fun bytes =>
              Bytes.setWord bytes r.offset.toNat data }.invalidateByGuest r.paddr 4 } := by
  have hfits' : r.offset.toNat + AccessSize.word.bytes ≤ limit := hfits
  rw [Machine.transfer_of_some (Instruction.memoryAccess?_of_operation hop)]
  dsimp only [Machine.supply, Machine.access]
  rw [hr]
  dsimp only [Machine.plainStore, Machine.store]
  rw [hkind, hwritable, hlimit]
  dsimp only
  rw [if_neg Bool.false_ne_true, if_pos hfits']
  rfl

omit [Device δ] [Coprocessor κ] in
theorem simm_eq_zero (hi : i.imm = 0) : i.simm = 0 := by
  have hnat := congrArg UInt32.toNat hi
  have hlow : i.word.toUInt16 = 0 := by
    apply UInt16.toNat_inj.mp
    rw [UInt32.toNat_toUInt16]
    have hmod := Nat.and_two_pow_sub_one_eq_mod i.word.toNat 16
    rw [Instruction.imm, UInt32.toNat_and] at hnat
    exact hmod.symm.trans hnat
  unfold Instruction.simm
  rw [hlow]
  rfl

theorem execute_clear (h : L.Done w m) (hi : Annotate.isClear i = true)
    (hplace : w.advanced = w.cleared) (hleft : w.cleared < (L.machine.regs.get .a1).toNat)
    (pc : UInt32) :
    (execute m i pc).step = .next ∧
      L.Done { w with cleared := w.cleared + 1 } (execute m i pc).machine := by
  simp only [Annotate.isClear, Bool.and_eq_true, beq_iff_eq] at hi
  obtain ⟨⟨⟨hop, hrs⟩, hrt⟩, himm⟩ := hi
  obtain ⟨r, hr, hkind, hindex, hoffset⟩ := Layout.resolve_of_direct? (L.inLine w.cleared hleft)
  obtain ⟨limit, hlimit, hfits⟩ := L.mayClear.fits
  -- the address has been moved once for each word that is cleared
  have haddr : m.regs.get .a0 + i.simm = L.machine.regs.get .a0 + 4 * w.cleared.toUInt32 := by
    rw [h.a0, simm_eq_zero himm, UInt32.add_zero, hplace]
  have hresolve : m.memory.layout.resolve (m.regs.get .a0 + i.simm) = .ok r := by
    rw [haddr, h.memory, Memory.layout_cleared, hr]
  have hwritable : m.memory.layout.isReadOnly r.index = false := by
    rw [hindex, h.memory, Memory.layout_cleared, L.mayClear.writable]
  have hsize : m.memory.size? r.index = some limit := by
    rw [hindex, h.memory, Memory.size?_cleared, hlimit]
  have hsw : i.operation = .memory .sw := by simp [Instruction.operation, hop]
  rw [execute_eq, hsw]
  dsimp only [executeOperation, Interpreter.executeAccess]
  rw [hrs, hrt, h.zero, transfer_sw hsw hresolve hkind hwritable hsize (by omega)]
  have hstore : (MemoryAccess.sw.isStore || decide (MemoryAccess.sw = .lwc2)) = true := by decide
  dsimp only
  -- the store raises no fault and loads nothing
  rw [Machine.clock_invalidateByGuest, h.segfault, if_neg Bool.false_ne_true, if_pos hstore]
  refine ⟨rfl, ?_, ?_, ?_⟩
  · exact (Machine.regs_invalidateByGuest _ _ _).trans h.regs
  · refine (Machine.memory_invalidateByGuest _ _ _).trans ?_
    show m.memory.modifyBytes r.index _ = _
    rw [h.memory, hindex, hoffset, Memory.cleared_succ]
  · exact (Machine.clock_invalidateByGuest _ _ _).trans h.clock

/-- The branch goes back as long as there is something left to count. -/
theorem execute_branch (h : L.Done w m) (hop : i.operation = .branch .ne false) (hrs : i.rs = .a1)
    (hrt : i.rt = 0) {pc target : UInt32} (htarget : i.branchTarget? pc = some target)
    (hcounted : w.counted ≤ (L.machine.regs.get .a1).toNat) :
    (execute m i pc).step =
        (if w.counted = (L.machine.regs.get .a1).toNat then .next else .branch target) ∧
      (execute m i pc).machine = m := by
  -- the branch looks at the count as it is before the delay slot
  have hleft : m.regs.get .a1 = 0 ↔ w.counted = (L.machine.regs.get .a1).toNat := by
    rw [h.a1]
    exact sub_toUInt32_eq_zero_iff hcounted
  rw [execute_eq, hop]
  dsimp only [executeOperation]
  rw [hrs, hrt, h.zero, htarget]
  by_cases hlast : w.counted = (L.machine.regs.get .a1).toNat
  · rw [if_pos hlast, hleft.mpr hlast]
    exact ⟨rfl, rfl⟩
  · have hholds : Condition.ne.holds (m.regs.get .a1) 0 = true := by
      simpa [Condition.holds, hleft] using hlast
    rw [if_neg hlast, hholds]
    exact ⟨rfl, rfl⟩

/-! ## Its rounds -/

/-- The cursor stands for the instruction at `index`, with this work done. -/
structure At (L : ClearLoop δ κ) (index : Nat) (pending : Option UInt32) (w : Work)
    (c : Cursor δ κ) : Prop where
  pc : c.pc = L.base + index.toUInt32 * 4
  pending : c.pending = pending
  ops : Retags L.ops c.ops
  done : L.Done w c.machine

variable {c : Cursor δ κ} {index next : Nat} {pending pending' : Option UInt32} {w' : Work}

omit [Device δ] [Coprocessor κ] in
theorem at_start (L : ClearLoop δ κ) :
    L.At 0 none (.rounds 0) { machine := L.machine, ops := L.ops, pc := L.base + Nat.toUInt32 0 * 4 } :=
  ⟨rfl, rfl, .refl _, done_start L⟩

theorem At.effect (h : L.At index pending w c) :
    c.effect index = execute (c.machine.tick cyclesPerOp) (L.ops.getD index default).instr
      (L.base + index.toUInt32 * 4) := by
  rw [Cursor.effect, h.ops.instr, h.pc]

/-- So many iterations lead from one cursor to another. -/
def Gets (L : ClearLoop δ κ) (n : Nat) (c c' : Cursor δ κ) : Prop :=
  iterate (Interpreter.step L.base) n c = .running c'

theorem Gets.trans {a b c : Cursor δ κ} {m n : Nat} (h : L.Gets m a b) (h' : L.Gets n b c) :
    L.Gets (m + n) a c := by
  unfold Gets at h ⊢
  rw [iterate_add, h]
  exact h'

/-- One iteration, from what its instruction does. Only a jump back out of a delay slot looks at
the clock. -/
theorem At.goesOn (h : L.At index pending w c) (hindex : index < L.ops.size)
    (hstep : (c.effect index).step = pending'.elim .next .branch)
    (hgo : ∀ target ∈ pending, Interpreter.goesBack L.base L.ops.size index target = true →
      (c.effect index).machine.clock.shouldStop = false) :
    ∃ c', L.Gets 1 c c' ∧ c'.pc = pending.getD (L.base + (index + 1).toUInt32 * 4) ∧
      c'.pending = pending' ∧ Retags L.ops c'.ops ∧ c'.machine = (c.effect index).machine := by
  have hin : indexIn? L.base c.ops.size c.pc = some index := by
    rw [h.pc, h.ops.size]
    exact Interpreter.indexIn?_address L.base hindex L.size
  let c' : Cursor δ κ := { c.ran index (c.effect index) with
    pc := c.pending.getD (c.pc + 4), pending := pending' }
  have hfree : Interpreter.stepFreely L.base c = .running c' := by
    unfold Interpreter.stepFreely
    rw [hin]
    dsimp only
    rw [hstep]
    cases pending' <;> rfl
  -- the clock is asked only if the slot of a jump back was run
  have hon : ¬ (Interpreter.jumpsBack L.base c c' && c'.machine.clock.shouldStop) = true := by
    rw [Bool.and_eq_true]
    rintro ⟨hback, hstop⟩
    unfold Interpreter.jumpsBack at hback
    rw [hin, h.pending, h.ops.size] at hback
    cases pending with
    | none => cases hback
    | some target =>
      have hgoes : Interpreter.goesBack L.base L.ops.size index target = true := by
        cases pending' with
        | none => exact hback
        | some _ => cases hback
      exact absurd ((hgo target rfl hgoes).symm.trans hstop) Bool.false_ne_true
  refine ⟨c', ?_, ?_, rfl, Interpreter.retags_tagAccess h.ops _ _ _, rfl⟩
  · unfold Gets
    rw [iterate_succ, Interpreter.step_eq_stepFreely, hfree]
    dsimp only
    rw [if_neg hon]
    rfl
  · show c.pending.getD (c.pc + 4) = _
    rw [h.pending, h.pc, Interpreter.address_succ]

/-- One iteration that stays among the instructions. -/
theorem At.step (h : L.At index pending w c) (hindex : index < L.ops.size)
    (hstep : (c.effect index).step = pending'.elim .next .branch)
    (hdone : L.Done w' (c.effect index).machine)
    (hgo : pending = none ∨ (c.effect index).machine.clock.shouldStop = false)
    (hnext : pending.getD (L.base + (index + 1).toUInt32 * 4) = L.base + next.toUInt32 * 4) :
    ∃ c', L.Gets 1 c c' ∧ L.At next pending' w' c' := by
  obtain ⟨c', hgets, hpc, hpending, hops, hmachine⟩ := h.goesOn hindex hstep (by
    intro target htarget _
    rcases hgo with hnone | hgo
    · rw [hnone] at htarget
      cases htarget
    · exact hgo)
  exact ⟨c', hgets, hpc.trans hnext, hpending, hops, hmachine ▸ hdone⟩

theorem At.clear (h : L.At index none w c) (hindex : index < 4)
    (hi : Annotate.isClear (L.ops.getD index default).instr = true) (hplace : w.advanced = w.cleared)
    (hleft : w.cleared < (L.machine.regs.get .a1).toNat) :
    ∃ c', L.Gets 1 c c' ∧
      L.At (index + 1) none { w with cleared := w.cleared + 1, ran := w.ran + 1 } c' := by
  have hsize := L.loops.size
  obtain ⟨hnext, hdone⟩ := execute_clear h.done.tick hi hplace hleft (L.base + index.toUInt32 * 4)
  rw [← h.effect] at hnext hdone
  exact h.step (by omega) hnext hdone (.inl rfl) rfl

theorem At.count (h : L.At index none w c) (hindex : index < 4)
    (hi : Annotate.isCount (L.ops.getD index default).instr = true) :
    ∃ c', L.Gets 1 c c' ∧
      L.At (index + 1) none { w with counted := w.counted + 1, ran := w.ran + 1 } c' := by
  have hsize := L.loops.size
  obtain ⟨hnext, hdone⟩ := execute_count h.done.tick hi (L.base + index.toUInt32 * 4)
  rw [← h.effect] at hnext hdone
  exact h.step (by omega) hnext hdone (.inl rfl) rfl

/-- The branch is taken unless the last word was counted. -/
theorem At.branch (h : L.At 2 none w c) (hcounted : w.counted ≤ (L.machine.regs.get .a1).toNat) :
    ∃ c', L.Gets 1 c c' ∧
      L.At 3 (if w.counted = (L.machine.regs.get .a1).toNat then none else some L.base)
        { w with ran := w.ran + 1 } c' := by
  have hsize := L.loops.size
  obtain ⟨hop, hrs, hrt⟩ := L.loops.branch
  have hexecute := execute_branch h.done.tick hop hrs hrt L.loops.target hcounted
  obtain ⟨hstep, hsame⟩ : (c.effect 2).step = _ ∧ (c.effect 2).machine = _ := h.effect ▸ hexecute
  refine h.step (by omega) ?_ (hsame ▸ h.done.tick) (.inl rfl) rfl
  rw [hstep]
  split <;> rfl

theorem At.advance (h : L.At 3 pending w c) (hgo : pending = none ∨
      (L.machine.clock.add (2 * (w.ran + 1).toUInt32)).exhausted = false)
    (hnext : pending.getD (L.base + (4 : Nat).toUInt32 * 4) = L.base + next.toUInt32 * 4) :
    ∃ c', L.Gets 1 c c' ∧
      L.At next none { w with advanced := w.advanced + 1, ran := w.ran + 1 } c' := by
  have hsize := L.loops.size
  obtain ⟨hstep, hdone⟩ := execute_advance h.done.tick L.loops.advance (L.base + Nat.toUInt32 3 * 4)
  rw [← h.effect] at hstep hdone
  refine h.step (by omega) hstep hdone (hgo.imp_right ?_) hnext
  intro hlasts
  have hquiet := L.quiet
  rw [hdone.clock, Clock.shouldStop, hlasts]
  show (!L.machine.clock.exit.isNormal || false) = false
  rw [hquiet]
  rfl

/-- The first two instructions of a round clear a word and count it. -/
theorem At.body {k : Nat} (h : L.At 0 none (.rounds k) c) (hk : k < (L.machine.regs.get .a1).toNat) :
    ∃ c', L.Gets 2 c c' ∧ L.At 2 none ⟨k + 1, k + 1, k, 4 * k + 2⟩ c' := by
  rcases L.loops.body with ⟨hclear, hcount⟩ | ⟨hcount, hclear⟩
  · obtain ⟨d, hd, hat⟩ := h.clear (by omega) hclear rfl hk
    obtain ⟨c', hc', hat⟩ := hat.count (by omega) hcount
    exact ⟨c', hd.trans hc', hat⟩
  · obtain ⟨d, hd, hat⟩ := h.count (by omega) hcount
    obtain ⟨c', hc', hat⟩ := hat.clear (by omega) hclear rfl hk
    exact ⟨c', hd.trans hc', hat⟩

/-- A round clears a word. It leads back to the start unless it was the last. -/
theorem At.round {k : Nat} (h : L.At 0 none (.rounds k) c) (hk : k < (L.machine.regs.get .a1).toNat) :
    ∃ c', L.Gets 4 c c' ∧
      L.At (if k + 1 = (L.machine.regs.get .a1).toNat then 4 else 0) none (.rounds (k + 1)) c' := by
  obtain ⟨c2, h2, hat⟩ := h.body hk
  obtain ⟨c3, h3, hat⟩ := hat.branch hk
  by_cases hlast : k + 1 = (L.machine.regs.get .a1).toNat
  · rw [if_pos hlast] at hat ⊢
    obtain ⟨c4, h4, hat⟩ := hat.advance (.inl rfl) rfl
    exact ⟨c4, (h2.trans h3).trans h4, hat⟩
  · rw [if_neg hlast] at hat ⊢
    -- the clock is looked at here, behind the delay slot
    have hlasts : (L.machine.clock.add (2 * (4 * k + 3 + 1).toUInt32)).exhausted = false := by
      have hcycles : 2 * (4 * k + 3 + 1).toUInt32 = 8 * (k + 1).toUInt32 := by
        apply UInt32.toNat_inj.mp
        simp [Nat.toUInt32, UInt32.toNat_mul]
        omega
      rw [hcycles]
      exact L.lasts (k + 1) (by omega) (by omega)
    have hstart : L.base = L.base + (0 : Nat).toUInt32 * 4 := (UInt32.add_zero _).symm
    obtain ⟨c4, h4, hat⟩ := hat.advance (.inr hlasts) hstart
    exact ⟨c4, (h2.trans h3).trans h4, hat⟩

/-- After some rounds, but not all, the loop is at its start. -/
theorem gets_rounds (L : ClearLoop δ κ) {k : Nat} (hk : k < (L.machine.regs.get .a1).toNat) :
    ∃ c, L.Gets (4 * k) { machine := L.machine, ops := L.ops, pc := L.base + Nat.toUInt32 0 * 4 } c ∧
      L.At 0 none (.rounds k) c := by
  induction k with
  | zero => exact ⟨_, rfl, at_start L⟩
  | succ k ih =>
    obtain ⟨d, hd, hat⟩ := ih (by omega)
    obtain ⟨c, hc, hat⟩ := hat.round (by omega)
    rw [if_neg (by omega)] at hat
    exact ⟨c, hd.trans hc, hat⟩

/-- All rounds lead behind the loop. -/
theorem gets_end (L : ClearLoop δ κ) : ∃ c, L.Gets (4 * (L.machine.regs.get .a1).toNat)
        { machine := L.machine, ops := L.ops, pc := L.base + Nat.toUInt32 0 * 4 } c ∧
      L.At 4 none (.rounds (L.machine.regs.get .a1).toNat) c := by
  have hpos : 0 < (L.machine.regs.get .a1).toNat :=
    Nat.pos_of_ne_zero fun h => L.mayClear.count (UInt32.toNat_inj.mp h)
  obtain ⟨n, hn⟩ : ∃ n, (L.machine.regs.get .a1).toNat = n + 1 :=
    Nat.exists_eq_succ_of_ne_zero (Nat.ne_of_gt hpos)
  obtain ⟨d, hd, hat⟩ := L.gets_rounds (k := n) (by omega)
  obtain ⟨c, hc, hat⟩ := hat.round (by omega)
  rw [if_pos hn.symm] at hat
  rw [hn]
  exact ⟨c, hd.trans hc, hat⟩

/-- Behind the last instruction the block is left. -/
theorem At.leaves (h : L.At index none w c) (hindex : L.ops.size ≤ index) (hsmall : index < 65536) :
    Interpreter.step L.base c = .finished (c.left c.pc) := by
  have hout : indexIn? L.base c.ops.size c.pc = none := by
    have hdistance : (c.pc - L.base).toNat = index * 4 := by
      rw [h.pc, UInt32.add_comm, UInt32.add_sub_cancel, Interpreter.toNat_mul_four hsmall]
    unfold indexIn?
    dsimp only
    rw [hdistance, h.ops.size]
    apply if_neg
    simp
    omega
  unfold Interpreter.step
  rw [hout, h.pending]
  rfl

omit [Device δ] [Coprocessor κ] in
/-- All rounds leave what clearing at once leaves. -/
theorem Done.eq_memset (h : L.Done (.rounds (L.machine.regs.get .a1).toNat) m)
    (hmemset : L.machine.memset.1.isSome = true) :
    m.regs = L.machine.memset.2.regs ∧ m.memory = L.machine.memset.2.memory := by
  obtain ⟨region, start, hmay, hregs, hmemory⟩ := Machine.mayClear_of_memset hmemset
  -- both begin where `$a0` leads
  cases L.mayClear.direct.symm.trans hmay.direct
  refine ⟨?_, h.memory.trans hmemory.symm⟩
  rw [h.regs, hregs]
  dsimp only [Work.rounds]
  rw [Nat.toUInt32_eq, UInt32.ofNat_toNat, UInt32.sub_self]

end Instructions

end ClearLoop

namespace Machine

variable {δ κ : Type} [Device δ] [Coprocessor κ]

/-- Clearing at once is what the loop of four instructions does: it declines and changes nothing, or
leaves the registers and the memory that interpreting the loop leaves. -/
theorem memset_eq_clearLoop (m : Machine δ κ) : (m.memset.1 = none → m.memset.2 = m) ∧
    (m.memset.1.isSome = true → m.regs.get 0 = 0 → m.clock.exit.isNormal = true →
      ∀ {region start : Nat}, m.InLine region start →
      ∀ {base : UInt32} {ops : Array Op}, ops.size = 4 → IsClearLoop base ops →
      m.clock.Lasts (m.regs.get .a1).toNat →
      ∃ o, Interpreter.run (4 * (m.regs.get .a1).toNat + 1) m base ops 0 = .finished o ∧
        o.next = base + 16 ∧ o.machine.regs = m.memset.2.regs ∧
        o.machine.memory = m.memset.2.memory) := by
  refine ⟨?_, ?_⟩
  · intro hnone
    exact memset_eq_of_declined (Prod.ext hnone rfl)
  · intro hsome hzero hquiet _ _ hline base ops hsize hloop hlasts
    obtain ⟨region, start, hmay, -⟩ := mayClear_of_memset hsome
    let L : ClearLoop δ κ :=
      { machine := m, base, ops, region, start, size := by omega, loops := hloop, zero := hzero
        quiet := hquiet, mayClear := hmay, inLine := hmay.inLine hline, lasts := hlasts }
    obtain ⟨c, hgets, hat⟩ := L.gets_end
    obtain ⟨hregs, hmemory⟩ := hat.done.eq_memset hsome
    refine ⟨c.left c.pc, ?_, hat.pc, hregs, hmemory⟩
    -- the rounds are over, and the iteration behind them leaves the block
    rw [Interpreter.run, iterate_add, hgets]
    dsimp only
    rw [iterate_succ, hat.leaves (Nat.le_of_eq hsize) (by decide)]

/-- Eight words of memory, seen through a segment, of which three unaligned ones are to be
cleared. -/
def dirty : Machine RegisterBank StandardCoprocessor where
  regs := (({} : Registers).set .a0 0x80000006).set .a1 3
  clock := { target := 1000 }
  memory :=
    { layout :=
        { regions := #[{ base := 0, length := 0x20, backing := .ram, code := true }]
          valid := rfl }
      contents := #[.bytes ⟨Array.replicate 0x20 0xff⟩] }
  cop0 := .inert
  cop2 := .inert
  entries := {}

/-- The loop that counts first. -/
def countFirst : Array Op :=
  #[.ofWord 0x24a5ffff, .ofWord 0xac800000, .ofWord 0x14a0fffd, .ofWord 0x24840004]

/-- Three words are cleared, by the loop and at once. -/
theorem memset_eq_clearLoop_dirty :
    dirty.memset.1.isSome = true ∧ dirty.InLine 0 6 ∧ IsClearLoop 0x1000 countFirst ∧
    ∃ o, Interpreter.run 13 dirty 0x1000 countFirst 0 = .finished o ∧ o.next = 0x1010 ∧
      o.machine.regs = dirty.memset.2.regs ∧ o.machine.memory = dirty.memset.2.memory ∧
      o.machine.regs.get .a0 = 0x80000012 := by
  have hsome : dirty.memset.1.isSome = true := by decide +kernel
  have hline : dirty.InLine 0 6 := by
    unfold InLine
    decide +kernel
  have hloop : IsClearLoop 0x1000 countFirst :=
    ⟨by decide, by decide, by decide, by decide, by decide⟩
  have hlasts : dirty.clock.Lasts (dirty.regs.get .a1).toNat := by
    unfold Clock.Lasts
    decide +kernel
  obtain ⟨o, hrun, hnext, hregs, hmemory⟩ := (memset_eq_clearLoop dirty).2 hsome (by decide)
    (by decide) hline rfl hloop hlasts
  refine ⟨hsome, hline, hloop, o, hrun, hnext, hregs, hmemory, ?_⟩
  rw [hregs]
  decide +kernel

end Machine

end Dynarec
