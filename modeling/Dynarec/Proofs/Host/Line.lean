/-
  Dynarec.Proofs.Host.Line

  Straight runs of host operations.

  `runLine` carries out a list of operations in order, wherever they stand. A
  program that has them in a row does the same, as long as none of them jumps.
-/
import Dynarec.Host.Run

namespace Dynarec

/-- Behind the operation, or out of the code: there is no other way to go. -/
def HostOp.IsStraight : HostOp → Prop
  | .jump _ _ | .jumpIf _ _ => False
  | _ => True

namespace HostProgram

variable {δ κ : Type} [Device δ] [Coprocessor κ]

/-- Carry out operations in order. -/
def runLine (pc : UInt32) : List HostOp → Frame δ κ → Progress (Frame δ κ) (Returned δ κ)
  | [], f => .running f
  | op :: ops, f =>
    match perform pc f op with
    | .running f' => runLine pc ops f'
    | .finished r => .finished r

@[simp] theorem runLine_nil (pc : UInt32) (f : Frame δ κ) : runLine pc [] f = .running f := rfl

variable {f f' : Frame δ κ} {pc : UInt32} {op : HostOp}

theorem runLine_cons_of_running (h : perform pc f op = .running f') (ops : List HostOp) :
    runLine pc (op :: ops) f = runLine pc ops f' := by
  rw [runLine, h]

variable {r : Returned δ κ}

theorem runLine_cons_of_finished {f : Frame δ κ} (h : perform pc f op = .finished r)
    (ops : List HostOp) :
    runLine pc (op :: ops) f = .finished r := by
  rw [runLine, h]

variable {ops : List HostOp}

theorem runLine_append_of_running (h : runLine pc ops f = .running f') (rest : List HostOp) :
    runLine pc (ops ++ rest) f = runLine pc rest f' := by
  induction ops generalizing f with
  | nil =>
    cases h
    rfl
  | cons op ops ih =>
    rw [runLine] at h
    split at h
    · rename_i g hg
      rw [List.cons_append, runLine_cons_of_running hg, ih h]
    · cases h

theorem runLine_append_of_finished {f : Frame δ κ} (h : runLine pc ops f = .finished r)
    (rest : List HostOp) :
    runLine pc (ops ++ rest) f = .finished r := by
  induction ops generalizing f with
  | nil => cases h
  | cons op ops ih =>
    rw [runLine] at h
    split at h
    · rename_i g hg
      rw [List.cons_append, runLine_cons_of_running hg, ih h]
    · rename_i s hs
      rw [List.cons_append, runLine_cons_of_finished hs, h]

/-- Operations in a row that do not leave the code do not leave it on the way. -/
theorem exists_of_runLine_append {ops rest : List HostOp}
    (h : runLine pc (ops ++ rest) f = .running f') :
    ∃ g, runLine pc ops f = .running g ∧ runLine pc rest g = .running f' := by
  cases hline : runLine pc ops f with
  | running g =>
    rw [runLine_append_of_running hline] at h
    exact ⟨g, rfl, h⟩
  | finished r =>
    rw [runLine_append_of_finished hline] at h
    cases h

/-! ## Lines inside a program -/

/-- The operations stand in the program from `place` on. -/
def CodeAt (p : HostProgram) (place : Nat) (ops : List HostOp) : Prop :=
  ∀ j op, ops[j]? = some op → p.ops[place + j]? = some op

variable {p : HostProgram}

theorem CodeAt.head {place : Nat}
    (h : p.CodeAt place (op :: ops)) : p.ops[place]? = some op := h 0 op rfl

theorem CodeAt.tail {place : Nat} (h : p.CodeAt place (op :: ops)) : p.CodeAt (place + 1) ops := by
  intro j op' hj
  rw [Nat.add_assoc, Nat.add_comm 1 j]
  exact h (j + 1) op' hj

/-- The value of the data register of an access; zero without one. -/
def Frame.dataOf (f : Frame δ κ) : Option HostReg → UInt32
  | some h => f.host[h]
  | none => 0

/-- The frame after the access of a memory instruction. -/
def Frame.accessed (f : Frame δ κ) (index : Nat) (o : Op) (t : Machine.Transfer δ κ) : Frame δ κ :=
  { f with machine := t.machine }.tag index o t.kind

theorem Frame.memory_eq (f : Frame δ κ) (pc : UInt32) (index : Nat) (o : Op) (base : HostReg)
    (data dst : Option HostReg) :
    f.memory pc index o base data dst =
      let t := f.machine.transfer o.instr f.host[base] (f.dataOf data)
      let g := f.accessed index o t
      if g.machine.clock.exit.segfault then g.leave (pc + index.toUInt32 * 4)
      else
        match dst with
        | some h => (g.put h t.value).goOn
        | none => g.goOn := by
  cases data <;> rfl

omit [Device δ] [Coprocessor κ] in
/-- A tag changes neither host registers nor control. -/
theorem Frame.tag_frame (f : Frame δ κ) (index : Nat) (o : Op) (kind : Option RegionKind) :
    (f.tag index o kind).place = f.place ∧ (f.tag index o kind).host = f.host ∧
      (f.tag index o kind).condition = f.condition ∧ (f.tag index o kind).target = f.target := by
  unfold Frame.tag
  cases kind with
  | none => exact ⟨rfl, rfl, rfl, rfl⟩
  | some kind =>
    dsimp only
    split
    · exact ⟨rfl, rfl, rfl, rfl⟩
    · split
      · exact ⟨rfl, rfl, rfl, rfl⟩
      · exact ⟨rfl, rfl, rfl, rfl⟩

/-- A straight operation that does not leave the code goes on behind itself. -/
theorem place_perform (hs : op.IsStraight)
    (h : perform pc f op = .running f') : f'.place = f.place + 1 := by
  cases op with
  | exit | exitToTarget => cases h
  | exitIf next =>
    simp only [perform] at h
    split at h
    · cases h
    · cases h
      rfl
  | jump | jumpIf => exact hs.elim
  | memory index o base data dst =>
    rw [perform, Frame.memory_eq] at h
    dsimp only at h
    split at h
    · cases h
    · cases dst with
      | none =>
        cases h
        exact congrArg (· + 1) (Frame.tag_frame _ _ _ _).1
      | some d =>
        cases h
        exact congrArg (· + 1) (Frame.tag_frame _ _ _ _).1
  | _ =>
    cases h
    rfl

/-- A program goes through a straight line as `runLine` does. -/
theorem iterate_line_running (hc : p.CodeAt f.place ops) (hs : ∀ op ∈ ops, op.IsStraight)
    (h : runLine p.pc ops f = .running f') :
    iterate p.step ops.length f = .running f' ∧ f'.place = f.place + ops.length := by
  induction ops generalizing f with
  | nil =>
    cases h
    exact ⟨rfl, rfl⟩
  | cons op ops ih =>
    rw [runLine] at h
    split at h
    · rename_i g hg
      have hplace := place_perform (hs op List.mem_cons_self) hg
      have hstep : p.step f = .running g := by
        rw [step, hc.head]
        exact hg
      obtain ⟨hrun, hend⟩ :=
        ih (hplace ▸ hc.tail) (fun op' hmem => hs op' (List.mem_cons_of_mem op hmem)) h
      constructor
      · rw [List.length_cons, iterate_succ, hstep]
        exact hrun
      · rw [hend, hplace, List.length_cons]
        omega
    · cases h

/-- A program leaves a straight line where `runLine` does. -/
theorem iterate_line_finished {f : Frame δ κ} (hc : p.CodeAt f.place ops)
    (hs : ∀ op ∈ ops, op.IsStraight)
    (h : runLine p.pc ops f = .finished r) : iterate p.step ops.length f = .finished r := by
  induction ops generalizing f with
  | nil => cases h
  | cons op ops ih =>
    rw [runLine] at h
    rw [List.length_cons, iterate_succ]
    split at h
    · rename_i g hg
      have hplace := place_perform (hs op List.mem_cons_self) hg
      have hstep : p.step f = .running g := by
        rw [step, hc.head]
        exact hg
      rw [hstep]
      exact ih (hplace ▸ hc.tail) (fun op' hmem => hs op' (List.mem_cons_of_mem op hmem)) h
    · rename_i s hs'
      have hstep : p.step f = .finished s := by
        rw [step, hc.head]
        exact hs'
      rw [hstep, h]

end HostProgram

end Dynarec
