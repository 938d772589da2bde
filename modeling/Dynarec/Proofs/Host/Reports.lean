/-
  Dynarec.Proofs.Host.Reports

  What code generation makes and what it says.

  Two things that a step of code generation adds tell what word it was about:
  an access to memory carries its instruction, and the notice about an unknown
  word carries the word and its address. Whatever holds of these for each
  instruction of a block holds of everything that generating its code leads to,
  also if that fails half-way. Of an instruction by itself it follows that it is
  reported exactly if it is unknown.
-/
import Dynarec.Proofs.Host.Emission
import Dynarec.Proofs.Host.Operation
import Dynarec.Proofs.Host.Path

namespace Dynarec

/-- An access to memory. -/
def HostOp.isMemory : HostOp → Bool
  | .memory .. => true
  | _ => false

/-- Neither an access to memory nor a jump inside the block. -/
def HostOp.isQuiet : HostOp → Bool
  | .memory .. | .jump .. | .jumpIf .. => false
  | _ => true

theorem HostOp.isMemory_of_isQuiet {op : HostOp} (h : op.isQuiet = true) : op.isMemory = false := by
  cases op with
  | memory => cases h
  | _ => rfl

namespace Lowering

variable {α β : Type} {s s' s'' : Lowering} {source : BlockSource}

/-- The state that a step of code generation leaves, whether it succeeds or not. -/
def stateOf : EStateM.Result LoweringError Lowering α → Lowering
  | .ok _ s | .error _ s => s

/-- From `s` to `s'` the generator appended operations that are as `P` says, and reported what `N`
says. -/
structure Yields (P : HostOp → Prop) (N : Notice → Prop) (s s' : Lowering) : Prop where
  ops : ∃ ops, s'.program.toList = s.program.toList ++ ops ∧ ∀ op ∈ ops, P op
  notices : ∀ n ∈ s'.notices, n ∈ s.notices ∨ N n

/-- A step that generates and reports nothing but what `P` and `N` say. -/
def Emits (P : HostOp → Prop) (N : Notice → Prop) (x : LowerM α) : Prop :=
  ∀ s, Yields P N s (stateOf (x s))

/-- From `s` to `s'` the generator appended quiet operations. -/
def QuietTo (s s' : Lowering) : Prop := Yields (·.isQuiet = true) (fun _ => True) s s'

/-- What an instruction at `pc` leads to is as `P` and `N` say: its access to memory, or the notice
that its word is unknown. -/
structure Suits (P : HostOp → Prop) (N : Notice → Prop) (o : Op) (pc : UInt32) : Prop where
  memory : ∀ {access}, o.instr.operation = .memory access →
    ∀ index base data dst, P (.memory index o base data dst)
  unknown : o.instr.operation = .unknown → N (.unknownOpcode .hostCode o.instr.word pc)

/-- That holds of every instruction of the block. -/
def SuitsAll (P : HostOp → Prop) (N : Notice → Prop) (source : BlockSource) : Prop :=
  ∀ ⦃index : Nat⦄ ⦃o : Op⦄, source.ops[index]? = some o →
    Suits P N o (source.pc + index.toUInt32 * 4)

variable {P : HostOp → Prop} {N : Notice → Prop}

/-! ## Steps -/

theorem Yields.of_eq (hprogram : s'.program = s.program) (hnotices : s'.notices = s.notices) :
    Yields P N s s' :=
  ⟨⟨[], by simp [hprogram], by simp⟩, fun n hn => .inl (hnotices ▸ hn)⟩

theorem Yields.trans (h1 : Yields P N s s') (h2 : Yields P N s' s'') : Yields P N s s'' := by
  obtain ⟨ops, hp, hops⟩ := h1.ops
  obtain ⟨ops', hp', hops'⟩ := h2.ops
  refine ⟨⟨ops ++ ops', by rw [hp', hp, List.append_assoc], fun op hop => ?_⟩, fun n hn => ?_⟩
  · exact (List.mem_append.mp hop).elim (hops op) (hops' op)
  · exact (h2.notices n hn).elim (h1.notices n) .inr

theorem Yields.push {op : HostOp} (hop : P op) :
    Yields P N s { s with program := s.program.push op } :=
  ⟨⟨[op], by simp, by simpa using hop⟩, fun _ => .inl⟩

theorem Yields.mem (h : Yields P N s s') (hs : ∀ op ∈ s.program, P op) : ∀ op ∈ s'.program, P op := by
  obtain ⟨ops, hp, hops⟩ := h.ops
  intro op hop
  rw [← Array.mem_toList_iff, hp, List.mem_append, Array.mem_toList_iff] at hop
  exact hop.elim (hs op) (hops op)

/-- The operations that a quiet step appended are known: they are quiet. -/
theorem Extends.quiet {ops : List HostOp} (h : s.Extends s' ops) (hq : s.QuietTo s') :
    ∀ op ∈ ops, op.isQuiet = true := by
  obtain ⟨ops', hp, hquiet⟩ := hq.ops
  have hsame : ops = ops' := List.append_cancel_left (h.program.symm.trans hp)
  rwa [hsame]

variable {x : LowerM α}

theorem Emits.ok (hx : Emits P N x) {v : α} (h : x s = .ok v s') : Yields P N s s' := by
  have hs := hx s
  rwa [h] at hs

theorem emits_pure (v : α) : Emits P N (pure v) := fun _ => .of_eq rfl rfl

theorem emits_throw (e : LoweringError) : Emits P N (throw e : LowerM α) := fun _ => .of_eq rfl rfl

theorem Emits.bind {f : α → LowerM β} (hx : Emits P N x)
    (hf : ∀ v, Emits P N (f v)) : Emits P N (x >>= f) := by
  intro s
  have hs := hx s
  change Yields P N s (stateOf (EStateM.bind x f s))
  unfold EStateM.bind
  cases hrun : x s with
  | ok v s' =>
    rw [hrun] at hs
    exact hs.trans (hf v s')
  | error e s' =>
    rw [hrun] at hs
    exact hs

theorem Emits.map (hx : Emits P N x) (f : α → β) : Emits P N (f <$> x) := by
  intro s
  have hs := hx s
  change Yields P N s (stateOf (EStateM.map f x s))
  unfold EStateM.map
  cases hrun : x s with
  | ok v s' | error e s' =>
    rw [hrun] at hs
    exact hs

theorem Emits.ite {p : Prop} [Decidable p] {x y : LowerM α} (hx : p → Emits P N x)
    (hy : ¬p → Emits P N y) : Emits P N (if p then x else y) := by
  split
  · exact hx ‹_›
  · exact hy ‹_›

/-- A choice between two first steps of the same computation. -/
theorem Emits.ite_bind {p : Prop} [Decidable p] {x y : LowerM α} {k : α → LowerM β}
    (hx : Emits P N x) (hy : Emits P N y) (hk : ∀ v, Emits P N (k v)) :
    Emits P N (if p then x >>= k else y >>= k) :=
  .ite (fun _ => hx.bind hk) (fun _ => hy.bind hk)

theorem emits_modify {f : Lowering → Lowering} (hprogram : ∀ s, (f s).program = s.program)
    (hnotices : ∀ s, (f s).notices = s.notices) : Emits P N (modify f) :=
  fun s => .of_eq (hprogram s) (hnotices s)

theorem notices_bind {f : α → LowerM β} (hx : Emits P N x)
    (hf : ∀ v s, ∀ n ∈ (stateOf (f v s)).notices, n ∈ s.notices ∨ N n) (s : Lowering) :
    ∀ n ∈ (stateOf ((x >>= f) s)).notices, n ∈ s.notices ∨ N n := by
  have hs := (hx s).notices
  change ∀ n ∈ (stateOf (EStateM.bind x f s)).notices, _
  unfold EStateM.bind
  cases hrun : x s with
  | ok v s' =>
    rw [hrun] at hs
    exact fun n hn => (hf v s' n hn).elim (hs n) .inr
  | error e s' =>
    rw [hrun] at hs
    exact hs

theorem emits_emit {op : HostOp} (hop : P op) : Emits P N (emit op) := fun _ => .push hop

theorem emits_releaseLocks : Emits P N releaseLocks := emits_modify (fun _ => rfl) (fun _ => rfl)

theorem emits_charge (cycles : UInt32) : Emits P N (charge cycles) :=
  emits_modify (fun _ => rfl) (fun _ => rfl)

theorem emits_uncharge (cycles : UInt32) : Emits P N (uncharge cycles) :=
  emits_modify (fun _ => rfl) (fun _ => rfl)

section Quiet

-- nothing is asked of operations that neither access memory nor jump

variable (hP : ∀ op : HostOp, op.isQuiet = true → P op)
include hP

theorem Yields.transfers (s : Lowering) (ts : List RegisterTransfer) (cache : RegisterCache) :
    Yields P N s { s with program := pushTransfers s.program ts, cache } := by
  refine ⟨⟨ts.map transferOp, toList_pushTransfers _ _, fun op hop => ?_⟩, fun _ => .inl⟩
  obtain ⟨t, -, rfl⟩ := List.mem_map.mp hop
  exact hP _ (by cases t <;> rfl)

theorem emits_allocate (request : RegisterCache → Option RegisterCache.Allocation) :
    Emits P N (allocate request) := by
  refine Emits.bind (fun s => ?_) (fun found => ?_)
  · have hmodify (f : Lowering → Option HostReg × Lowering) :
        stateOf ((modifyGet f : LowerM _) s) = (f s).2 := rfl
    rw [hmodify]
    cases request s.cache with
    | none => exact .of_eq rfl rfl
    | some a => exact .transfers hP s a.transfers a.cache
  · cases found with
    | none => exact emits_throw _
    | some host => exact emits_pure host

theorem emits_flushCycles : Emits P N flushCycles := by
  intro s
  have hrun : stateOf (flushCycles s) = if s.cycles = 0 then s else
      { s with program := s.program.push (.tick s.cycles), cycles := 0 } := rfl
  rw [hrun]
  split
  · exact .of_eq rfl rfl
  · exact .trans (.push (hP _ rfl)) (.of_eq rfl rfl)

theorem emits_flushAll : Emits P N flushAll := fun s => .transfers hP s _ _

theorem emits_unloadAll : Emits P N unloadAll := fun s => .transfers hP s _ _

theorem emits_beforeCall : Emits P N beforeCall :=
  (emits_flushCycles hP).bind fun _ => emits_flushAll hP

theorem emits_exitWith {op : HostOp} (hop : op.isQuiet = true) : Emits P N (exitWith op) :=
  (emits_flushCycles hP).bind fun _ => (emits_unloadAll hP).bind fun _ => emits_emit (hP op hop)

theorem emits_raise_exit (flags : ExitFlags) (pc : UInt32) :
    Emits P N (do emit (.raise flags); exitWith (.exit pc)) :=
  (emits_emit (hP _ rfl)).bind fun _ => emits_exitWith hP rfl

theorem emits_lowerUnknown {i : Instruction} {pc : UInt32}
    (hN : N (.unknownOpcode .hostCode i.word pc)) : Emits P N (lowerUnknown i pc) := by
  refine Emits.bind (fun s => ?_) (fun _ => emits_raise_exit hP _ pc)
  refine ⟨⟨[], (List.append_nil _).symm, by simp⟩, fun n hmem => ?_⟩
  rcases Array.mem_push.mp hmem with hmem | rfl
  · exact .inl hmem
  · exact .inr hN

variable {index : Nat}

/-- What is emitted before the access of a load or store. -/
theorem yields_lowerAccess {o : Op} {access : MemoryAccess} {u : Unit}
    (h : lowerAccess index o access s = .ok u s') :
    ∃ s1 op, Yields P N s s1 ∧ s' = { s1 with program := s1.program.push op } := by
  have halloc (request) : Emits P N (allocate request) := emits_allocate hP request
  obtain ⟨_, s1, h1, h⟩ := bind_ok h
  obtain ⟨base, s2, h2, h⟩ := bind_ok h
  dsimp only at h
  obtain ⟨data, s3, h3, h⟩ := ite_bind_ok h
  obtain ⟨dst, s4, h4, h5⟩ := ite_bind_ok h
  have hdata := (Emits.ite (fun _ => (halloc _).map some) fun _ => emits_pure none).ok h3
  have hdst := (Emits.ite (fun _ => (halloc _).map some) fun _ => emits_pure none).ok h4
  cases h5
  exact ⟨s4, _, ((((emits_beforeCall hP).ok h1).trans ((halloc _).ok h2)).trans hdata).trans hdst,
    rfl⟩

theorem emits_lowerAccess {o : Op} (access : MemoryAccess)
    (hop : ∀ base data dst, P (.memory (index % 65536) o base data dst)) :
    Emits P N (lowerAccess index o access) := by
  have halloc (request) : Emits P N (allocate request) := emits_allocate hP request
  have hmaybe (request) : Emits P N (some <$> allocate request) := (halloc request).map some
  unfold lowerAccess
  exact (emits_beforeCall hP).bind fun _ => (halloc _).bind fun base =>
    .ite_bind (hmaybe _) (emits_pure none) fun data =>
      .ite_bind (hmaybe _) (emits_pure none) fun dst => emits_emit (hop base data dst)

/-! ## Instructions -/

/-- A computation on one register. -/
theorem emits_unary (g d : Reg) {op : HostReg → HostReg → HostOp}
    (hop : ∀ dst a, (op dst a).isQuiet = true) :
    Emits P N (do let a ← allocIn g; let dst ← allocOut d; emit (op dst a)) :=
  (emits_allocate hP _).bind fun a => (emits_allocate hP _).bind fun dst =>
    emits_emit (hP _ (hop dst a))

/-- A computation on two registers. -/
theorem emits_binary (g g' d : Reg) {op : HostReg → HostReg → HostReg → HostOp}
    (hop : ∀ dst a b, (op dst a b).isQuiet = true) :
    Emits P N (do
      let a ← allocIn g
      let b ← allocIn g'
      let dst ← allocOut d
      emit (op dst a b)) :=
  (emits_allocate hP _).bind fun a => (emits_allocate hP _).bind fun b =>
    (emits_allocate hP _).bind fun dst => emits_emit (hP _ (hop dst a b))

/-- Only loads and stores access memory, and only unknown words are reported. -/
theorem emits_lowerSimple {o : Op} {pc : UInt32} (ho : Suits P N o pc)
    (hslot : o.instr.hasDelaySlot = false) : Emits P N (lowerSimple index o pc) := by
  have halloc (request) : Emits P N (allocate request) := emits_allocate hP request
  have hemit {op : HostOp} (hop : op.isQuiet = true) : Emits P N (emit op) :=
    emits_emit (hP op hop)
  have hunless {d : Reg} {x : LowerM Unit} (hx : Emits P N x) :
      Emits P N (if d ≠ 0 then x else pure ()) := .ite (fun _ => hx) (fun _ => emits_pure ())
  rw [Instruction.hasDelaySlot_eq] at hslot
  rw [lowerSimple_eq]
  unfold lowerOperation
  dsimp only
  cases hoperation : o.instr.operation with dsimp only
  | shift | aluImmediate => exact hunless (emits_unary hP _ _ fun _ _ => rfl)
  | moveFromHi | moveFromLo => exact hunless (emits_unary hP _ _ fun _ _ => rfl)
  | moveToHi | moveToLo => exact emits_unary hP _ _ fun _ _ => rfl
  | shiftVariable | alu => exact hunless (emits_binary hP _ _ _ fun _ _ _ => rfl)
  | mulDiv =>
    exact (halloc _).bind fun a => (halloc _).bind fun b => (halloc _).bind fun lo =>
      (halloc _).bind fun hi => hemit rfl
  | loadUpper => exact hunless ((halloc _).bind fun dst => hemit rfl)
  | syscall | breakpoint => exact emits_raise_exit hP _ pc
  | copExecute => exact (emits_beforeCall hP).bind fun _ => hemit rfl
  | copRead =>
    exact (emits_beforeCall hP).bind fun _ => .ite_bind (halloc _) (halloc _) fun dst => hemit rfl
  | copWrite =>
    exact (emits_beforeCall hP).bind fun _ => (halloc _).bind fun src => (hemit rfl).bind fun _ =>
      .ite (fun _ => emits_exitWith hP rfl) (fun _ => emits_pure ())
  | memory access =>
    exact emits_lowerAccess hP access fun base data dst => ho.memory hoperation _ base data dst
  | unknown =>
    have hlast := emits_lowerUnknown hP (ho.unknown hoperation)
    exact .ite (fun _ => (emits_beforeCall hP).bind fun _ => hlast)
      fun _ => (emits_pure ()).bind fun _ => hlast
  | jumpRegister | jumpLinkRegister | jump | jumpLink | branch =>
    rw [hoperation] at hslot
    cases hslot

/-! ## Branches -/

theorem emits_latch (i : Instruction) : Emits P N (latch i) := by
  have halloc (request) : Emits P N (allocate request) := emits_allocate hP request
  unfold latch
  refine .ite (fun _ => (halloc _).bind fun src => emits_emit (hP _ rfl)) fun _ => ?_
  cases decidingCondition? i with
  | none => exact emits_pure ()
  | some condition => exact (halloc _).bind fun a => (halloc _).bind fun b => emits_emit (hP _ rfl)

theorem emits_lowerLink (i : Instruction) (pc : UInt32) : Emits P N (lowerLink i pc) := by
  unfold lowerLink
  cases linkRegister? i with
  | none => exact emits_pure ()
  | some link => exact (emits_allocate hP _).bind fun dst => emits_emit (hP _ rfl)

theorem emits_lowerSlot {o d : Op} {pc : UInt32} (hd : Suits P N d pc)
    (hslot : d.instr.hasDelaySlot = false) : Emits P N (lowerSlot index o d pc) :=
  (emits_charge _).bind fun _ => .ite (fun _ => emits_pure ()) fun _ =>
    (emits_lowerSimple hP hd hslot).bind fun _ => emits_releaseLocks

end Quiet

section Plain

-- nothing is asked of operations that do not access memory

variable (hP : ∀ op : HostOp, op.isMemory = false → P op)
include hP

theorem of_isQuiet (op : HostOp) (h : op.isQuiet = true) : P op := hP op (HostOp.isMemory_of_isQuiet h)

theorem emits_lowerJump (source : BlockSource) (o : Op) (pc : UInt32) :
    Emits P N (lowerJump source o pc) := by
  unfold lowerJump
  refine .ite (fun _ => emits_exitWith (of_isQuiet hP) rfl) fun _ => ?_
  cases o.instr.branchTarget? pc with
  | none => exact emits_throw _
  | some target =>
    refine (emits_flushCycles (of_isQuiet hP)).bind fun _ =>
      (emits_unloadAll (of_isQuiet hP)).bind fun _ => .ite (fun _ => ?_) fun _ => ?_
    · have hfixup (inside : Nat) : Emits P N (modify fun s : Lowering =>
          { s with fixups := s.fixups.push (s.program.size, inside) }) :=
        emits_modify (fun _ => rfl) (fun _ => rfl)
      refine (hfixup _).bind fun _ => emits_emit (hP _ ?_)
      split <;> rfl
    · refine emits_emit (hP _ ?_)
      split <;> rfl

theorem emits_lowerBranch {index : Nat} {pc : UInt32} (o : Op)
    (hd : ∀ d, source.ops[index + 1]? = some d → Suits P N d (pc + 4)) :
    Emits P N (lowerBranch source index o pc) := by
  unfold lowerBranch
  dsimp only
  refine .ite (fun _ => ?_) fun hslot => ?_
  · exact (emits_uncharge _).bind fun _ => (emits_exitWith (of_isQuiet hP) rfl).bind fun _ => emits_pure _
  refine (emits_latch (of_isQuiet hP) _).bind fun _ => (emits_lowerLink (of_isQuiet hP) _ _).bind fun _ =>
    emits_releaseLocks.bind fun _ => ?_
  -- a delay slot that is a branch itself was turned away above
  cases hop : source.ops[index + 1]? with
  | none => exact (emits_lowerJump hP source o pc).bind fun _ => emits_pure _
  | some d =>
    have hplain : d.instr.hasDelaySlot = false := by simpa [hop] using hslot
    exact (emits_lowerSlot (of_isQuiet hP) (hd d hop) hplain).bind fun _ =>
      (emits_lowerJump hP source o pc).bind fun _ => emits_pure _

theorem emits_lowerOp {index : Nat} {o : Op} (ho : Suits P N o (source.pc + index.toUInt32 * 4))
    (hd : ∀ d, source.ops[index + 1]? = some d → Suits P N d (source.pc + index.toUInt32 * 4 + 4)) :
    Emits P N (lowerOp source index o) := by
  unfold lowerOp
  dsimp only
  refine .ite (fun _ => (emits_exitWith (of_isQuiet hP) rfl).bind fun _ => emits_pure _) fun _ => ?_
  refine (emits_charge _).bind fun _ => .ite (fun _ => emits_lowerBranch hP o hd) fun hslot => ?_
  exact (emits_lowerSimple (of_isQuiet hP) ho (by simpa using hslot)).bind fun _ => emits_pure _

/-! ## Blocks -/

theorem emits_openAt (index : Nat) (o : Op) : Emits P N (openAt index o) :=
  .ite (fun _ => (emits_flushCycles (of_isQuiet hP)).bind fun _ =>
    (emits_unloadAll (of_isQuiet hP)).bind fun _ =>
      emits_modify (fun _ => rfl) (fun _ => rfl)) (fun _ => emits_pure ())

omit hP in
theorem emits_checkSize : Emits P N checkSize := by
  refine Emits.bind (fun _ => .of_eq rfl rfl) fun s => ?_
  exact .ite (fun _ => emits_throw _) (fun _ => emits_pure ())

theorem emits_lowerFrom (hops : SuitsAll P N source) (fuel index : Nat) :
    Emits P N (lowerFrom source fuel index) := by
  induction fuel generalizing index with
  | zero => exact emits_pure ()
  | succ fuel ih =>
    unfold lowerFrom
    cases hop : source.ops[index]? with
    | none => exact emits_pure ()
    | some o =>
      have hslot (d : Op) (hd : source.ops[index + 1]? = some d) :
          Suits P N d (source.pc + index.toUInt32 * 4 + 4) := by
        rw [Interpreter.address_succ]
        exact hops hd
      exact (emits_openAt hP index o).bind fun _ =>
        (emits_lowerOp hP (hops hop) hslot).bind fun next =>
          emits_releaseLocks.bind fun _ => emits_checkSize.bind fun _ => ih next

theorem apply_patchOp {op : HostOp} (hop : P op) (place : Option Nat) : P (patchOp place op) := by
  cases op with
  | jump | jumpIf => cases place <;> exact hP _ rfl
  | _ => exact hop

theorem forall_mem_patch {program : Array HostOp} (h : ∀ op ∈ program, P op)
    (labels : Array (Option Nat)) (fixup : Nat × Nat) :
    ∀ op ∈ patch labels program fixup, P op := by
  intro op hmem
  obtain ⟨k, hk⟩ := Array.mem_iff_getElem?.mp hmem
  rw [patch, Array.getElem?_modify] at hk
  split at hk
  · obtain ⟨op', hop', rfl⟩ := Option.map_eq_some_iff.mp hk
    exact apply_patchOp hP (h op' (Array.mem_of_getElem? hop')) _
  · exact h op (Array.mem_of_getElem? hk)

theorem forall_mem_foldl_patch {program : Array HostOp} (h : ∀ op ∈ program, P op)
    (labels : Array (Option Nat)) (fixups : List (Nat × Nat)) :
    ∀ op ∈ fixups.foldl (patch labels) program, P op := by
  induction fixups generalizing program with
  | nil => exact h
  | cons fixup fixups ih => exact ih (forall_mem_patch hP h labels fixup)

theorem notices_lowerBlock (hops : SuitsAll P N source) (s : Lowering) :
    ∀ n ∈ (stateOf (lowerBlock source s)).notices, n ∈ s.notices ∨ N n := by
  refine notices_bind (emits_lowerFrom hP hops _ 0) (fun _ => notices_bind
    (emits_exitWith (of_isQuiet hP) rfl) fun _ s' n hn => .inl ?_) s
  -- the program is handed over, and notices stay
  exact hn

theorem forall_mem_lowerBlock (hops : SuitsAll P N source) (hs : ∀ op ∈ s.program, P op)
    {p : HostProgram} (h : lowerBlock source s = .ok p s') :
    ∀ op ∈ p.ops, P op := by
  obtain ⟨_, s1, h1, h⟩ := bind_ok h
  obtain ⟨_, s2, h2, h⟩ := bind_ok h
  have hbefore : Yields P N s s2 := ((emits_lowerFrom hP hops _ 0).ok h1).trans
    ((emits_exitWith (of_isQuiet hP) rfl).ok h2)
  cases modifyGet_ok h
  dsimp only
  rw [← Array.foldl_toList]
  exact forall_mem_foldl_patch hP (hbefore.mem hs) s2.labels _

end Plain

/-! ## Reports -/

theorem notices_flushCycles (s : Lowering) : (stateOf (flushCycles s)).notices = s.notices := by
  show (if s.cycles = 0 then s else
    { s with program := s.program.push (.tick s.cycles), cycles := 0 }).notices = s.notices
  split <;> rfl

theorem notices_lowerUnknown (i : Instruction) (pc : UInt32) (s : Lowering) :
    (stateOf (lowerUnknown i pc s)).notices = s.notices.push (.unknownOpcode .hostCode i.word pc) :=
  notices_flushCycles { s with
    notices := s.notices.push (.unknownOpcode .hostCode i.word pc)
    program := s.program.push (.raise { unknownOp := true }) }

theorem notices_lowerSimple_of_unknown {o : Op} (h : o.instr.operation = .unknown) (index : Nat)
    (pc : UInt32) (s : Lowering) : (stateOf (lowerSimple index o pc s)).notices =
      s.notices.push (.unknownOpcode .hostCode o.instr.word pc) := by
  rw [lowerSimple_eq]
  unfold lowerOperation
  dsimp only
  rw [h]
  dsimp only
  split
  · refine (notices_lowerUnknown o.instr pc (stateOf (beforeCall s))).trans ?_
    exact congrArg (Array.push · _) (notices_flushCycles s)
  · exact notices_lowerUnknown o.instr pc s

theorem stateOf_bind_pure (x : LowerM α) (f : α → β) (s : Lowering) :
    stateOf ((x >>= fun v => pure (f v)) s) = stateOf (x s) := by
  show stateOf (EStateM.bind x (fun v => pure (f v)) s) = stateOf (x s)
  unfold EStateM.bind
  cases x s <;> rfl

/-- A word that no instruction has is reported when code is generated for it. -/
theorem notices_lowerOp_of_unknown {index : Nat} {o : Op} (hflag : o.flags.emulateBranch = false)
    (h : o.instr.operation = .unknown) (s : Lowering) :
    (stateOf (lowerOp source index o s)).notices = s.notices.push
      (.unknownOpcode .hostCode o.instr.word (source.pc + index.toUInt32 * 4)) := by
  have hslot : o.instr.hasDelaySlot = false := by
    rw [Instruction.hasDelaySlot_eq, h]
    rfl
  unfold lowerOp
  rw [hflag, hslot]
  have hrun := notices_lowerSimple_of_unknown h index (source.pc + index.toUInt32 * 4)
    { s with cycles := s.cycles + cyclesPerOp }
  rw [← stateOf_bind_pure _ fun _ => index + 1] at hrun
  exact hrun

/-- Generating code for an instruction reports its word exactly if there is no such instruction. -/
theorem lowerOp_reports_iff {index : Nat} {o : Op} {n : Notice}
    (hn : n = .unknownOpcode .hostCode o.instr.word (source.pc + index.toUInt32 * 4))
    (hflag : o.flags.emulateBranch = false) {s : Lowering} (hnew : n ∉ s.notices) :
    n ∈ (stateOf (lowerOp source index o s)).notices ↔ o.instr.operation = .unknown := by
  by_cases h : o.instr.operation = .unknown
  · rw [notices_lowerOp_of_unknown hflag h, hn]
    exact iff_of_true Array.mem_push_self h
  · refine iff_of_false (fun hmem => ?_) h
    have hown : Suits (fun _ => True) (· ≠ n) o (source.pc + index.toUInt32 * 4) :=
      ⟨fun _ _ _ _ _ => trivial, fun hunknown => absurd hunknown h⟩
    -- a delay slot stands behind its branch, so what is reported of it is something else
    have hslot (d : Op) : Suits (fun _ => True) (· ≠ n) d (source.pc + index.toUInt32 * 4 + 4) := by
      refine ⟨fun _ _ _ _ _ => trivial, fun _ heq => ?_⟩
      rw [hn] at heq
      injection heq with _ _ hpc
      simp at hpc
    exact ((emits_lowerOp (fun _ _ => trivial) hown (fun d _ => hslot d) s).notices n hmem).elim
      hnew fun hne => hne rfl

end Lowering

/-- What generating code for a block leads to is as `P` and `N` say if that is so for each of its
instructions. -/
theorem HostProgram.generate_holds {P : HostOp → Prop} {N : Notice → Prop}
    (hP : ∀ op : HostOp, op.isMemory = false → P op) {source : BlockSource}
    (hops : Lowering.SuitsAll P N source) (cache : RegisterCache) :
    (∀ p, (generate source cache).result = .ok p → ∀ op ∈ p.ops, P op) ∧
      ∀ word addr, .unknownOpcode .hostCode word addr ∈ (generate source cache).notices →
        N (.unknownOpcode .hostCode word addr) := by
  have hnotices : ∀ n ∈ (Lowering.stateOf (Lowering.lowerBlock source
      { labels := Array.replicate source.ops.size none, cache })).notices, N n :=
    fun n hn => (Lowering.notices_lowerBlock hP hops _ n hn).elim
      (fun hmem => absurd hmem (Array.not_mem_empty n)) id
  unfold generate
  split
  · refine ⟨fun p h => ?_, fun word addr hmem => ?_⟩
    · cases h
    · cases hmem
  · cases hrun : Lowering.lowerBlock source
        { labels := Array.replicate source.ops.size none, cache } with
    | ok program s =>
      rw [hrun] at hnotices
      refine ⟨?_, fun word addr hmem => ?_⟩
      · rintro p ⟨⟩
        exact Lowering.forall_mem_lowerBlock hP hops
          (fun op hmem => absurd hmem (Array.not_mem_empty op)) hrun
      · -- a report on the code as a whole comes behind those of its instructions
        rcases List.mem_append.mp hmem with hmem | hmem
        · exact hnotices _ (Array.mem_toList_iff.mp hmem)
        · cases List.mem_singleton.mp hmem
    | error e s =>
      rw [hrun] at hnotices
      refine ⟨fun p h => ?_, fun word addr hmem => ?_⟩
      · cases h
      · exact hnotices _ (Array.mem_toList_iff.mp hmem)

end Dynarec
