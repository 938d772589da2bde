/-
  Dynarec.Proofs.Host.Refinement

  Calling generated code refines interpreting the block.

  `explains_call` is the simulation for calls. For a block whose branches have
  their delay slots it becomes a statement about iterations of the
  interpreter: the code comes back with exactly what the interpreter has after
  some number of them.
-/
import Dynarec.Proofs.Host.Simulation

namespace Dynarec

namespace HostProgram

open Interpreter (Cursor stepFreely indexIn?)
open Lowering (Explains)

variable {δ κ : Type} {cache : RegisterCache}

/-- Code may start at any entry, with the registers in their file. -/
theorem stands_start (σ : Site δ κ) (hempty : cache.Empty) {lag : UInt32} (hlag : lag = 0)
    {m : Machine δ κ} {b : Block} (hzero : σ.exact → m.regs.get 0 = 0)
    (hblock : σ.exact → b = σ.block ∧ b.ops = some σ.source.ops) (place : Nat) (pc : UInt32) :
    Stands σ cache lag { machine := m, block := b, place }
      { machine := m, ops := σ.source.ops, pc } where
  agrees := by
    rw [hlag, Machine.tick_zero]
    exact ⟨hempty.holds_iff.mpr rfl, rfl, rfl, rfl, rfl, rfl, fun _ => rfl, rfl⟩
  zero := hzero
  tags hx := by
    obtain ⟨rfl, hops⟩ := hblock hx
    exact ⟨rfl, rfl, fun _ => hops⟩
  retags := Retags.refl _

variable [Device δ] [Coprocessor κ] {r : Returned δ κ}

/-- A call of generated code that ends is explained by a run of the interpreter. -/
theorem explains_call {σ : Site δ κ} (hF : σ.source.Faithful σ.exact) (hw : cache.WellFormed)
    {p : HostProgram} (hgenerate : (generate σ.source cache).result = .ok p) {entry : Nat}
    (hentry : entry = 0 ∨ entry ∈ p.targets) {m : Machine δ κ} {b : Block}
    (hzero : σ.exact → m.regs.get 0 = 0)
    (hblock : σ.exact → b = σ.block ∧ b.ops = some σ.source.ops) {fuel : Nat}
    (hcall : p.call fuel entry m b = .finished r) :
    Explains σ fuel entry { machine := m, ops := σ.source.ops, pc := σ.address entry } r := by
  obtain ⟨sEnd, ha⟩ := assembled_of_generate hF hw hgenerate
  obtain ⟨place, hlabel⟩ := ha.targets hentry
  obtain ⟨rest, s, hpoint, hplace, hempty, hlag⟩ := (ha.labelled hlabel).point
  rw [call, ha.entry hlabel] at hcall
  have hst := stands_start σ hempty hlag hzero hblock place (σ.address entry)
  exact Lowering.explains_of_point hF ha fuel rest hpoint hst hplace.symm rfl rfl hcall

/-- The built-in generator has code made and names its targets. -/
theorem generate_of_compile {g : HostGenerator} {source : BlockSource} {emitted : Emitted}
    (h : (g.compile source cache).result = .ok emitted) :
    (generate source cache).result = .ok emitted.program ∧
      emitted.targets = emitted.program.targets := by
  unfold HostGenerator.compile at h
  dsimp only at h
  split at h
  · cases h
  · rename_i program hp
    cases h
    exact ⟨hp, rfl⟩

/-! ## Iterations of the interpreter -/

/-- The interpreter, started at `start` and free of its budget, arrives at `next` with no branch
pending after `k` iterations, or leaves for `next` in the last of them. It has `c` then. -/
inductive GetsTo (base : UInt32) (start : Cursor δ κ) (next : UInt32) : Nat → Cursor δ κ → Prop
  | arrives {k : Nat} {c : Cursor δ κ} (hrun : iterate (stepFreely base) k start = .running c)
      (hpc : c.pc = next) (hpending : c.pending = none) : GetsTo base start next k c
  | exits {k : Nat} {c : Cursor δ κ} {index : Nat}
      (hrun : iterate (stepFreely base) k start = .running c)
      (hindex : indexIn? base c.ops.size c.pc = some index)
      (hstep : (c.effect index).step = .exit next) :
      GetsTo base start next (k + 1) (c.ran index (c.effect index))

/-- Code called for block `b` came back with what cursor `c` has: only the cycle budget and the log
may differ. Where there are new access tags, the block asks for new code. -/
structure Returned.Matches (r : Returned δ κ) (b : Block) (c : Cursor δ κ) : Prop where
  regs : r.machine.regs = c.machine.regs
  memory : r.machine.memory = c.machine.memory
  cop0 : r.machine.cop0 = c.machine.cop0
  cop2 : r.machine.cop2 = c.machine.cop2
  current : r.machine.clock.current = c.machine.clock.current
  exit : r.machine.clock.exit = c.machine.clock.exit
  hostInvalidationOnly : r.machine.hostInvalidationOnly = c.machine.hostInvalidationOnly
  ops : r.block.ops = some c.ops
  block : r.block =
    if c.tagged then (c.machine.flagRecompile { b with ops := some c.ops }).1 else b
  entries : r.machine.entries =
    if c.tagged then (c.machine.flagRecompile { b with ops := some c.ops }).2.entries
    else c.machine.entries

variable {σ : Site δ κ}

theorem Path.iterate (hx : σ.exact) {path : List Nat} {c c' : Cursor δ κ} (h : Path σ path c c') :
    iterate (stepFreely σ.source.pc) path.length c = .running c' := by
  induction path generalizing c with
  | nil =>
    cases h
    rfl
  | cons index path ih =>
    obtain ⟨d, hmoves, hrest⟩ := h
    rw [List.length_cons, iterate_succ, hmoves.free hx]
    exact ih hrest

omit [Device δ] [Coprocessor κ] in
theorem Ends.matches (hx : σ.exact) {c : Cursor δ κ} {next : UInt32}
    (h : Ends σ r c next) : r.Matches σ.block c := by
  have htags := h.tags hx
  have hentries := h.agrees.entries hx
  refine ⟨h.agrees.regs, h.agrees.memory, h.agrees.cop0, h.agrees.cop2, h.agrees.current,
    h.agrees.exit, h.agrees.hostInvalidationOnly, htags.ops_block, ?_, ?_⟩
  · rw [htags.block]
    cases c.tagged with
    | false => rfl
    | true => exact (Block.fst_flagRecompile _ _).symm
  · rw [hentries]
    cases c.tagged with
    | false => rfl
    | true =>
      refine Eq.trans ?_ (Block.table_flagRecompile _ _).symm
      exact congrFun (Block.demote_congr rfl rfl) _

theorem Reaches.getsTo (hx : σ.exact) {path : List Nat} {c : Cursor δ κ} (h : Reaches σ path c r) :
    ∃ k c', GetsTo σ.source.pc c r.next k c' ∧ r.Matches σ.block c' := by
  cases h with
  | arrives hpath hpending hend =>
    exact ⟨_, _, .arrives (hpath.iterate hx) hend.next.symm hpending, hend.matches hx⟩
  | exits hpath hindex hstep hend =>
    exact ⟨_, _, .exits (hpath.iterate hx) hindex (hend.next ▸ hstep), hend.matches hx⟩

/-- A block whose last instruction is no branch has all delay slots. -/
theorem slot_lt_size {ops : Array Op} (hlast : ∀ o ∈ ops.back?, o.instr.hasDelaySlot = false)
    {index : Nat} {o : Op} (ho : ops[index]? = some o) (hi : o.instr.hasDelaySlot = true) :
    index + 1 < ops.size := by
  have hlt := (Array.getElem?_eq_some_iff.mp ho).1
  rcases Nat.lt_or_eq_of_le hlt with h | h
  · exact h
  · have hback : ops.back? = some o := by
      rw [Array.back?_eq_getElem?, ← h]
      exact ho
    rw [hlast o hback] at hi
    cases hi

/-- Generated code refines the interpreter: a call that comes back does what some number of
iterations do. -/
theorem call_refines_interpreter (layout : Layout) (config : Config) (pc : UInt32) (ops : Array Op)
    (hsize : ops.size ≤ 65535)
    (hplain : ∀ o ∈ ops, o.flags.localBranch = false ∧ o.flags.noDelaySlot = false)
    (hlez : ∀ o ∈ ops, Interpreter.isSelfLez o.instr = false)
    (hlast : ∀ o ∈ ops.back?, o.instr.hasDelaySlot = false) (g : HostGenerator)
    (cache : RegisterCache) {emitted : Emitted}
    (hcompile : (g.compile { pc, ops := (annotate layout config pc ops).ops } cache.reset).result =
      .ok emitted)
    {entry : Nat} (hentry : entry = 0 ∨ entry ∈ emitted.targets) {m : Machine δ κ}
    (hzero : m.regs.get 0 = 0) {b : Block} (hb : b.ops = some (annotate layout config pc ops).ops)
    {fuel : Nat} {r : Returned δ κ} (hcall : emitted.program.call fuel entry m b = .finished r) :
    ∃ k c, GetsTo pc
        { machine := m, ops := (annotate layout config pc ops).ops, pc := pc + entry.toUInt32 * 4 }
        r.next k c ∧
      r.Matches b c := by
  let σ : Site δ κ :=
    { block := b, source := { pc, ops := (annotate layout config pc ops).ops }, exact := True }
  have hF : σ.source.Faithful σ.exact := (annotates_annotate layout config pc ops).faithful
    (faithful_of_plain hsize hplain (fun _ => slot_lt_size hlast) (fun _ => hlez))
  obtain ⟨hgenerate, htargets⟩ := generate_of_compile hcompile
  obtain ⟨path, hreach, -⟩ := explains_call hF cache.wellFormed_reset hgenerate (htargets ▸ hentry)
    (fun _ => hzero) (fun _ => ⟨rfl, hb⟩) hcall
  exact hreach.getsTo trivial

/-- A loop that counts register 4 down to zero and returns. -/
def countdown : Array Op :=
  #[.ofWord 0x2484ffff, .ofWord 0x1480fffe, .ofWord 0x25080001, .ofWord 0x03e00008, .ofWord 0]

/-- A machine about to count from two. -/
def countdownMachine : Machine RegisterBank StandardCoprocessor where
  regs := (({} : Registers).set 4 2).set .ra 0x2000
  clock := { target := 1000 }
  memory := default
  cop0 := .inert
  cop2 := .inert
  entries := {}

/-- The loop runs twice, jumping back inside its code, and the interpreter agrees. -/
theorem call_refines_interpreter_countdown : ∃ emitted r,
      (({} : HostGenerator).compile
        { pc := 0x1000, ops := (annotate default {} 0x1000 countdown).ops }
        ({} : RegisterCache).reset).result = .ok emitted ∧
      emitted.program.call 100 0 countdownMachine
        (.ofOps 0x1000 (annotate default {} 0x1000 countdown).ops {}) = .finished r ∧
      ∃ k c, GetsTo 0x1000
          { machine := countdownMachine, ops := (annotate default {} 0x1000 countdown).ops
            pc := 0x1000 + Nat.toUInt32 0 * 4 } r.next k c ∧
        r.Matches (.ofOps 0x1000 (annotate default {} 0x1000 countdown).ops {}) c := by
  have hends : (match (({} : HostGenerator).compile
        { pc := 0x1000, ops := (annotate default {} 0x1000 countdown).ops }
        ({} : RegisterCache).reset).result with
      | .ok emitted =>
        match emitted.program.call 100 0 countdownMachine
            (.ofOps 0x1000 (annotate default {} 0x1000 countdown).ops {}) with
        | .finished _ => true
        | .running _ => false
      | .error _ => false) = true := by decide +kernel
  split at hends
  · rename_i emitted hcompile
    split at hends
    · rename_i r hcall
      exact ⟨emitted, r, hcompile, hcall, call_refines_interpreter default {} 0x1000 countdown
        (by decide) (by decide) (by decide) (by decide) {} {} hcompile (.inl rfl) (by decide) rfl
        hcall⟩
    · cases hends
  · cases hends

end HostProgram

end Dynarec
