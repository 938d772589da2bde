/-
  Dynarec.Proofs.Host.Correspondence

  When a frame of generated code stands for a cursor of the interpreter.

  The guest registers are spread over host registers and register file as the
  register cache says, the clock lags behind by the cycles not charged yet, and
  the table of entries may already know that the block wants new code, which
  the interpreter reports at its end only. Everything else is the same.
-/
import Dynarec.Host.Lowering
import Dynarec.Proofs.EntryTable
import Dynarec.Proofs.Host.Line
import Dynarec.Proofs.Interpreter
import Dynarec.Proofs.RegisterCache

namespace Dynarec

/-! ## Blocks that ask for new code -/

namespace Block

/-- The block after it asked for new code. -/
def demoted (b : Block) : Block :=
  match b.code with
  | none => b
  | some _ => b.setFlags { shouldRecompile := true }

/-- The table after the block asked for new code. -/
def demote (b : Block) (t : EntryTable) : EntryTable :=
  match b.code with
  | none => t
  | some code =>
    match t.index? b.pc with
    | some slot => (t.compareExchange slot (.code code.id 0) .pending).2
    | none => t

variable (b : Block) (t : EntryTable)

theorem fst_flagRecompile : (b.flagRecompile t).1 = b.demoted := by
  unfold flagRecompile demoted
  cases b.code <;> rfl

theorem table_flagRecompile : (b.flagRecompile t).2.1 = b.demote t := by
  unfold flagRecompile demote
  cases b.code <;> rfl

theorem regions_demote : (b.demote t).regions = t.regions := by
  unfold demote
  split
  · rfl
  · split
    · exact (t.compareExchange_frame _ _ _).1
    · rfl

/-- Asking for new code and invalidating can change places. -/
theorem table_invalidate_demote (addr length : UInt32) :
    ((b.demote t).invalidate addr length).2 = b.demote (t.invalidate addr length).2 := by
  unfold demote
  cases b.code with
  | none => rfl
  | some code =>
    dsimp only
    rw [EntryTable.index?_congr (t.invalidate_frame addr length).1]
    cases t.index? b.pc with
    | none => rfl
    | some slot =>
      dsimp only
      rw [t.invalidate_compareExchange slot (by simp) (by simp)]

/-- Asking twice is asking once. -/
theorem demote_demote : b.demote (b.demote t) = b.demote t := by
  have hr := b.regions_demote t
  unfold demote at hr ⊢
  cases hcode : b.code with
  | none => rfl
  | some code =>
    simp only [hcode] at hr ⊢
    rw [EntryTable.index?_congr hr]
    cases t.index? b.pc with
    | none => rfl
    | some slot =>
      dsimp only
      -- the slot holds something else by now
      have hne : (t.compareExchange slot (.code code.id 0) .pending).2.load slot
          ≠ .code code.id 0 := by
        rw [EntryTable.load_compareExchange_self t slot (by simp)]
        split
        · simp
        · assumption
      generalize (t.compareExchange slot (.code code.id 0) .pending).2 = u at hne
      unfold EntryTable.compareExchange
      rw [if_neg hne]

/-- The block as new access tags leave it. -/
def marked (b : Block) (tagged : Bool) (ops : Array Op) : Block :=
  if tagged then { b with ops := some ops }.demoted else b

/-- What new access tags do to the table. -/
def marks (b : Block) (tagged : Bool) : EntryTable → EntryTable := if tagged then b.demote else id

variable (tagged : Bool)

theorem table_invalidate_marks (t : EntryTable) (addr length : UInt32) :
    ((b.marks tagged t).invalidate addr length).2 = b.marks tagged (t.invalidate addr length).2 := by
  cases tagged with
  | false => rfl
  | true => exact b.table_invalidate_demote t addr length

theorem demote_marks (t : EntryTable) : b.demote (b.marks tagged t) = b.demote t := by
  cases tagged with
  | false => rfl
  | true => exact b.demote_demote t

theorem code_demoted : b.demoted.code = b.code := by
  unfold demoted
  split <;> rfl

theorem pc_demoted : b.demoted.pc = b.pc := by
  unfold demoted
  split <;> rfl

theorem ops_demoted : b.demoted.ops = b.ops := by
  unfold demoted
  split <;> rfl

theorem demote_congr {a b : Block} (hc : a.code = b.code) (hp : a.pc = b.pc) :
    a.demote = b.demote := by
  funext t
  unfold demote
  rw [hc, hp]

theorem code_marked (ops : Array Op) : (b.marked tagged ops).code = b.code := by
  cases tagged with
  | false => rfl
  | true => exact code_demoted _

theorem pc_marked (ops : Array Op) : (b.marked tagged ops).pc = b.pc := by
  cases tagged with
  | false => rfl
  | true => exact pc_demoted _

theorem demoted_withOps_demoted (ops : Array Op) :
    { b.demoted with ops := some ops }.demoted = { b with ops := some ops }.demoted := by
  unfold demoted
  cases hcode : b.code with
  | none => simp only [hcode]
  | some code =>
    simp only [hcode, setFlags, BlockFlags.union, Bool.or_true, Bool.or_false]

/-- Marking a block once more keeps the last tags. -/
theorem demoted_withOps_marked (ops ops' : Array Op) :
    { b.marked tagged ops with ops := some ops' }.demoted = b.marked true ops' := by
  cases tagged with
  | false => rfl
  | true => exact demoted_withOps_demoted { b with ops := some ops } ops'

end Block

theorem Machine.tick_zero {δ κ : Type} (m : Machine δ κ) : m.tick 0 = m := by
  simp [Machine.tick, Clock.add]

namespace HostProgram

open Interpreter (Cursor)

/-- A block and the instructions its code was generated from, on machines with devices `δ`
and coprocessors `κ`. Where the two need not belong together, `exact` is false; then nothing is
said about what happens to the block, nor about register zero. -/
structure Site (δ κ : Type) where
  block : Block
  source : BlockSource
  exact : Prop

variable {δ κ : Type}

/-- The first table may already know that the block wants new code. -/
def Site.Tracks (σ : Site δ κ) (tagged : Bool) (t u : EntryTable) : Prop :=
  σ.exact → t = σ.block.marks tagged u

theorem Site.respects_tracks (σ : Site δ κ) (tagged : Bool) :
    EntryTable.Respects (σ.Tracks tagged) := by
  intro t u addr length h hx
  rw [h hx, σ.block.table_invalidate_marks]

/-- A block, and whether code has tagged it, as an interpreter with tags `ops` would leave it;
`tagged` says whether any of them are new. -/
structure Tagged (σ : Site δ κ) (block : Block) (changed : Bool) (ops : Array Op)
    (tagged : Bool) : Prop where
  block : block = σ.block.marked tagged ops
  changed : changed = tagged
  /-- Until there are new tags the block has none. -/
  untagged : tagged = false → σ.block.ops = some ops

theorem Tagged.ops_block {σ : Site δ κ} {block : Block} {changed tagged : Bool} {ops : Array Op}
    (h : Tagged σ block changed ops tagged) : block.ops = some ops := by
  rw [h.block]
  cases ht : tagged with
  | false => exact h.untagged ht
  | true => exact Block.ops_demoted _

/-- Frame `f`, with its guest registers where `cache` says and its clock behind by `lag`
cycles, stands for cursor `c`. -/
structure Stands (σ : Site δ κ) (cache : RegisterCache) (lag : UInt32) (f : Frame δ κ)
    (c : Cursor δ κ) : Prop where
  agrees : Machine.Agrees (σ.Tracks c.tagged)
    (fun file regs => cache.Holds { host := f.host, file } regs) (f.machine.tick lag) c.machine
  zero : σ.exact → c.machine.regs.get 0 = 0
  tags : σ.exact → Tagged σ f.block f.tagged c.ops c.tagged
  retags : Retags σ.source.ops c.ops

/-- Code was left at `next` with what cursor `c` has. -/
structure Ends (σ : Site δ κ) (r : Returned δ κ) (c : Cursor δ κ) (next : UInt32) : Prop where
  agrees : Machine.Agrees (σ.Tracks c.tagged) Eq r.machine c.machine
  tags : σ.exact → Tagged σ r.block r.tagged c.ops c.tagged
  next : r.next = next

namespace Stands

variable {σ : Site δ κ} {cache : RegisterCache} {lag : UInt32} {f : Frame δ κ} {c : Cursor δ κ}

section

variable (h : Stands σ cache lag f c)
include h

/-- Place, condition and jump target do not matter. -/
theorem withControl (condition : Bool) (target : UInt32)
    (place : Nat) : Stands σ cache lag { f with condition, target, place } c :=
  ⟨h.agrees, h.zero, h.tags, h.retags⟩

theorem withCursorControl (pc : UInt32) (pending : Option UInt32) :
    Stands σ cache lag f { c with pc, pending } :=
  ⟨h.agrees, h.zero, h.tags, h.retags⟩

variable {cache' : RegisterCache}

/-- A cache that maps the same registers will do. -/
theorem withCache (hs : cache.SameUse cache') : Stands σ cache' lag f c :=
  { h with agrees := h.agrees.imp fun hr => hs.holds hr }

/-- One empty cache is as good as another. -/
theorem ofEmpty (hc : cache.Empty) (hc' : cache'.Empty) : Stands σ cache' lag f c :=
  { h with agrees := h.agrees.imp fun hb => hc'.holds_iff.mpr (hc.holds_iff.mp hb) }

/-- New places and values of the guest registers. -/
theorem withBank {bank : Bank} {regs : Registers} (hb : cache'.Holds bank regs)
    (h0 : σ.exact → regs.get 0 = 0) (place : Nat) :
    Stands σ cache' lag
      { f with host := bank.host, machine := { f.machine with regs := bank.file }, place }
      { c with machine := { c.machine with regs } } :=
  ⟨h.agrees.withRegs hb, h0, h.tags, h.retags⟩

/-- Cycles to be charged later are charged to the cursor at once. -/
theorem charge (cycles : UInt32) :
    Stands σ cache (lag + cycles) f { c with machine := c.machine.tick cycles } where
  agrees := by
    have ht := h.agrees.tick cycles
    rwa [show (f.machine.tick lag).tick cycles = f.machine.tick (lag + cycles) by
      simp [Machine.tick, Clock.add, UInt32.add_assoc]] at ht
  zero := h.zero
  tags := h.tags
  retags := h.retags

/-- The cycles behind are charged. -/
theorem caughtUp (place : Nat) :
    Stands σ cache 0 { f with machine := f.machine.tick lag, place } c where
  agrees := (Machine.tick_zero (f.machine.tick lag)).symm ▸ h.agrees
  zero := h.zero
  tags := h.tags
  retags := h.retags

/-- Where nothing waits to be written back, the register file has the guest's values. -/
theorem regs_eq (hc : cache.Clean) : f.machine.regs = c.machine.regs :=
  h.agrees.regs.file_eq hc

end

/-- With all cycles charged and all registers written back, code can be left. -/
theorem ends (h : Stands σ cache 0 f c) (hc : cache.Clean) (next : UInt32) :
    ∃ r, f.leave next = .finished r ∧ Ends σ r c next := by
  refine ⟨_, rfl, ?_, h.tags, rfl⟩
  have ha := h.agrees
  rw [f.machine.tick_zero] at ha
  exact ha.imp fun _ => h.regs_eq hc

end Stands

end HostProgram

end Dynarec
