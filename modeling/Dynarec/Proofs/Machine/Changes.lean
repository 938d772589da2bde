/-
  Dynarec.Proofs.Machine.Changes

  What can happen to the memory and the entries of a machine.

  `Change` is the list of it. Guest code brings about few of these changes: it
  writes to memory and invalidates what it overwrites, unless only the host
  may, and it sends the entry of a block back to the dispatcher. Registers,
  clock, devices and coprocessors change freely.
-/
import Dynarec.Host.Run
import Dynarec.Proofs.EntryTable
import Dynarec.Proofs.Machine.Agreement
import Dynarec.Proofs.Memory
import Dynarec.Proofs.Operation
import Mathlib.Logic.Relation

namespace Dynarec

variable {δ κ : Type}

/-- The `length` bytes that `addr` names are those of region `index` from `offset` on. The address
is one that leads there, or the one inside the region that it leads to. -/
structure Memory.Places (m : Memory δ) (addr length : UInt32) (index offset : Nat) : Prop where
  resolves : ∃ origin r, m.layout.resolve origin = .ok r ∧ r.index = index ∧
    r.offset.toNat = offset ∧ (addr = origin ∨ addr = r.paddr)
  fits : ∃ size, m.size? index = some size ∧ offset + length.toNat ≤ size

namespace Machine

/-- One thing that happens to memory and entries. `free` says whether the host may do as it likes:
write without invalidating anything, and choose who invalidates. -/
inductive Change (free : Prop) : Machine δ κ → Machine δ κ → Prop
  /-- Nothing does. -/
  | control {m m' : Machine δ κ} (hmemory : m.memory.SameExcept Memory.nowhere m'.memory)
      (hentries : m'.entries = m.entries)
      (hmode : m'.hostInvalidationOnly = m.hostInvalidationOnly) : Change free m m'
  /-- Bytes are written and invalidated. -/
  | write {m m' : Machine δ κ} {addr length : UInt32} {index offset : Nat}
      (hplaces : m.memory.Places addr length index offset)
      (hmemory : m.memory.SameExcept (Memory.range index offset length.toNat) m'.memory)
      (hentries : m'.entries = (m.entries.invalidate addr length).2)
      (hmode : m'.hostInvalidationOnly = m.hostInvalidationOnly) : Change free m m'
  /-- Bytes are written and nothing is invalidated. -/
  | overwrite {m m' : Machine δ κ} (hallowed : free ∨ m.hostInvalidationOnly = true)
      (hmemory : m.memory.SameExcept Memory.everywhere m'.memory)
      (hentries : m'.entries = m.entries)
      (hmode : m'.hostInvalidationOnly = m.hostInvalidationOnly) : Change free m m'
  /-- An entry that leads to the start of code is sent back to the dispatcher. -/
  | demote {m : Machine δ κ} (slot : Nat) (id : CodeId) :
      Change free m { m with entries := (m.entries.compareExchange slot (.code id 0) .pending).2 }
  | invalidate {m : Machine δ κ} (addr length : UInt32) :
      Change free m { m with entries := (m.entries.invalidate addr length).2 }
  | invalidateAll {m : Machine δ κ} : Change free m { m with entries := m.entries.invalidateAll }
  | mode {m : Machine δ κ} (hfree : free) (hostOnly : Bool) :
      Change free m { m with hostInvalidationOnly := hostOnly }

/-- Such things, one after the other. -/
def Changes (free : Prop) : Machine δ κ → Machine δ κ → Prop := Relation.ReflTransGen (Change free)

namespace Changes

variable {free : Prop} {m m' m'' : Machine δ κ}

theorem refl (m : Machine δ κ) : Changes free m m := Relation.ReflTransGen.refl

theorem single (h : Change free m m') : Changes free m m' := Relation.ReflTransGen.single h

theorem trans (h1 : Changes free m m') (h2 : Changes free m' m'') : Changes free m m'' :=
  Relation.ReflTransGen.trans h1 h2

/-- Memory and entries stay as they are. -/
theorem control (hmemory : m'.memory = m.memory) (hentries : m'.entries = m.entries)
    (hmode : m'.hostInvalidationOnly = m.hostInvalidationOnly) : Changes free m m' :=
  single (.control (hmemory ▸ Memory.SameExcept.refl _ _) hentries hmode)

/-- The map stays. -/
theorem layout (h : Changes free m m') : m'.memory.layout = m.memory.layout := by
  induction h with
  | refl => rfl
  | tail _ h ih =>
    rw [← ih]
    cases h with
    | control hmemory | write _ hmemory | overwrite _ hmemory => exact hmemory.layout
    | demote | invalidate | invalidateAll | mode => rfl

end Changes

/-! ## Requests and coprocessors -/

variable (free : Prop)

theorem changes_grant (m : Machine δ κ) (request : Request) : Changes free m (m.grant request) := by
  cases request with
  | resetCycle | exit | note => exact .control rfl rfl rfl

theorem changes_grantAll (m : Machine δ κ) (requests : List Request) :
    Changes free m (m.grantAll requests) := by
  induction requests generalizing m with
  | nil => exact .refl m
  | cons request requests ih => exact (changes_grant free m request).trans (ih _)

section Coprocessor

variable [Coprocessor κ]

omit [Coprocessor κ] in
/-- A coprocessor has been called and got what it asked for. -/
theorem changes_withCops (m : Machine δ κ) (cop0 cop2 : κ)
    (requests : List Request) : Changes free m ({ m with cop0, cop2 }.grantAll requests) := by
  have hcops : Changes free m { m with cop0, cop2 } := .control rfl rfl rfl
  exact hcops.trans (changes_grantAll free _ requests)

theorem changes_copRead (m : Machine δ κ) (i : Instruction) (r : Reg)
    (control : Bool) : Changes free m (m.copRead i r control).2 := by
  unfold copRead
  split
  · rcases Coprocessor.read m.cop0 control i.word r m.clock.current with ⟨value, cop0, requests⟩
    exact changes_withCops free m cop0 m.cop2 requests
  · rcases Coprocessor.read m.cop2 control i.word r m.clock.current with ⟨value, cop2, requests⟩
    exact changes_withCops free m m.cop0 cop2 requests

theorem changes_copWrite (m : Machine δ κ) (i : Instruction) (r : Reg) (value : UInt32)
    (control : Bool) : Changes free m (m.copWrite i r value control) := by
  unfold copWrite
  split
  · rcases Coprocessor.write m.cop0 control i.word r value m.clock.current with ⟨cop0, requests⟩
    exact changes_withCops free m cop0 m.cop2 requests
  · rcases Coprocessor.write m.cop2 control i.word r value m.clock.current with ⟨cop2, requests⟩
    exact changes_withCops free m m.cop0 cop2 requests

theorem changes_copExecute (m : Machine δ κ) (i : Instruction) :
    Changes free m (m.copExecute i) := by
  unfold copExecute
  split
  · exact (changes_copRead free m i _ _).trans (changes_copWrite free _ i _ _ _)
  · split
    · rcases Coprocessor.execute m.cop0 i.word m.clock.current with ⟨cop0, requests⟩
      exact changes_withCops free m cop0 m.cop2 requests
    · rcases Coprocessor.execute m.cop2 i.word m.clock.current with ⟨cop2, requests⟩
      exact changes_withCops free m m.cop0 cop2 requests

end Coprocessor

/-! ## Accesses -/

/-- Bytes written by guest code are invalidated, unless only the host may do that. -/
theorem changes_invalidateByGuest {m : Machine δ κ} {memory : Memory δ} {addr length : UInt32}
    {index offset : Nat} (hplaces : m.memory.Places addr length index offset)
    (hmemory : m.memory.SameExcept (Memory.range index offset length.toNat) memory) :
    Changes False m ({ m with memory }.invalidateByGuest addr length) := by
  unfold invalidateByGuest
  by_cases hmode : m.hostInvalidationOnly = true
  · rw [if_pos (by simp [hmode])]
    exact .single (.overwrite (.inr hmode) (hmemory.mono fun _ => trivial) rfl rfl)
  · cases hreach : m.entries.mayReach addr length with
    | false =>
      rw [if_pos (by simp)]
      refine .single (.write hplaces hmemory ?_ rfl)
      rw [EntryTable.invalidate_of_not_mayReach hreach]
    | true =>
      rw [if_neg (by simp [hmode])]
      exact .single (.write hplaces hmemory rfl rfl)

/-- A device has been called and got what it asked for. -/
theorem changes_callDevice {α : Type} (m : Machine δ κ) (index : Nat) (f : δ → α × δ)
    {answer : Option α} {memory : Memory δ} (h : m.memory.callDevice index f = (answer, memory))
    (requests : List Request) : Changes free m ({ m with memory }.grantAll requests) := by
  have hsame := m.memory.sameExcept_callDevice index f
  rw [h] at hsame
  have hcall : Changes free m { m with memory } := .single (.control hsame rfl rfl)
  exact hcall.trans (changes_grantAll free _ requests)

variable [Device δ]

theorem changes_load (m : Machine δ κ) (r : Resolved) (word addr : UInt32)
    (size : AccessSize) : Changes free m (m.load r word addr size).2 := by
  unfold load
  split
  · split
    · exact .refl m
    · split
      · exact .refl m
      · exact .refl m
  · dsimp only
    split
    · rename_i memory heq
      exact changes_callDevice free m r.index _ heq []
    · rename_i value requests memory heq
      exact changes_callDevice free m r.index _ heq requests

omit [Device δ] in
theorem toNat_bytes (size : AccessSize) : size.bytes.toUInt32.toNat = size.bytes := by
  cases size <;> rfl

omit [Device δ] in
theorem local_writeSized (offset : Nat) (value : UInt32) (size : AccessSize) :
    Bytes.Local (fun data => Memory.writeSized data offset value size) offset size.bytes := by
  cases size with
  | byte => exact Bytes.local_setByte offset _
  | half => exact Bytes.local_setHalf offset _
  | word => exact Bytes.local_setWord offset _

theorem changes_store {m : Machine δ κ} {origin : UInt32} {r : Resolved}
    (hr : m.memory.layout.resolve origin = .ok r) (word addr : UInt32) (size : AccessSize)
    (value : UInt32) : Changes False m (m.store r word addr size value).2 := by
  unfold store
  split
  · split
    · exact .control rfl rfl rfl
    · split
      · exact .refl m
      · rename_i limit hlimit
        split
        · rename_i hfits
          have hplaces : m.memory.Places r.paddr size.bytes.toUInt32 r.index r.offset.toNat := by
            refine ⟨⟨origin, r, hr, rfl, rfl, .inr rfl⟩, limit, hlimit, ?_⟩
            rw [toNat_bytes]
            exact hfits
          refine changes_invalidateByGuest hplaces ?_
          rw [toNat_bytes]
          exact m.memory.sameExcept_modifyBytes r.index (local_writeSized _ value size)
        · exact .refl m
  · dsimp only
    split
    · rename_i memory heq
      exact changes_callDevice False m r.index _ heq []
    · rename_i requests memory heq
      exact changes_callDevice False m r.index _ heq requests

theorem changes_loadAligned (m : Machine δ κ) (word addr : UInt32) :
    Changes free m (m.loadAligned word addr).2 := by
  unfold loadAligned
  split
  · exact .refl m
  · rename_i r _
    have h := changes_load free m r word (aligned addr) .word
    generalize m.load r word (aligned addr) .word = answer at h ⊢
    rcases answer with ⟨_ | value, m'⟩
    · exact h
    · exact h

/-- The word around an address is where its address leads. -/
theorem resolve_of_loadAligned {m m' : Machine δ κ} {word addr value : UInt32} {r : Resolved}
    (h : m.loadAligned word addr = (.ok (r, value), m')) :
    m.memory.layout.resolve (aligned addr) = .ok r := by
  unfold loadAligned at h
  split at h
  · cases h
  · rename_i r' hr
    rcases hload : m.load r' word (aligned addr) .word with ⟨_ | value', m''⟩
    · rw [hload] at h
      cases h
    · rw [hload] at h
      cases h
      exact hr

/-- What every load and every store does to a machine, every access does. -/
theorem access_induction {P : Machine δ κ → Machine δ κ → Prop} (hrefl : ∀ m, P m m)
    (htrans : ∀ {m m' m''}, P m m' → P m' m'' → P m m'')
    (hload : ∀ m r word addr size, P m (m.load r word addr size).2)
    (hstore : ∀ m {origin : UInt32} {r : Resolved}, m.memory.layout.resolve origin = .ok r →
      ∀ word addr size value, P m (m.store r word addr size value).2)
    (m : Machine δ κ) (kind : MemoryAccess) (word addr value : UInt32) :
    P m (m.access kind word addr value).2 := by
  unfold access
  split
  · exact hrefl m
  · rename_i r hr
    -- One lemma for each way to get at memory; merged accesses are made of the others.
    have hplain : ∀ size extend, P m (m.extendedLoad r word addr size extend).2 := by
      intro size extend
      have h := hload m r word addr size
      unfold extendedLoad
      generalize m.load r word addr size = answer at h ⊢
      rcases answer with ⟨_ | v, m'⟩
      · exact h
      · exact h
    have haligned : P m (m.loadAligned word addr).2 := by
      unfold loadAligned
      split
      · exact hrefl m
      · rename_i r' _
        have h := hload m r' word (aligned addr) .word
        generalize m.load r' word (aligned addr) .word = answer at h ⊢
        rcases answer with ⟨_ | v, m'⟩
        · exact h
        · exact h
    have hmerged : ∀ merge, P m (m.mergedLoad r.kind word addr value merge).2 := by
      intro merge
      unfold mergedLoad
      generalize m.loadAligned word addr = answer at haligned ⊢
      rcases answer with ⟨_ | ⟨r', v⟩, m'⟩
      · exact haligned
      · exact haligned
    have hplainStore : ∀ size, P m (m.plainStore r word addr size value).2 := by
      intro size
      have h := hstore m hr word addr size value
      unfold plainStore
      generalize m.store r word addr size value = answer at h ⊢
      rcases answer with ⟨_ | f, m'⟩
      · exact h
      · exact h
    have hmerge : ∀ merge, P m (m.mergedStore r.kind word addr value merge).2 := by
      intro merge
      have hlayout := (changes_loadAligned False m word addr).layout
      unfold mergedStore
      rcases hl : m.loadAligned word addr with ⟨_ | ⟨r', v⟩, m'⟩
      · rw [hl] at haligned
        exact haligned
      · rw [hl] at haligned hlayout
        -- the word is written back where it was read, and the map is still the same
        have hr' := resolve_of_loadAligned hl
        rw [← hlayout] at hr'
        have hs := htrans haligned
          (hstore m' hr' word (aligned addr) .word (merge value v (lane addr)))
        dsimp only at hs ⊢
        generalize m'.store r' word (aligned addr) .word (merge value v (lane addr)) = answer at hs ⊢
        rcases answer with ⟨_ | f, m''⟩
        · exact hs
        · exact hs
    cases kind with
    | lb | lbu | lh | lhu | lw | lwc2 => exact hplain _ _
    | lwl | lwr => exact hmerged _
    | sb | sh | sw | swc2 => exact hplainStore _
    | swl | swr => exact hmerge _

variable (m : Machine δ κ)

theorem changes_access (kind : MemoryAccess) (word addr value : UInt32) :
    Changes False m (m.access kind word addr value).2 :=
  access_induction .refl .trans (changes_load False) (fun _ _ _ hr => changes_store hr) m kind word
    addr value

variable [Coprocessor κ]

theorem changes_transfer (i : Instruction) (base data : UInt32) :
    Changes False m (m.transfer i base data).machine := by
  cases hk : i.memoryAccess? with
  | none =>
    unfold transfer
    rw [hk]
    exact .control rfl rfl rfl
  | some kind =>
    rw [transfer_of_some hk]
    have hsupply : Changes False m (m.supply i kind data).2 := by
      cases kind with
      | swc2 => exact changes_copRead False m i _ _
      | _ => exact .refl m
    have h := hsupply.trans (changes_access _ kind i.word (base + i.simm) (m.supply i kind data).1)
    generalize (m.supply i kind data).2.access kind i.word (base + i.simm)
      (m.supply i kind data).1 = answer at h ⊢
    rcases answer with ⟨fault | ⟨loaded, region⟩, m'⟩
    · exact h.trans (.control rfl rfl rfl)
    · cases kind with
      | lwc2 => exact h.trans (changes_copWrite False m' i _ _ _)
      | _ => exact h

omit [Device δ] [Coprocessor κ] in
theorem changes_memset : Changes False m m.memset.2 := by
  unfold memset
  dsimp only
  split
  · exact .refl m
  · rename_i hcount
    split
    · exact .refl m
    · rename_i r hr
      split
      · exact .refl m
      · split
        · exact .refl m
        · rename_i limit hlimit
          split
          · rename_i hfits
            -- the count is small enough for its bytes to be counted in a word
            have hlength : ((m.regs.get .a1).toNat * 4).toUInt32.toNat =
                (m.regs.get .a1).toNat * 4 := by
              refine UInt32.toNat_ofNat_of_lt' ?_
              simp only [Bool.or_eq_true, decide_eq_true_eq, not_or] at hcount
              rw [UInt32.size]
              omega
            have hplaces : m.memory.Places r.paddr ((m.regs.get .a1).toNat * 4).toUInt32 r.index
                r.offset.toNat := by
              refine ⟨⟨m.regs.get .a0, r, hr, rfl, rfl, .inr rfl⟩, limit, hlimit, ?_⟩
              rw [hlength]
              exact hfits
            refine Changes.trans (changes_invalidateByGuest hplaces ?_) (.control rfl rfl rfl)
            rw [hlength]
            exact m.memory.sameExcept_modifyBytes r.index (Bytes.local_fill 0 _ _)
          · exact .refl m

end Machine

/-! ## Instructions and blocks -/

open Machine (Changes)

variable [Device δ] [Coprocessor κ]

/-- The machine of a loop state or of its result. -/
def Interpreter.machineOf : Progress (Cursor δ κ) (Outcome δ κ) → Machine δ κ
  | .running c => c.machine
  | .finished o => o.machine

/-- The machine of a running program or of one that has been left. -/
def HostProgram.machineOf : Progress (Frame δ κ) (Returned δ κ) → Machine δ κ
  | .running f => f.machine
  | .finished r => r.machine

/-- A relation between machines that holds across all that guest code does in one go. -/
structure Machine.GuestRelation (P : Machine δ κ → Machine δ κ → Prop) : Prop where
  refl : ∀ m, P m m
  trans : ∀ {m m' m''}, P m m' → P m' m'' → P m m''
  setReg : ∀ m r value, P m (m.setReg r value)
  tick : ∀ m cycles, P m (m.tick cycles)
  setExit : ∀ m flags, P m (m.setExit flags)
  note : ∀ m n, P m (m.note n)
  flagRecompile : ∀ m b, P m (m.flagRecompile b).2
  copRead : ∀ m i r control, P m (m.copRead i r control).2
  copWrite : ∀ m i r value control, P m (m.copWrite i r value control)
  copExecute : ∀ m i, P m (m.copExecute i)
  transfer : ∀ m i base data, P m (m.transfer i base data).machine

namespace Machine.GuestRelation

open Interpreter (Cursor Outcome Emulated cyclesPerOp)
open HostProgram (Frame Returned)

variable {P : Machine δ κ → Machine δ κ → Prop} (hP : GuestRelation P)
include hP

variable (m : Machine δ κ)

theorem execute (i : Instruction) (pc : UInt32) : P m (Interpreter.execute m i pc).machine := by
  rw [Interpreter.execute_eq]
  unfold Interpreter.executeOperation
  cases i.operation with
  | shift | shiftVariable | jumpLinkRegister | moveFromHi | moveFromLo | moveToHi | moveToLo | alu
  | aluImmediate | loadUpper | jumpLink => exact hP.setReg m _ _
  | jumpRegister | jump => exact hP.refl m
  | syscall | breakpoint => exact hP.setExit m _
  | unknown => exact hP.trans (hP.note m _) (hP.setExit _ _)
  | mulDiv => exact hP.trans (hP.setReg m _ _) (hP.setReg _ _ _)
  | branch condition link =>
    have hlink : P m (if link then m.setReg .ra (pc + 8) else m) := by
      cases link with
      | true => exact hP.setReg m _ _
      | false => exact hP.refl m
    dsimp only
    split
    · exact hlink
    · exact hlink
  | copRead control => exact hP.trans (hP.copRead m i _ _) (hP.setReg _ _ _)
  | copWrite control => exact hP.copWrite m i _ _ _
  | copExecute => exact hP.copExecute m i
  | memory access =>
    have h := hP.transfer m i (m.regs.get i.rs) (m.regs.get i.rt)
    dsimp only [Interpreter.executeAccess]
    split
    · exact h
    · split
      · exact h
      · exact hP.trans h (hP.setReg _ _ _)

theorem tick_execute (cycles : UInt32) (i : Instruction) (pc : UInt32) :
    P m (Interpreter.execute (m.tick cycles) i pc).machine :=
  hP.trans (hP.tick m cycles) (hP.execute _ i pc)

theorem runOutside (pc target : UInt32) : P m (Interpreter.runOutside m pc target).2 := by
  unfold Interpreter.runOutside
  split
  · exact hP.trans (hP.note m _) (hP.setExit _ _)
  · rename_i word _
    have h := hP.tick_execute m cyclesPerOp { word } pc
    dsimp only
    split
    · exact h
    · exact h
    · exact h

theorem step (base : UInt32) (c : Cursor δ κ) :
    P c.machine (Interpreter.machineOf (Interpreter.step base c)) := by
  unfold Interpreter.step
  split
  · split
    · exact hP.runOutside c.machine c.pc _
    · exact hP.refl _
  · rename_i index _
    have h := hP.tick_execute c.machine cyclesPerOp (c.ops.getD index default).instr c.pc
    dsimp only
    generalize Interpreter.execute (c.machine.tick cyclesPerOp) (c.ops.getD index default).instr
      c.pc = e at h ⊢
    obtain ⟨m, control, access⟩ := e
    cases control with
    | exit next => exact h
    | branch target => exact h
    | next =>
      dsimp only
      split
      · exact h
      · split
        · exact h
        · exact h

/-- What holds across every round of a loop holds across the loop. -/
theorem iterate {σ ρ : Type} {round : σ → Progress σ ρ} (machineOf : Progress σ ρ → Machine δ κ)
    (hround : ∀ s, P (machineOf (.running s)) (machineOf (round s))) (fuel : Nat) (s : σ) :
    P (machineOf (.running s)) (machineOf (Dynarec.iterate round fuel s)) := by
  induction fuel generalizing s with
  | zero => exact hP.refl _
  | succ fuel ih =>
    have hone := hround s
    rw [iterate_succ]
    cases hs : round s with
    | running s' =>
      rw [hs] at hone
      exact hP.trans hone (ih s')
    | finished r =>
      rw [hs] at hone
      exact hone

theorem emulate {fuel : Nat} {m : Machine δ κ} {b : Block} {pc : UInt32} {r : Emulated δ κ}
    (h : Interpreter.emulate fuel m b pc = .finished r) : P m r.machine := by
  -- Whichever instructions are run, each step is one of those that `hP` is about.
  have hrun : ∀ {ops start o},
      Interpreter.run fuel m b.pc ops start = .finished o → P m o.machine := by
    intro ops start o hrun
    have h := hP.iterate Interpreter.machineOf (hP.step b.pc) fuel
      { machine := m, ops, pc := b.pc + start.toUInt32 * 4 }
    unfold Interpreter.run at hrun
    rwa [hrun] at h
  unfold Interpreter.emulate at h
  dsimp only at h
  cases hops : b.ops with
  | some ops =>
    rw [hops] at h
    dsimp only at h
    split at h
    · cases h
    · rename_i o ho
      split at h
      · cases h
        exact hP.trans (hrun ho) (hP.flagRecompile _ _)
      · cases h
        exact hrun ho
  | none =>
    rw [hops] at h
    dsimp only at h
    split at h
    · cases h
      exact hP.trans (hP.note m _) (hP.setExit _ _)
    · split at h
      · cases h
      · rename_i o ho
        cases h
        exact hrun ho

theorem tag (f : Frame δ κ) (index : Nat) (o : Op) (kind : Option RegionKind) :
    P f.machine (f.tag index o kind).machine := by
  unfold Frame.tag
  cases kind with
  | none => exact hP.refl _
  | some kind =>
    dsimp only
    split
    · exact hP.refl _
    · split
      · exact hP.refl _
      · exact hP.flagRecompile _ _

theorem memory (f : Frame δ κ) (pc : UInt32) (index : Nat) (o : Op) (base : HostReg)
    (data dst : Option HostReg) :
    P f.machine (HostProgram.machineOf (f.memory pc index o base data dst)) := by
  have haccess : ∀ value, P f.machine
      ({ f with machine := (f.machine.transfer o.instr f.host[base] value).machine }.tag index o
        (f.machine.transfer o.instr f.host[base] value).kind).machine := by
    intro value
    have h := hP.transfer f.machine o.instr f.host[base] value
    generalize f.machine.transfer o.instr f.host[base] value = t at h ⊢
    exact hP.trans h (hP.tag { f with machine := t.machine } index o t.kind)
  unfold Frame.memory
  cases data with
  | none =>
    dsimp only
    split
    · exact haccess _
    · cases dst with
      | none => exact haccess _
      | some h => exact haccess _
  | some d =>
    dsimp only
    split
    · exact haccess _
    · cases dst with
      | none => exact haccess _
      | some h => exact haccess _

theorem perform (pc : UInt32) (f : Frame δ κ) (op : HostOp) :
    P f.machine (HostProgram.machineOf (HostProgram.perform pc f op)) := by
  have hjump : ∀ label next, P f.machine (HostProgram.machineOf (f.jump label next)) := by
    intro label next
    unfold Frame.jump
    split
    · exact hP.refl _
    · exact hP.refl _
  cases op with
  | load | const | move | alu | aluImmediate | mulDiv | setCondition | setTarget | exit
  | exitToTarget => exact hP.refl _
  | store host guest => exact hP.setReg f.machine guest _
  | tick cycles => exact hP.tick f.machine cycles
  | raise flags => exact hP.setExit f.machine flags
  | copRead instr reg control dst => exact hP.copRead f.machine instr reg control
  | copWrite instr reg control src => exact hP.copWrite f.machine instr reg _ control
  | copExecute instr => exact hP.copExecute f.machine instr
  | memory index o base data dst => exact hP.memory f pc index o base data dst
  | exitIf next =>
    simp only [HostProgram.perform]
    split
    · exact hP.refl _
    · exact hP.refl _
  | jump label next => exact hjump label next
  | jumpIf label next =>
    simp only [HostProgram.perform]
    split
    · exact hjump label next
    · exact hP.refl _

theorem call {fuel : Nat} {p : HostProgram} {entry : Nat} {m : Machine δ κ} {b : Block}
    {r : Returned δ κ} (h : p.call fuel entry m b = .finished r) : P m r.machine := by
  have hstep : ∀ f : Frame δ κ, P f.machine (HostProgram.machineOf (p.step f)) := by
    intro f
    unfold HostProgram.step
    split
    · exact hP.setExit f.machine _
    · exact hP.perform p.pc f _
  unfold HostProgram.call at h
  split at h
  · cases h
    exact hP.trans (hP.note m _) (hP.setExit _ _)
  · rename_i place _
    have hrun := hP.iterate HostProgram.machineOf hstep fuel { machine := m, block := b, place }
    rwa [h] at hrun

end Machine.GuestRelation

omit [Device δ] [Coprocessor κ] in
/-- Asking for new code sends an entry back to the dispatcher. -/
theorem Machine.changes_flagRecompile (m : Machine δ κ) (b : Block) :
    Changes False m (m.flagRecompile b).2 := by
  unfold Machine.flagRecompile Block.flagRecompile
  cases b.code with
  | none => exact .control rfl rfl rfl
  | some code =>
    dsimp only
    cases m.entries.index? b.pc with
    | none => exact .control rfl rfl rfl
    | some slot => exact .trans (.single (.demote slot code.id)) (.control rfl rfl rfl)

/-- Guest code brings about changes of the list. -/
theorem Machine.guestRelation_changes : GuestRelation (Changes (δ := δ) (κ := κ) False) where
  refl := .refl
  trans := .trans
  setReg _ _ _ := .control rfl rfl rfl
  tick _ _ := .control rfl rfl rfl
  setExit _ _ := .control rfl rfl rfl
  note _ _ := .control rfl rfl rfl
  flagRecompile := changes_flagRecompile
  copRead := changes_copRead False
  copWrite := changes_copWrite False
  copExecute := changes_copExecute False
  transfer m := changes_transfer m

end Dynarec
