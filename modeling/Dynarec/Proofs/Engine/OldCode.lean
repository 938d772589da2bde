/-
  Dynarec.Proofs.Engine.OldCode

  What runs behind an entry after a write.

  An entry into the middle of a block spans the words from there on, so a write
  in front of it leaves it as it is. The words from there on are those of
  memory, and code that is entered there runs these, one after the other, until
  it takes a branch to an instruction of the block in front of the entry. That
  instruction may have been overwritten. Entries at the start of a block have
  nothing in front of them.
-/
import Dynarec.Proofs.Engine.Upkeep
import Dynarec.Proofs.Host.Departures
import Dynarec.Proofs.RegisterEffects

namespace Dynarec

variable {δ κ : Type} [Device δ] [Coprocessor κ]

/-! ## Code that turns back -/

namespace HostProgram

open Interpreter (Cursor stepFreely stepClipped indexIn?)

variable {σ : Site δ κ} {first index : Nat} {path : List Nat} {c d start : Cursor δ κ}
  {r : Returned δ κ}

omit [Device δ] [Coprocessor κ] in
/-- The address is outside of the block, or that of instruction `first` or one behind it. -/
def Site.Past (σ : Site δ κ) (first : Nat) (addr : UInt32) : Prop :=
  ∀ t, indexIn? σ.source.pc σ.source.ops.size addr = some t → first ≤ t

/-- Where the run is, and where it goes from a delay slot. -/
structure Ahead (σ : Site δ κ) (first : Nat) (c : Cursor δ κ) : Prop where
  pc : σ.Past first c.pc
  pending : ∀ {target : UInt32}, c.pending = some target → σ.Past first target

/-- Some instruction on the path branches to one in front of `first`. Up to there no instruction on
the path is in front of it. -/
def TurnsBack (σ : Site δ κ) (first : Nat) (path : List Nat) (start : Cursor δ κ) : Prop :=
  ∃ before index after c target, path = before ++ index :: after ∧ Path σ before start c ∧
    (∀ i ∈ before, first ≤ i) ∧ first ≤ index ∧ c.departure? index = some target ∧
    ¬ σ.Past first target

omit [Device δ] [Coprocessor κ] in
theorem Site.past_address (hsize : σ.source.ops.size ≤ 65535) (hindex : index ≤ σ.source.ops.size)
    (h : first ≤ index) : σ.Past first (σ.address index) := by
  intro t ht
  obtain ⟨hlt, haddr, -⟩ := Interpreter.address_of_indexIn? ht
  have hsame : index.toUInt32 * 4 = t.toUInt32 * 4 := (UInt32.add_right_inj _).mp haddr
  have hnat := congrArg UInt32.toNat hsame
  rw [Interpreter.toNat_mul_four (by omega), Interpreter.toNat_mul_four (by omega)] at hnat
  omega

/-- Where an iteration goes. -/
theorem Moves.goes (h : Moves σ index c d) :
    (d.pc = c.pending.getD (c.pc + 4) ∧ (d.pending = none ∨ d.pending = c.departure? index)) ∨
      d.pc = (c.departure? index).getD (c.pc + 4) ∧ d.pending = none := by
  have hclipped := h.clipped
  cases hi : (c.ops.getD index default).instr.hasDelaySlot with
  | true =>
    have hnone := h.parted hi
    rw [Interpreter.stepClipped_of_hasDelaySlot h.stands hi hnone] at hclipped
    split at hclipped
    · cases hclipped
      exact .inl ⟨by rw [hnone]; rfl, .inr rfl⟩
    · cases hclipped
      exact .inr ⟨rfl, rfl⟩
  | false =>
    rw [Interpreter.stepClipped_of_not_hasDelaySlot h.stands hi, stepFreely, h.stands] at hclipped
    dsimp only at hclipped
    cases hstep : (c.effect index).step with
    | next =>
      rw [hstep] at hclipped
      cases hclipped
      exact .inl ⟨rfl, .inl rfl⟩
    | branch target =>
      rw [hstep] at hclipped
      cases hclipped
      refine .inl ⟨rfl, .inr ?_⟩
      show some target = c.departure? index
      unfold Cursor.departure?
      rw [hstep]
      rfl
    | exit next =>
      rw [hstep] at hclipped
      cases hclipped

/-- One iteration stays behind `first`, or branches to the front. -/
theorem Moves.ahead (h : Moves σ index c d) (hsize : σ.source.ops.size ≤ 65535)
    (hr : Retags σ.source.ops c.ops) (ha : Ahead σ first c) :
    first ≤ index ∧ (Ahead σ first d ∨
      ∃ target, c.departure? index = some target ∧ ¬ σ.Past first target) := by
  have hstands := h.stands
  rw [hr.size] at hstands
  obtain ⟨hlt, hpc, -⟩ := Interpreter.address_of_indexIn? hstands
  have hle := ha.pc index hstands
  -- what is run next is behind this one, unless there is a branch
  have hnext : σ.Past first (c.pc + 4) := by
    rw [hpc, Interpreter.address_succ]
    exact Site.past_address hsize hlt (Nat.le_succ_of_le hle)
  have hgetD : ∀ {place}, (∀ {target}, place = some target → σ.Past first target) →
      σ.Past first (place.getD (c.pc + 4)) := by
    intro place hplace
    cases place with
    | none => exact hnext
    | some target => exact hplace rfl
  refine ⟨hle, ?_⟩
  by_cases hback : ∃ target, c.departure? index = some target ∧ ¬ σ.Past first target
  · exact .inr hback
  · have hdeparts : ∀ {target}, c.departure? index = some target → σ.Past first target :=
      fun htarget => Classical.byContradiction fun hnot => hback ⟨_, htarget, hnot⟩
    rcases h.goes with ⟨hdpc, hpending⟩ | ⟨hdpc, hpending⟩
    · refine .inl ⟨hdpc ▸ hgetD ha.pending, fun htarget => ?_⟩
      rcases hpending with hnone | hdeparture
      · cases hnone.symm.trans htarget
      · exact hdeparts (hdeparture.symm.trans htarget)
    · refine .inl ⟨hdpc ▸ hgetD hdeparts, fun htarget => ?_⟩
      cases hpending.symm.trans htarget

theorem TurnsBack.cons (h : TurnsBack σ first path d) (hmoves : Moves σ index c d)
    (hle : first ≤ index) : TurnsBack σ first (index :: path) c := by
  obtain ⟨before, j, after, c', target, rfl, hpath, hbefore, hj, hrest⟩ := h
  exact ⟨index :: before, j, after, c', target, rfl, ⟨d, hmoves, hpath⟩,
    List.forall_mem_cons.mpr ⟨hle, hbefore⟩, hj, hrest⟩

/-- The same along a path. -/
theorem Path.ahead (h : Path σ path c d) (hsize : σ.source.ops.size ≤ 65535)
    (hr : Retags σ.source.ops c.ops) (ha : Ahead σ first c) :
    (∀ i ∈ path, first ≤ i) ∧ Ahead σ first d ∨ ∀ after, TurnsBack σ first (path ++ after) c := by
  induction path generalizing c with
  | nil =>
    cases h
    exact .inl ⟨fun _ hi => absurd hi List.not_mem_nil, ha⟩
  | cons index path ih =>
    obtain ⟨c', hmoves, hrest⟩ := h
    obtain ⟨hle, hahead | ⟨target, htarget, hback⟩⟩ := hmoves.ahead hsize hr ha
    · rcases ih hrest (hmoves.retags hr) hahead with ⟨hpath, hend⟩ | hback
      · exact .inl ⟨List.forall_mem_cons.mpr ⟨hle, hpath⟩, hend⟩
      · exact .inr fun after => (hback after).cons hmoves hle
    · exact .inr fun after => ⟨[], index, path ++ after, c, target, rfl, rfl,
        fun _ hi => absurd hi List.not_mem_nil, hle, htarget, hback⟩

/-- A call runs no instruction in front of the one where it starts, unless it branches to one. -/
theorem Reaches.ahead (h : Reaches σ path start r) (hsize : σ.source.ops.size ≤ 65535)
    (hr : Retags σ.source.ops start.ops) (ha : Ahead σ first start) :
    (∀ i ∈ path, first ≤ i) ∨ TurnsBack σ first path start := by
  cases h with
  | arrives hpath hpending hend =>
    rcases hpath.ahead hsize hr ha with ⟨hall, -⟩ | hback
    · exact .inl hall
    · exact .inr (List.append_nil path ▸ hback [])
  | @exits path index _ c' _ _ hpath hindex hstep hend =>
    rcases hpath.ahead hsize hr ha with ⟨hall, hahead⟩ | hback
    · refine .inl fun i hi => ?_
      rcases List.mem_append.mp hi with hi | hi
      · exact hall i hi
      · rw [List.mem_singleton.mp hi]
        exact hahead.pc index ((hpath.retags hr).size ▸ hindex)
    · exact .inr (hback [index])

omit [Device δ] [Coprocessor κ] in
/-- A run that begins with instruction `index` of the block. -/
def Site.cursor (σ : Site δ κ) (m : Machine δ κ) (index : Nat) : Cursor δ κ where
  machine := m
  ops := σ.source.ops
  pc := σ.address index

/-! ## Registers along a path -/

theorem Cursor.get_effect (hr : Retags σ.source.ops c.ops) {reg : Reg} (hreg : reg.toNat < 32)
    (hnot : (σ.source.ops.getD index default).instr.destination? ≠ some reg) :
    (c.effect index).machine.regs.get reg = c.machine.regs.get reg := by
  rw [← hr.instr index] at hnot
  exact Interpreter.get_execute_of_ne hreg hnot _ _

/-- A register that is the destination of no instruction on a path stays. -/
theorem Path.get_reg (h : Path σ path c d) (hr : Retags σ.source.ops c.ops) {reg : Reg}
    (hreg : reg.toNat < 32)
    (hnot : ∀ i ∈ path, (σ.source.ops.getD i default).instr.destination? ≠ some reg) :
    d.machine.regs.get reg = c.machine.regs.get reg := by
  induction path generalizing c with
  | nil =>
    cases h
    rfl
  | cons index path ih =>
    obtain ⟨c', hmoves, hrest⟩ := h
    obtain ⟨hfirst, hpath⟩ := List.forall_mem_cons.mp hnot
    rw [ih hrest (hmoves.retags hr) hpath,
      (Interpreter.ran_of_stepClipped hmoves.stands hmoves.clipped).1,
      Cursor.get_effect hr hreg hfirst]

theorem Reaches.get_reg (h : Reaches σ path start r) (hr : Retags σ.source.ops start.ops)
    {reg : Reg} (hreg : reg.toNat < 32)
    (hnot : ∀ i ∈ path, (σ.source.ops.getD i default).instr.destination? ≠ some reg) :
    r.machine.regs.get reg = start.machine.regs.get reg := by
  cases h with
  | arrives hpath hpending hend =>
    rw [hend.agrees.regs]
    exact hpath.get_reg hr hreg hnot
  | @exits path index _ c' _ _ hpath hindex hstep hend =>
    have hbefore := hpath.get_reg hr hreg fun i hi => hnot i (List.mem_append_left _ hi)
    have hlast := hnot index (List.mem_append_right _ (List.mem_singleton_self index))
    rw [hend.agrees.regs, ← hbefore]
    exact Cursor.get_effect (hpath.retags hr) hreg hlast

end HostProgram

/-! ## Entries -/

omit [Device δ] [Coprocessor κ] in
theorem instr_getD (ops : Array Op) (i : Nat) :
    (ops.getD i default).instr = { word := (opWords ops).getD i 0 } := by
  rw [Array.getD_eq_getD_getElem?, List.getD_eq_getElem?_getD, opWords, List.getElem?_map,
    Array.getElem?_toList]
  cases ops[i]? <;> rfl

theorem EntryTable.exists_slot_of_get {t : EntryTable} {pc : UInt32} {n : CodeId} {o : Nat}
    (h : t.get pc = .code n o) : ∃ slot, t.index? pc = some slot ∧ t.load slot = .code n o := by
  unfold get at h
  split at h
  · rename_i slot hslot
    exact ⟨slot, hslot, h⟩
  · cases h

/-! ## Entries that have been there before -/

/-- Blocks that start at whole words, and code that the built-in generator makes of them. -/
def Rules.aligned : Rules := .host fun pc => pc.toNat % 4 = 0

namespace Core

variable {γ : Type} {R : Rules} {c c' c1 c2 : Core δ κ γ} {slot o : Nat} {b : Block}
  {k : CompiledCode}

omit [Device δ] [Coprocessor κ] in
/-- The entry in `slot` leads to instruction `o` in code `k` of the cached block `b`. -/
structure LedInto (c : Core δ κ γ) (slot : Nat) (b : Block) (k : CompiledCode) (o : Nat) : Prop where
  cached : c.Caches b
  code : b.code = some k
  load : c.machine.entries.load slot = .code k.id o

omit [Device δ] [Coprocessor κ] in
/-- The range has been invalidated, and anything may have been written. -/
def Invalidates (addr length : UInt32) (c c' : Core δ κ γ) : Prop :=
  ∃ m W, c' = { c with machine := m } ∧ c.machine.memory.SameExcept W m.memory ∧
    m.entries = (c.machine.entries.invalidate addr length).2

omit [Device δ] [Coprocessor κ]

/-- What an entry leads to is the code of a cached block, at the instruction that it is for. -/
theorem Follows.entered (hf : c.Follows R) (hmade : c.made < 2 ^ 32) {pc : UInt32} {n : CodeId}
    (hentry : c.machine.entries.get pc = .code n o) :
    ∃ id b k r w data, c.blocks id = some b ∧ c.codes.get? n.toNat = some k ∧ k.block = some id ∧
      k.id = n ∧ (o = 0 ∧ b.Suits R k.program [] ∨ b.Suits R k.program [o]) ∧
      c.machine.memory.layout.resolve pc = .ok r ∧ w + o = r.offset.toNat / 4 ∧
      c.LedInto (c.machine.memory.layout.firstSlot r.index + w + o) b k o ∧
      c.Shown r.index w b o ∧ c.machine.memory.bytes? r.index = some data ∧
      w * 4 + 4 * b.words.length ≤ data.size := by
  obtain ⟨slot, hslot, hload⟩ := EntryTable.exists_slot_of_get hentry
  have hlinked := hf.linked hmade
  obtain ⟨id, b, k, hcurrent, rfl, -, hindex, hoffset⟩ := hlinked.entry hload
  obtain ⟨hcode, hblock, -⟩ := hlinked.code hcurrent.get hcurrent.code
  have hb := (hf.sound.block hcurrent.get).1
  have hinside : o < b.words.length := by
    rcases hoffset with rfl | ⟨hlt, -⟩
    · exact hb.nonempty
    · exact hb.opCount ▸ hlt
  -- where the block is, and so the word that the entry is for
  obtain ⟨_, start, henlisted, -⟩ := hf.sound.cached hcurrent.held
  cases henlisted.1.symm.trans hcurrent.get
  obtain ⟨-, -, -, -, -, hslots⟩ := hf.seated henlisted
  cases hindex.symm.trans (hslots hinside)
  obtain ⟨s, r, hs, hr, hsame, hword⟩ := hf.place henlisted hinside hslot
  cases henlisted.2.symm.trans (hf.enlisted hcurrent.held hcurrent.get ⟨s, hs, hsame.symm, rfl⟩).2
  obtain ⟨_, data, hs', hdata, hroom⟩ := (hf.charted.block hcurrent.get).2
  cases hs.symm.trans hs'
  rw [← hsame] at hdata
  have hcached : c.Caches b := ⟨id, hcurrent.held, hcurrent.get⟩
  refine ⟨id, b, k, r, s.offset.toNat / 4, data, hcurrent.get, hcode, hblock, rfl, ?_, hr,
    hword.symm, ⟨hcached, hcurrent.code, hload⟩, ⟨⟨hcached, ⟨s, hs, hsame.symm, rfl⟩, hinside,
      .inr ⟨k, hcurrent.code, hload⟩⟩, .inr hmade⟩, hdata, hroom⟩
  rcases hoffset with hzero | ⟨-, hsuits⟩
  · exact .inl ⟨hzero, hb.code hcurrent.code⟩
  · exact .inr hsuits

/-- A block whose words stand in memory from instruction `o` on is supplied from there. -/
theorem Kept.supplies {missed : Nat → Nat → Prop} {pc : UInt32} {r : Resolved} {w : Nat}
    {data : ByteArray} (h : c.Kept (c.machine.memory.Matches missed r.index) r.index w b o)
    (hr : c.machine.memory.layout.resolve pc = .ok r) (hw : w + o = r.offset.toNat / 4)
    (hdata : c.machine.memory.bytes? r.index = some data)
    (hfits : w * 4 + 4 * b.words.length ≤ data.size) (hinside : o < b.words.length) :
    c.machine.memory.SuppliesBut missed pc (b.words.drop o) r data := by
  refine ⟨hr, hdata, ?_, fun {n} hn => ?_⟩
  · rw [List.length_drop]
    omega
  · rw [List.length_drop] at hn
    have hvalue := List.getElem?_eq_getElem (show o + n < b.words.length by omega)
    rw [List.getElem?_drop, hvalue, ← hw, Nat.add_assoc]
    refine (h.word (Nat.le_add_right o n) hvalue).imp_left ?_
    rintro ⟨data', hdata', hword⟩
    cases hdata.symm.trans hdata'
    refine congrArg some (hword.symm.trans ?_)
    congr 1
    omega

variable [Generator γ]

/-- Unless a block is put back, an entry into code with an old number was there before. -/
theorem Step.ledInto_before (hstep : Step R c c') (hf : c.Follows R) (hmade : c'.made < 2 ^ 32)
    (hold : k.id.toNat ≤ c.made) (hreused : c'.tally.reused ≤ c.tally.reused)
    (h : c'.LedInto slot b k o) : ∃ a, c.LedInto slot a k o ∧ b.pc = a.pc ∧ b.words = a.words := by
  rcases hstep.loses_or hf.sound with
    hloses | ⟨a, place, entry, hn, hgiven⟩ | ⟨id, a, k', offsets, start, t, g, hc⟩
  · obtain ⟨a, hcached, hpc, hwords, hcode⟩ := hloses.caches h.cached
    exact ⟨a, ⟨hcached, hcode ▸ h.code, hloses.lowers.load_code h.load⟩, hpc, hwords⟩
  · rcases hgiven with ⟨hwaits, -⟩ | ⟨-, hlt⟩
    · rcases hn.cached h.cached with ⟨hcached, -⟩ | ⟨rfl, hnone⟩
      · refine ⟨b, ⟨hcached, h.code, ?_⟩, rfl, rfl⟩
        have hload := h.load
        rw [hn.entries] at hload
        rcases EntryTable.load_store_cases _ place slot entry with ⟨-, hnew⟩ | hsame
        · rcases hwaits with rfl | rfl <;> cases hload.symm.trans hnew
        · exact hsame.symm.trans hload
      · cases hnone.symm.trans h.code
    · omega
  · -- the number of new code is greater than all others
    have hp := hc.publishes
    rw [hc.made] at hmade
    have hid : k.id ≠ k'.id := by
      rintro hid
      rw [hid, hp.number, (hf.linked (Nat.lt_of_succ_lt hmade)).next, UInt32.toNat_ofNat',
        Nat.mod_eq_of_lt hmade] at hold
      omega
    obtain ⟨n, a', hheld, hget, hpc, hwords, hcode | ⟨-, hcode⟩⟩ := hc.caches h.cached
    · refine ⟨a', ⟨⟨n, hheld, hget⟩, hcode ▸ h.code, ?_⟩, hpc, hwords⟩
      rcases (hc.load_cases hf (by rw [h.load]; exact Entry.noConfusion)).2 with
        hold | ⟨-, -, _, -, -, hnew, -⟩
      · exact hold.symm.trans h.load
      · exact absurd (Entry.code.inj (h.load.symm.trans hnew)).1 hid
    · cases h.code.symm.trans hcode
      exact absurd rfl hid

theorem Evolves.ledInto_before {free : Prop} (hevolves : Evolves R free c c') (hf : c.Follows R)
    (hmade : c'.made < 2 ^ 32) (hold : k.id.toNat ≤ c.made)
    (hreused : c'.tally.reused ≤ c.tally.reused) (h : c'.LedInto slot b k o) :
    ∃ a, c.LedInto slot a k o ∧ b.pc = a.pc ∧ b.words = a.words := by
  induction hevolves generalizing b with
  | refl => exact ⟨b, h, rfl, rfl⟩
  | @tail d d' hbefore hmove ih =>
    obtain ⟨hmore, hfirst⟩ := Evolves.counts_le hbefore
    obtain ⟨hmore', hlast⟩ := Evolves.counts_le (.single hmove)
    obtain ⟨a, ha, hpc, hwords⟩ : ∃ a, d.LedInto slot a k o ∧ b.pc = a.pc ∧ b.words = a.words := by
      cases hmove with
      | step hstep =>
        exact hstep.ledInto_before (Evolves.follows hbefore hf).1 hmade
          (Nat.le_trans hold hmore) (by omega) h
      | machine hchange =>
        exact ⟨b, ⟨h.cached, h.code, (lowers_of_change hchange).1.load_code h.load⟩, rfl, rfl⟩
    obtain ⟨a', ha', hpc', hwords'⟩ := ih (Nat.lt_of_le_of_lt hmore' hmade) (by omega) ha
    exact ⟨a', ha', hpc.trans hpc', hwords.trans hwords'⟩

/-- On the way from `c0` to `c`, a range with byte `j` of region `i` was invalidated when code `n` was
already there, and no block has been put back since then. -/
def InvalidatedSince (R : Rules) (c0 c : Core δ κ γ) (n : CodeId) (i j : Nat) : Prop :=
  ∃ addr length c1 c2, Evolves R True c0 c1 ∧ c1.Invalidates addr length c2 ∧
    Evolves R True c2 c ∧ n.toNat ≤ c1.made ∧ c.tally.reused = c1.tally.reused ∧
    c0.machine.memory.layout.Names addr length.toNat i j

/-- Code that is still entered where it was entered before has no byte from there on that has been
invalidated since it was made. -/
theorem LedInto.not_invalidatedSince {c0 : Core δ κ γ} {i w : Nat} (hf : c0.Follows R)
    (hone : c0.machine.memory.layout.OneName R.start i)
    (hfresh : c0.Fresh (fun _ _ => True) (fun _ _ => False) i) (hmade : c.made < 2 ^ 32)
    (hled : c.LedInto (c.machine.memory.layout.firstSlot i + w + o) b k o) (hseat : c.Lies b i w)
    {m j : Nat} (hm : o ≤ m) (hlt : m < b.words.length)
    (hj : j / 4 = w + m) : ¬ InvalidatedSince R c0 c k.id i j := by
  rintro ⟨addr, length, c1, c2, hbefore, hinvalidates, hafter, hold, hreused, hnames⟩
  obtain ⟨machine, W, rfl, hmemory, hentries⟩ := hinvalidates
  obtain ⟨hf1, hlayout1⟩ := hbefore.follows hf
  have hlowers : c1.machine.entries.Lowers machine.entries := by
    rw [hentries]
    exact .invalidate _ addr length
  have hf2 := hf1.withMachine hmemory hlowers
  have hlayout := (hafter.follows hf2).2
  -- the entry was there right after the range had been invalidated
  obtain ⟨a, ha, hpc, hwords⟩ := hafter.ledInto_before hf2 hmade hold (Nat.le_of_eq hreused) hled
  have hshown : Shown { c1 with machine := machine } i w a o := by
    have hinside : o < a.words.length := hwords ▸ Nat.lt_of_le_of_lt hm hlt
    refine ⟨⟨ha.cached, hseat.congr hlayout hpc, hinside, .inr ⟨k, ha.code, ?_⟩⟩, .inr ?_⟩
    · rw [← hlayout]
      exact ha.load
    · exact Nat.lt_of_le_of_lt hafter.counts_le.1 hmade
  -- and what entries led to then had no byte of the range
  have hspared : Fresh
      (fun w _ => ∀ j, j / 4 = w → ¬ c1.machine.memory.layout.Names addr length.toNat i j)
      (fun _ _ => False) i { c1 with machine := machine } :=
    (hbefore.spans hf hone hfresh).invalidated hf1 hmemory.layout hentries fun _ hnot _ => hnot
  rcases hspared w o a hshown with hkept | hfalse
  · refine hkept.word hm (List.getElem?_eq_getElem (hwords ▸ hlt)) j hj ?_
    rw [hlayout1]
    exact hnames
  · exact hfalse

end Core

namespace Engine

open HostProgram (Reaches TurnsBack Site)

/-- An entry that leads into code has it called. -/
theorem ensures_call_of_entry {γ : Type} [Generator γ] {e : Engine δ κ γ} {fuel o : Nat}
    {pc : UInt32} {n : CodeId} {k : CompiledCode} {id : BlockId} {b : Block}
    (hentry : e.machine.entries.get pc = .code n o) (hcode : e.codes.get? n.toNat = some k)
    (hblock : k.block = some id) (hget : e.blocks.get? id = some b) :
    Ensures (dispatch fuel pc) e fun next e' => ∃ r,
      k.program.call fuel o e.machine b = .finished r ∧ r.next = next ∧ e'.machine = r.machine := by
  have hcalled : Ensures (callCode fuel k o id b) e fun next e' => ∃ r,
      k.program.call fuel o e.machine b = .finished r ∧ r.next = next ∧ e'.machine = r.machine := by
    unfold callCode
    refine Ensures.bind (P := fun next e1 => ∀ n, next = some n → ∃ r,
      k.program.call fuel o e.machine b = .finished r ∧ r.next = n ∧ e1.machine = r.machine)
      (Ensures.modifyGet ?_) ?_
    · intro n hn
      dsimp only at hn ⊢
      cases hcall : k.program.call fuel o e.machine b with
      | running f =>
        rw [hcall] at hn
        cases hn
      | finished r =>
        rw [hcall] at hn
        cases hn
        refine ⟨r, rfl, rfl, ?_⟩
        dsimp only
        split <;> rfl
    · intro next e1 h1
      cases next with
      | none => exact Ensures.throw trivial
      | some n => exact Ensures.pure (h1 n rfl)
  -- the block of the code is found, so the call is what dispatching comes to
  unfold dispatch
  refine Ensures.run rfl ?_
  rw [hentry]
  dsimp only
  refine Ensures.bind (P := fun found e1 => ∃ r, k.program.call fuel o e.machine b = .finished r ∧
    found = some r.next ∧ e1.machine = r.machine) ?_ ?_
  · unfold callPublished
    refine Ensures.run rfl ?_
    rw [hcode]
    dsimp only
    rw [hblock]
    dsimp only
    rw [hget]
    dsimp only
    refine Ensures.map (hcalled.mono ?_)
    rintro next e1 ⟨r, hcall, rfl, hmachine⟩
    exact ⟨r, hcall, rfl, hmachine⟩
  · rintro found e1 ⟨r, hcall, rfl, hmachine⟩
    exact Ensures.pure ⟨r, hcall, rfl, hmachine⟩

/-- What the host asks for goes on from what happened before. -/
theorem evolves_call {γ : Type} [Generator γ] {R : Rules} {c0 : Core δ κ γ} {e e' : Engine δ κ γ}
    {fuel : Nat} {call : HostCall} (h : Core.Evolves R True c0 e.core) (hR : R.Admits γ)
    (hs : c0.Sound R) (hstart : call.StartsIn R.start fuel e)
    (hcall : call.perform fuel e = .ok () e') : Core.Evolves R True c0 e'.core :=
  h.trans ((ensures_call hR hstart (fun _ => trivial) (h.sound hs)).ok hcall).1

/-- What is dispatched through an entry runs words of its block from there on, until it takes a branch
to an instruction of the block in front of the entry. Where guest code and host invalidate what they
write, these are words of memory. Whatever they do, no byte of them has been invalidated since the
code was made, as long as no block has been put back. -/
theorem dispatch_runs_memory_unless_turns_back {l : Layout} {g : HostGenerator}
    {e₀ e e' : Engine δ κ HostGenerator} (hl : l.Plain)
    (hlow : ∀ {i : Nat} {s : Region}, l.regions[i]? = some s → l.isCode i = true →
      s.base.toNat + s.length.toNat ≤ 0x20000000)
    (hnew : IsNew l g e₀) (h : Core.Evolves .aligned True e₀.core e.core)
    (hmade : e.health.successes < 2 ^ 32) {pc : UInt32} {n : CodeId} {o : Nat}
    (hentry : e.machine.entries.get pc = .code n o) {fuel : Nat} {next : UInt32}
    (hdispatch : dispatch fuel pc e = .ok next e') :
    ∃ k id b source r data, e.codes.get? n.toNat = some k ∧ k.block = some id ∧
      e.blocks.get? id = some b ∧ b.IsSource source ∧ o < b.words.length ∧
      l.resolve pc = .ok r ∧
      (∀ {writes : List HostWrite}, Tended l g (fun pc => pc.toNat % 4 = 0) writes e →
        e.machine.memory.SuppliesBut (Strayed l writes) pc (b.words.drop o) r data) ∧
      (∀ {m j : Nat}, o ≤ m → m < b.words.length → j / 4 + o = r.offset.toNat / 4 + m →
        ¬ Core.InvalidatedSince .aligned e₀.core e.core n r.index j) ∧
      ∃ result path, result.next = next ∧ result.machine = e'.machine ∧
        Reaches ⟨b, source, False⟩ path (Site.cursor ⟨b, source, False⟩ e.machine o) result ∧
        ((∀ i ∈ path, o ≤ i) ∨
          TurnsBack ⟨b, source, False⟩ o path (Site.cursor ⟨b, source, False⟩ e.machine o)) := by
  have horderly := hl.orderly hlow
  have hone : ∀ i, l.OneName Rules.aligned.start i := hl.oneName fun _ h => h
  obtain ⟨hf₀, rfl⟩ := hnew.follows (R := .aligned) horderly
  obtain ⟨hf, hlayout⟩ := h.follows hf₀
  obtain ⟨id, b, k, r, w, data, hget, hcode, hblock, rfl, hsuits, hr, hw, hled, hshown, hdata,
    hfits⟩ := hf.entered hmade hentry
  obtain ⟨result, hcall, hnext, hmachine⟩ :=
    (ensures_call_of_entry hentry hcode hblock hget).ok hdispatch
  obtain ⟨source, cache, hsource, hcache, hgenerate, htarget⟩ : ∃ (source : BlockSource)
      (cache : RegisterCache), b.IsSource source ∧ cache.WellFormed ∧
        (HostProgram.generate source cache).result = .ok k.program ∧
        (o = 0 ∨ o ∈ k.program.targets) := by
    rcases hsuits with ⟨hzero, source, -, hsource, ⟨-, cache, hcache, hgenerate⟩, -⟩ |
      ⟨source, -, hsource, ⟨rfl, cache, hcache, hgenerate⟩, htargets⟩
    · exact ⟨source, cache, hsource, hcache, hgenerate, .inl hzero⟩
    · exact ⟨source, cache, hsource, hcache, hgenerate, .inr (htargets o List.mem_cons_self)⟩
  obtain ⟨path, hreaches, -⟩ := HostProgram.explains_call (σ := ⟨b, source, False⟩) hsource.faithful
    hcache hgenerate htarget (fun h => h.elim) (fun h => h.elim) hcall
  have hinside := hshown.inside
  refine ⟨k, id, b, source, r, data, hcode, hblock, hget, hsource, hinside, hlayout ▸ hr, ?_, ?_,
    result, path, hnext, hmachine.symm, hreaches,
    hreaches.ahead hsource.faithful.size (Retags.refl _) ⟨?_, fun htarget => by cases htarget⟩⟩
  · intro writes htended
    obtain ⟨past, htrail⟩ := htended.trail (R := .aligned) (Rules.admits_host _) horderly
    refine Core.Kept.supplies ?_ hr hw hdata hfits hinside
    exact ((htrail.fresh horderly).2 r.index w o b hshown).resolve_right
      (htrail.not_usurped horderly (hone _))
  · intro m j hm hlt hj
    exact hled.not_invalidatedSince hf₀ (hone _) (hnew.fresh _ _ _) hmade hshown.seat hm hlt (by omega)
  · refine Site.past_address hsource.faithful.size ?_ (Nat.le_refl o)
    rw [← length_opWords, hsource.words]
    exact Nat.le_of_lt hinside

theorem regions_looping : looping.layout.regions =
    #[{ base := 0, length := 0x20, backing := .ram, code := true }] := by
  decide +kernel

/-- The loop has been run, and then the host has put the addition of a hundred in the place of that
of one. What is dispatched at the fourth instruction branches back and still adds one. -/
theorem dispatch_turns_back_looping :
    ∃ (e e' : Engine RegisterBank StandardCoprocessor HostGenerator) (next : UInt32) (b : Block)
      (source : BlockSource) (path : List Nat),
      Tended looping.layout {} (fun pc => pc.toNat % 4 = 0) [.word 0 0x24420064] e ∧
      e.machine.memory.readWord 0 = .ok 0x24420064 ∧ e.machine.entries.get 0x0c = .code 1 3 ∧
      dispatch 100 0x0c e = .ok next e' ∧ e.machine.regs.get 2 = 0 ∧ e'.machine.regs.get 2 = 1 ∧
      b.IsSource source ∧ b.words[0]? = some 0x24420001 ∧
      TurnsBack ⟨b, source, False⟩ 3 path (Site.cursor ⟨b, source, False⟩ e.machine 3) ∧
      ∃ e₀, IsNew looping.layout {} e₀ ∧ Core.InvalidatedSince .aligned e₀.core e.core 1 0 0 := by
  have hruns : EngineM.passes (HostCall.perform 100 (.restoreRegisters twoRounds))
      (fun _ => EngineM.passes (HostCall.perform 100 (.executeOne 0))
        fun _ => EngineM.passes (HostCall.perform 100 (.write (.word 0 0x24420064)))
          fun _ e₃ => EngineM.passes (HostCall.perform 100 (.invalidate 0 4))
            (fun _ => EngineM.passes (HostCall.perform 100 (.restoreRegisters twoRounds))
              fun _ => EngineM.passes (HostCall.perform 100 (.setTargetCycle 1000))
                fun _ e => EngineM.passes (dispatch 100 0x0c) (fun _ e' =>
                  decide ((e.machine.memory.readWord 0).toOption = some 0x24420064 ∧
                    e.machine.entries.get 0x0c = .code 1 3 ∧ e.machine.regs.get 2 = 0 ∧
                    e'.machine.regs.get 2 = 1 ∧ e.health.successes < 2 ^ 32 ∧
                    (e.codes.get? 1).map (·.block) = some (some 0) ∧
                    (e.blocks.get? 0).map (·.words) = some
                      [0x24420001, 0x14800001, 0, 0x2463ffff, 0x1460fffb, 0, 0x03e00008, 0] ∧
                    1 ≤ e₃.health.successes ∧
                    e.counters.reusedBlocks = e₃.counters.reusedBlocks)) e) e₃)
      (newLooping ({} : HostGenerator)) = true := by
    decide +kernel
  obtain ⟨_, e₁, hset, hruns⟩ := EngineM.exists_of_passes hruns
  obtain ⟨_, e₂, hone, hruns⟩ := EngineM.exists_of_passes hruns
  obtain ⟨_, e₃, hwrite, hruns⟩ := EngineM.exists_of_passes hruns
  obtain ⟨_, e₄, hinvalidate, hruns⟩ := EngineM.exists_of_passes hruns
  obtain ⟨_, e₅, hreset, hruns⟩ := EngineM.exists_of_passes hruns
  obtain ⟨_, e, hclock, hruns⟩ := EngineM.exists_of_passes hruns
  obtain ⟨next, e', hdispatch, hruns⟩ := EngineM.exists_of_passes hruns
  obtain ⟨hread, hentry, hbefore, hafter, hmade, howner, hblock, hold, hreused⟩ :=
    of_decide_eq_true hruns
  have hlow : ∀ {i : Nat} {s : Region}, looping.layout.regions[i]? = some s →
      looping.layout.isCode i = true → s.base.toNat + s.length.toNat ≤ 0x20000000 := by
    intro i s hs _
    rw [regions_looping] at hs
    obtain ⟨hi, rfl⟩ := Array.getElem?_eq_some_iff.mp hs
    cases Nat.lt_one_iff.mp hi
    show (0 : UInt32).toNat + (0x20 : UInt32).toNat ≤ 0x20000000
    decide
  have haligned : (0 : UInt32).toNat % 4 = 0 := rfl
  have hsized : looping.Sized := Memory.sized_loaded _ _ _
  have hnew : IsNew looping.layout {} (newLooping ({} : HostGenerator)) :=
    .create rfl hsized _ _ _ rfl
  have htended : Tended looping.layout {} (fun pc => pc.toNat % 4 = 0) [.word 0 0x24420064] e :=
    .call (.call (.write (.call (.call (.new hnew ⟨rfl, rfl⟩) rfl (by exact trivial) hset) rfl
      (by exact haligned) hone) ⟨100, e₃, hwrite, hinvalidate⟩) rfl (by exact trivial) hreset) rfl
      (by exact trivial) hclock
  have hplain : looping.layout.Plain := .of_single regions_looping rfl rfl
  have hR : Rules.aligned.Admits HostGenerator := Rules.admits_host _
  have hs : (newLooping ({} : HostGenerator)).core.Sound Rules.aligned :=
    (hnew.follows (hplain.orderly hlow)).1.sound
  -- what happened before the range was invalidated, and what happened since
  have hfirst : Core.Evolves .aligned True (newLooping ({} : HostGenerator)).core e₃.core :=
    evolves_call (evolves_call (evolves_call (.refl _) hR hs (by exact trivial) hset) hR hs
      (by exact haligned) hone) hR hs (by exact trivial) hwrite
  have hsecond := evolves_call hfirst hR hs (by exact trivial) hinvalidate
  have hlast : Core.Evolves .aligned True e₄.core e.core :=
    evolves_call (evolves_call (.refl _) hR (hsecond.sound hs) (by exact trivial) hreset) hR
      (hsecond.sound hs) (by exact trivial) hclock
  have hinvalidates : e₃.core.Invalidates 0 4 e₄.core := by
    obtain ⟨m, hcore, hmemory, hentries, -⟩ := (ensures_invalidate_entries 0 4).ok hinvalidate
    exact ⟨m, Memory.nowhere, hcore, hmemory ▸ .refl _ _, hentries⟩
  have hplace : (looping.layout.resolve 0).toOption =
      some { index := 0, offset := 0, paddr := 0, kind := .direct } := by decide +kernel
  have hnames : looping.layout.Names 0 4 0 0 :=
    ⟨_, Block.eq_ok_of_toOption hplace, rfl, by decide⟩
  obtain ⟨k, id, b, source, r, data, hcode, hid, hget, hsource, -, -, -, -, result, path, -, hmachine,
      hreaches, hpath⟩ := dispatch_runs_memory_unless_turns_back hplain hlow hnew
    (hsecond.trans hlast) hmade hentry hdispatch
  replace hcode : e.codes.get? 1 = some k := hcode
  rw [hcode, Option.map_some, hid] at howner
  cases howner
  rw [hget, Option.map_some] at hblock
  have hwords := Option.some.inj hblock
  refine ⟨e, e', next, b, source, path, htended, Block.eq_ok_of_toOption hread, hentry, hdispatch,
    hbefore, hafter, hsource, by rw [hwords]; rfl, hpath.resolve_left fun hahead => ?_, _, hnew, 0, 4,
    e₃.core, e₄.core, hfirst, hinvalidates, hlast, hold, hreused, hnames⟩
  -- no instruction from the fourth one on has register 2 as its destination
  have hnot : ∀ i ∈ path, (source.ops.getD i default).instr.destination? ≠ some 2 := by
    intro i hi
    have hall : ∀ i < 8, 3 ≤ i → Instruction.destination? { word :=
        [0x24420001, 0x14800001, 0, 0x2463ffff, 0x1460fffb, 0, 0x03e00008, 0].getD i 0 } ≠
          some 2 := by decide
    rw [instr_getD, hsource.words, hwords]
    by_cases hlt : i < 8
    · exact hall i hlt (hahead i hi)
    · rw [List.getD_eq_getElem?_getD, List.getElem?_eq_none (Nat.le_of_not_lt hlt)]
      decide
  have hkept : result.machine.regs.get 2 = e.machine.regs.get 2 :=
    hreaches.get_reg (Retags.refl _) (by decide) hnot
  rw [hmachine, hafter, hbefore] at hkept
  cases hkept

end Engine

end Dynarec
