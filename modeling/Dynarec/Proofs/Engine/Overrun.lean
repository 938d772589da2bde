/-
  Dynarec.Proofs.Engine.Overrun

  Where runs stop.

  Between two blocks a run looks at the clock, and it comes back or goes on. The
  counter has 32 bits, and it is compared with the target as it is. So a run
  comes back at the first block boundary where its cycles are used up if the
  counter has not wrapped before, as it cannot where it has room for one more
  block behind the target. A last block that takes it beyond its end leaves it
  below the target again, and the run goes on.
-/
import Dynarec.Proofs.Engine.Clock
import Dynarec.Proofs.Engine.Modes

namespace Dynarec

/-- As long as there is no reason to leave, only the counter is looked at. -/
theorem Clock.shouldStop_iff {c : Clock} (h : c.exit.isNormal = true) :
    c.shouldStop = true ↔ c.target.toNat ≤ c.current.toNat := by
  rw [shouldStop, h, Bool.not_true, Bool.false_or, exhausted, decide_eq_true_eq,
    UInt32.le_iff_toNat_le]

namespace Engine

variable {δ κ γ : Type} [Device δ] [Coprocessor κ] [Generator γ] {fuel : Nat}
  {e e₁ e' : Engine δ κ γ} {pc pc1 next : UInt32} {charges : List Nat}

/-- The dispatch comes back, and the counter says that it has charged `cycles` cycles. -/
structure Charges (fuel : Nat) (e : Engine δ κ γ) (pc : UInt32) (cycles : Nat) (next : UInt32)
    (e' : Engine δ κ γ) : Prop where
  dispatch : dispatch fuel pc e = .ok next e'
  current : e'.machine.clock.current = e.machine.clock.current + cycles.toUInt32

/-- A block boundary that a run gets to, with the cycles that were charged for each block before it,
the latest first. -/
inductive Boundary (fuel : Nat) (e : Engine δ κ γ) (pc : UInt32) :
    List Nat → UInt32 → Engine δ κ γ → Prop
  | first {cycles : Nat} {next : UInt32} {e' : Engine δ κ γ} (h : Charges fuel e pc cycles next e') :
      Boundary fuel e pc [cycles] next e'
  | next {charges : List Nat} {pc1 : UInt32} {e₁ : Engine δ κ γ} {cycles : Nat} {next : UInt32}
      {e' : Engine δ κ γ} (hbefore : Boundary fuel e pc charges pc1 e₁)
      (hgoes : e₁.machine.clock.shouldStop = false) (h : Charges fuel e₁ pc1 cycles next e') :
      Boundary fuel e pc (cycles :: charges) next e'

/-! ## Runs and their block boundaries -/

/-- Every dispatch that comes back charges some number of cycles. -/
theorem exists_charges (h : dispatch fuel pc e = .ok next e') :
    ∃ cycles, Charges fuel e pc cycles next e' := by
  refine ⟨(e'.machine.clock.current - e.machine.clock.current).toNat, h, ?_⟩
  rw [Nat.toUInt32_eq, UInt32.ofNat_toNat]
  grind

theorem runBlocks_of_dispatch (h : dispatch fuel pc e = .ok next e') (count : Nat) :
    runBlocks fuel (count + 1) pc e =
      if e'.machine.clock.shouldStop = true then .ok next e' else runBlocks fuel count next e' := by
  rw [runBlocks, bind_eq_of_ok h, EngineM.get_bind_eq]
  split <;> rfl

/-- What follows on a block boundary is up to the clock there. -/
theorem Boundary.runBlocks_eq (h : Boundary fuel e pc charges next e') (count : Nat) :
    runBlocks fuel (charges.length + count) pc e =
      if e'.machine.clock.shouldStop = true then .ok next e' else runBlocks fuel count next e' := by
  induction h generalizing count with
  | first h =>
    rw [List.length_singleton, Nat.add_comm]
    exact runBlocks_of_dispatch h.dispatch count
  | next _ hgoes h ih =>
    rw [List.length_cons, Nat.add_assoc, Nat.add_comm 1 count, ih, if_neg (by simp [hgoes])]
    exact runBlocks_of_dispatch h.dispatch count

/-- Wherever a run is to go on, it is at its start or at a block boundary. -/
theorem Passes.boundary (h : Passes fuel e pc e₁ pc1) : (e₁ = e ∧ pc1 = pc) ∨
      e₁.machine.clock.shouldStop = false ∧ ∃ charges, Boundary fuel e pc charges pc1 e₁ := by
  induction h with
  | here => exact .inl ⟨rfl, rfl⟩
  | next _ hdispatch hgoes ih =>
    obtain ⟨cycles, hcharges⟩ := exists_charges hdispatch
    rcases ih with ⟨rfl, rfl⟩ | ⟨hgoes1, charges, hbefore⟩
    · exact .inr ⟨hgoes, _, .first hcharges⟩
    · exact .inr ⟨hgoes, _, .next hbefore hgoes1 hcharges⟩

/-- Blocks end at a block boundary where they have to stop. -/
theorem exists_boundary_of_runBlocks {count : Nat} (h : runBlocks fuel count pc e = .ok next e') :
    e'.machine.clock.shouldStop = true ∧ ∃ charges, Boundary fuel e pc charges next e' := by
  refine ⟨shouldStop_of_runBlocks h, ?_⟩
  obtain ⟨e₁, pc1, hpasses, hlast⟩ := Passes.of_runBlocks h
  obtain ⟨cycles, hcharges⟩ := exists_charges hlast
  rcases hpasses.boundary with ⟨rfl, rfl⟩ | ⟨hgoes, charges, hbefore⟩
  · exact ⟨_, .first hcharges⟩
  · exact ⟨_, .next hbefore hgoes hcharges⟩

/-! ## The clock at a block boundary -/

/-- The counter has moved by the cycles that were charged, as far as it can count. -/
theorem Boundary.toNat_current (h : Boundary fuel e pc charges next e') :
    e'.machine.clock.current.toNat = (e.machine.clock.current.toNat + charges.sum) % 2 ^ 32 := by
  induction h with
  | first h =>
    rw [h.current, UInt32.toNat_add, Nat.toUInt32_eq, UInt32.toNat_ofNat', List.sum_singleton]
    omega
  | next _ _ h ih =>
    rw [h.current, UInt32.toNat_add, ih, Nat.toUInt32_eq, UInt32.toNat_ofNat', List.sum_cons]
    omega

section KeepsTime

variable (ht : KeepsTime δ κ) {target : UInt32}
include ht

theorem Boundary.follows (h : Boundary fuel e pc charges next e') :
    e.machine.clock.Follows e'.machine.clock := by
  induction h with
  | first h => exact follows_dispatch ht fuel _ _ _ _ h.dispatch
  | next _ _ h ih => exact ih.trans (follows_dispatch ht fuel _ _ _ _ h.dispatch)

variable (htarget : e.machine.clock.current ≤ target)
include htarget

/-- Without a reason to leave, a run stops where the counter is not below the target. -/
theorem Boundary.shouldStop_iff (h : Boundary fuel (e.armed target) pc charges next e')
    (hnormal : e'.machine.clock.exit.isNormal = true) :
    e'.machine.clock.shouldStop = true ↔
      target.toNat ≤ (e.machine.clock.current.toNat + charges.sum) % 2 ^ 32 := by
  have harmed : (e.armed target).machine.clock.target = target :=
    if_neg (UInt32.not_lt.mpr htarget)
  rw [Clock.shouldStop_iff hnormal, (h.follows ht hnormal).2, harmed, h.toNat_current]
  rfl

/-- A run whose cycles are used up stops if the counter has not wrapped. -/
theorem Boundary.shouldStop (h : Boundary fuel (e.armed target) pc charges next e')
    (hwraps : e.machine.clock.current.toNat + charges.sum < 2 ^ 32)
    (hused : target.toNat - e.machine.clock.current.toNat ≤ charges.sum) :
    e'.machine.clock.shouldStop = true := by
  cases hnormal : e'.machine.clock.exit.isNormal with
  | false =>
    -- a reason to leave stops it wherever the counter is
    rw [Clock.shouldStop, hnormal]
    rfl
  | true =>
    rw [h.shouldStop_iff ht htarget hnormal, Nat.mod_eq_of_lt hwraps]
    omega

/-- The counter does not wrap if behind the target there is room for every block. -/
theorem Boundary.lt_of_room (h : Boundary fuel (e.armed target) pc charges next e')
    (hroom : ∀ cycles ∈ charges, target.toNat + cycles < 2 ^ 32) :
    e.machine.clock.current.toNat + charges.sum < 2 ^ 32 := by
  have hle := UInt32.le_iff_toNat_le.mp htarget
  induction h with
  | @first cycles =>
    have hcycles := hroom cycles (List.mem_singleton_self cycles)
    rw [List.sum_singleton]
    omega
  | @next charges pc1 e₁ cycles _ _ hbefore hgoes _ ih =>
    have hcycles := hroom cycles List.mem_cons_self
    have hbound := ih fun cycles hmem => hroom cycles (List.mem_cons_of_mem _ hmem)
    -- the run went on in front of the last block, so the counter was below the target there
    have hbelow : e.machine.clock.current.toNat + charges.sum < target.toNat := by
      by_contra hused
      have hstop := hbefore.shouldStop ht htarget hbound (by omega)
      rw [hgoes] at hstop
      cases hstop
    rw [List.sum_cons]
    omega

end KeepsTime

/-! ## Runs -/

/-- A run that begins with the counter not behind its target ends at a block boundary. It stops at
one where its cycles are used up if the counter has not wrapped before, which it has not if there was
room behind the target for every block. Without a reason to leave it stops exactly where the counter,
as far as it can count, is not below the target. So it goes on with another block where its cycles
are used up and the counter has wrapped. -/
theorem run_stops_at_target_unless_counter_wraps (ht : KeepsTime δ κ) (fuel : Nat)
    (pc target : UInt32) (e : Engine δ κ γ) (htarget : e.machine.clock.current ≤ target) :
    (∀ next e', run fuel pc target e = .ok next e' →
      ∃ charges e₁, Boundary fuel (e.armed target) pc charges next e₁ ∧
        e₁.machine.clock.shouldStop = true ∧ e₁.machine.clock = e'.machine.clock) ∧
    ∀ charges next e₁, Boundary fuel (e.armed target) pc charges next e₁ →
      (∀ count, runBlocks fuel (charges.length + count) pc (e.armed target) =
        if e₁.machine.clock.shouldStop = true then .ok next e₁
        else runBlocks fuel count next e₁) ∧
      (target.toNat - e.machine.clock.current.toNat ≤ charges.sum →
        e.machine.clock.current.toNat + charges.sum < 2 ^ 32 ∨
          (∀ cycles ∈ charges, target.toNat + cycles < 2 ^ 32) →
        e₁.machine.clock.shouldStop = true) ∧
      (e₁.machine.clock.exit.isNormal = true →
        (e₁.machine.clock.shouldStop = true ↔
          target.toNat ≤ (e.machine.clock.current.toNat + charges.sum) % 2 ^ 32)) := by
  constructor
  · intro next e' hrun
    obtain ⟨e₁, hblocks, hclock⟩ := (run_ok_iff fuel pc target next e _).mp ⟨e', hrun, rfl⟩
    obtain ⟨hstop, charges, hboundary⟩ := exists_boundary_of_runBlocks hblocks
    exact ⟨charges, e₁, hboundary, hstop, hclock⟩
  · intro charges next e₁ h
    refine ⟨h.runBlocks_eq, ?_, h.shouldStop_iff ht htarget⟩
    intro hused hfits
    rcases hfits with hwraps | hroom
    · exact h.shouldStop ht htarget hwraps hused
    · exact h.shouldStop ht htarget (h.lt_of_room ht htarget hroom) hused

/-- An engine whose counter is about to wrap. The first block takes four cycles, and it jumps to one
that leaves. -/
def nearEnd : Engine RegisterBank StandardCoprocessor HostGenerator :=
  let e : Engine RegisterBank StandardCoprocessor HostGenerator := create
    (match Memory.ofRegions #[.ram 0 0x20] with
      | .ok memory => (memory.writeWords 0 [0x08000004, 0, 0, 0, 0x0000000c]).2
      | .error _ => default)
    .inert .inert { threaded := false, codeBudgetBytes := 0 } {} default
  { e with machine := { e.machine with clock := e.machine.clock.reset 0xfffffffc } }

theorem boundary_nearEnd : ∃ e₁, Boundary 11 (nearEnd.armed 0xffffffff) 0 [4] 0x10 e₁ ∧
      e₁.machine.clock.exit.isNormal = true := by
  have hfirst : (dispatch 11 0).passes (fun next e₁ => decide (next = 0x10 ∧
      e₁.machine.clock.current = 0 ∧ e₁.machine.clock.exit.isNormal = true))
      (nearEnd.armed 0xffffffff) = true := by
    decide +kernel
  obtain ⟨next, e₁, hdispatch, hcheck⟩ := EngineM.exists_of_passes hfirst
  obtain ⟨rfl, hcurrent, hnormal⟩ := of_decide_eq_true hcheck
  have hstart : (nearEnd.armed 0xffffffff).machine.clock.current = 0xfffffffc := by decide +kernel
  refine ⟨e₁, .first ⟨hdispatch, ?_⟩, hnormal⟩
  rw [hcurrent, hstart]
  rfl

theorem run_nearEnd :
    ∃ e', run 11 0 0xffffffff nearEnd = .ok 0x10 e' ∧ e'.machine.clock.exit.syscall = true := by
  have hrun : (run 11 0 0xffffffff).passes (fun next e' => decide (next = 0x10 ∧
      e'.machine.clock.exit.syscall = true)) nearEnd = true := by
    decide +kernel
  obtain ⟨next, e', hok, hcheck⟩ := EngineM.exists_of_passes hrun
  obtain ⟨rfl, hsyscall⟩ := of_decide_eq_true hcheck
  exact ⟨e', hok, hsyscall⟩

/-- Three cycles are used up by the first block, but the counter has wrapped. The run goes on, and the
second block gives a reason to leave. -/
theorem run_stops_at_target_unless_counter_wraps_nearEnd :
    nearEnd.background = false ∧ nearEnd.machine.clock.current ≤ 0xffffffff ∧
    (∃ e₁, Boundary 11 (nearEnd.armed 0xffffffff) 0 [4] 0x10 e₁ ∧
      e₁.machine.clock.shouldStop = false ∧
      runBlocks 11 11 0 (nearEnd.armed 0xffffffff) = runBlocks 11 10 0x10 e₁) ∧
    ∃ e', run 11 0 0xffffffff nearEnd = .ok 0x10 e' ∧ e'.machine.clock.exit.syscall = true := by
  have hbefore : nearEnd.machine.clock.current ≤ 0xffffffff := by decide +kernel
  obtain ⟨e₁, hboundary, hnormal⟩ := boundary_nearEnd
  obtain ⟨hgoes, -, hiff⟩ :=
    (run_stops_at_target_unless_counter_wraps keepsTime_standard 11 0 0xffffffff nearEnd hbefore).2
      _ _ _ hboundary
  -- four cycles after 0xfffffffc the counter is at zero
  have hon : e₁.machine.clock.shouldStop = false := by
    rw [Bool.eq_false_iff, ne_eq, hiff hnormal]
    decide +kernel
  have hrest := hgoes 10
  rw [if_neg (by rw [hon]; exact Bool.false_ne_true)] at hrest
  exact ⟨by decide +kernel, hbefore, ⟨e₁, hboundary, hon, hrest⟩, run_nearEnd⟩

end Engine

end Dynarec
