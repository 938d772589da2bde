/-
  Dynarec.Proofs.Host.Layout

  Where the pieces of generated code end up.

  Jumps inside the block are given their places at the end, all at once. Each
  has one fixup, so patching gives it the place of its own label and changes
  nothing else. The entries stand in order, so a search by halves finds every
  one of them.
-/
import Dynarec.Host.Lowering
import Dynarec.Proofs.Host.Line

namespace Dynarec

namespace Lowering

/-! ## Jumps -/

theorem patchOp_of_isStraight {op : HostOp} (h : op.IsStraight) (place : Option Nat) :
    patchOp place op = op := by
  cases op with
  | jump | jumpIf => exact h.elim
  | _ => rfl

variable (labels : Array (Option Nat)) {fixups : List (Nat × Nat)} {program : Array HostOp}

/-- Straight operations stay as they are. -/
theorem foldl_patch_of_isStraight {place : Nat} {op : HostOp} (hop : program[place]? = some op)
    (hs : op.IsStraight) : (fixups.foldl (patch labels) program)[place]? = some op := by
  induction fixups generalizing program with
  | nil => exact hop
  | cons fixup fixups ih =>
    refine ih ?_
    rw [patch, Array.getElem?_modify]
    split
    · rw [hop, Option.map_some, patchOp_of_isStraight hs]
    · exact hop

theorem foldl_patch_of_ne {place : Nat} (h : ∀ fixup ∈ fixups, fixup.1 ≠ place) :
    (fixups.foldl (patch labels) program)[place]? = program[place]? := by
  induction fixups generalizing program with
  | nil => rfl
  | cons fixup fixups ih =>
    rw [List.foldl_cons, ih fun x hx => h x (List.mem_cons_of_mem fixup hx), patch,
      Array.getElem?_modify, if_neg (h fixup List.mem_cons_self)]

/-- A jump gets the place of the label that its fixup names. -/
theorem foldl_patch_of_mem (hfix : fixups.Pairwise fun x y => x.1 < y.1) {place inside : Nat}
    (hmem : (place, inside) ∈ fixups) {op : HostOp} (hop : program[place]? = some op) :
    (fixups.foldl (patch labels) program)[place]? =
      some (patchOp (labels[inside]?).join op) := by
  induction fixups generalizing program with
  | nil => cases hmem
  | cons fixup fixups ih =>
    obtain ⟨hhead, hrest⟩ := List.pairwise_cons.mp hfix
    rcases List.mem_cons.mp hmem with rfl | hmem
    · -- later fixups are about later places
      rw [List.foldl_cons, foldl_patch_of_ne labels fun x hx => Nat.ne_of_gt (hhead x hx), patch,
        Array.getElem?_modify, if_pos rfl, hop]
      rfl
    · refine ih hrest hmem ?_
      have hlt := hhead _ hmem
      rw [patch, Array.getElem?_modify, if_neg (Nat.ne_of_lt hlt)]
      exact hop

/-! ## Entries -/

theorem mem_entries {labels : Array (Option Nat)} (hsize : labels.size ≤ 65536)
    {offset place : Nat} :
    (offset, place) ∈ (entries labels).toList ↔ labels[offset]? = some (some place) := by
  have hmod {k : Nat} (hk : k < labels.size) : k % 65536 = k := Nat.mod_eq_of_lt (by omega)
  simp only [entries, Array.toList_filterMap, Array.toList_mapIdx, List.mem_filterMap,
    List.mem_mapIdx, Array.length_toList, Array.getElem_toList]
  constructor
  · rintro ⟨_, ⟨k, hk, rfl⟩, h⟩
    obtain ⟨p, hp, hpair⟩ := Option.map_eq_some_iff.mp h
    cases hpair
    rw [hmod hk, Array.getElem?_eq_getElem hk]
    exact congrArg some hp
  · intro h
    obtain ⟨hk, hp⟩ := Array.getElem?_eq_some_iff.mp h
    refine ⟨_, ⟨offset, hk, rfl⟩, ?_⟩
    dsimp only
    rw [hp, hmod hk]
    rfl

/-- The entries stand in the order of their offsets. -/
theorem pairwise_entries {labels : Array (Option Nat)} (hsize : labels.size ≤ 65536) :
    (entries labels).toList.Pairwise fun x y => x.1 < y.1 := by
  simp only [entries, Array.toList_filterMap, Array.toList_mapIdx, List.pairwise_filterMap]
  refine List.pairwise_iff_getElem.mpr ?_
  intro i j hi hj hij x hx y hy
  simp only [List.length_mapIdx, Array.length_toList] at hi hj
  simp only [List.getElem_mapIdx, Option.map_eq_some_iff] at hx hy
  obtain ⟨_, -, rfl⟩ := hx
  obtain ⟨_, -, rfl⟩ := hy
  dsimp only
  rw [Nat.mod_eq_of_lt (by omega), Nat.mod_eq_of_lt (by omega)]
  exact hij

end Lowering

namespace HostProgram

/-- A search by halves through sorted entries finds the one that is there. -/
theorem searchEntry_eq {entries : Array (Nat × Nat)}
    (hsorted : entries.toList.Pairwise fun x y => x.1 < y.1) {offset place k first count : Nat}
    (hk : entries[k]? = some (offset, place)) (hsize : first + count ≤ entries.size)
    (hfirst : first ≤ k) (hlast : k < first + count) :
    searchEntry entries offset first count = k := by
  obtain ⟨hklt, hkval⟩ := Array.getElem?_eq_some_iff.mp hk
  have hlt {i j : Nat} (hi : i < entries.size) (hj : j < entries.size) (hij : i < j) :
      entries[i].1 < entries[j].1 :=
    List.pairwise_iff_getElem.mp hsorted i j hi hj hij
  fun_induction searchEntry entries offset first count with
  | case1 first count hcount => omega
  | case2 first count hcount half middle first' ih =>
    have hhalf : half = count / 2 := rfl
    have hmiddle : middle = first + count / 2 := rfl
    have hmlt : middle < entries.size := by omega
    have hentry : entries.getD middle default = entries[middle] := by
      simp [Array.getD_eq_getD_getElem?, hmlt]
    -- the half that is kept is the one with the entry
    rcases Nat.lt_or_ge k middle with hm | hm
    · have hnot : ¬(entries.getD middle default).1 ≤ offset := by
        have hgt := hlt hklt hmlt hm
        rw [hkval] at hgt
        rw [hentry]
        omega
      have hf : first' = first := dif_neg hnot
      exact ih (by omega) (by omega) (by omega)
    · have hle : (entries.getD middle default).1 ≤ offset := by
        rw [hentry]
        rcases Nat.lt_or_eq_of_le hm with hm | rfl
        · have hgt := hlt hmlt hklt hm
          rw [hkval] at hgt
          omega
        · exact Nat.le_of_eq (congrArg Prod.fst hkval)
      have hf : first' = middle := dif_pos hle
      exact ih (by omega) (by omega) (by omega)

theorem entryPoint?_of_mem {p : HostProgram}
    (hsorted : p.entries.toList.Pairwise fun x y => x.1 < y.1) {offset place : Nat}
    (h : (offset, place) ∈ p.entries.toList) : p.entryPoint? offset = some place := by
  obtain ⟨k, hk⟩ := List.mem_iff_getElem?.mp h
  have hk : p.entries[k]? = some (offset, place) := by simpa using hk
  have hlt : k < p.entries.size := (Array.getElem?_eq_some_iff.mp hk).1
  rw [entryPoint?, searchEntry_eq hsorted hk (by omega) (Nat.zero_le k) (by omega), hk]
  exact if_pos rfl

end HostProgram

end Dynarec
