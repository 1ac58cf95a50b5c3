import Mathlib.Data.List.Range
import Mathlib.Tactic.Common
import Prd.Runtime.MemoryAccess

/-!
# Accesses in pieces

An access without alignment is split into pieces of one, two, four or eight bytes, and so is an
access of a range. The pieces follow one another without gaps, and each of them stays in one
shadow cell.
-/
namespace Prd.Runtime

/-- The logarithm of the size of the next piece. -/
def pieceSizeLog (addr size : ℕ) : ℕ :=
  if 8 ≤ size ∧ addr / kShadowCell = (addr + 7) / kShadowCell then 3
  else if 4 ≤ size ∧ addr / kShadowCell = (addr + 3) / kShadowCell then 2
  else if 2 ≤ size ∧ addr / kShadowCell = (addr + 1) / kShadowCell then 1
  else 0

theorem pieceSizeLog_le (addr size : ℕ) : pieceSizeLog addr size ≤ 3 := by
  unfold pieceSizeLog
  split_ifs <;> simp

/-- A piece is part of the access and of a cell. -/
theorem pieceSizeLog_fits {addr size : ℕ} (hsize : 0 < size) :
    2 ^ pieceSizeLog addr size ≤ size ∧
      addr % kShadowCell + 2 ^ pieceSizeLog addr size ≤ kShadowCell := by
  unfold pieceSizeLog kShadowCell
  split_ifs <;> omega

/-- `UnalignedMemoryAccess`: the addresses and sizes of the accesses. -/
def unalignedMemoryAccess (addr size : ℕ) : List (ℕ × ℕ) :=
  if 0 < size then
    (addr, pieceSizeLog addr size) ::
      unalignedMemoryAccess (addr + 2 ^ pieceSizeLog addr size) (size - 2 ^ pieceSizeLog addr size)
  else []
termination_by size
decreasing_by
  have : 0 < 2 ^ pieceSizeLog addr size := Nat.two_pow_pos _
  omega

/-- The unaligned beginning of a range, and what is left of the range. -/
def rangeBeginning (addr : ℕ) : ℕ → List (ℕ × ℕ) × ℕ × ℕ
  | 0 => ([], addr, 0)
  | size + 1 =>
    if addr % kShadowCell ≠ 0 then
      let rest := rangeBeginning (addr + 1) size
      ((addr, 0) :: rest.1, rest.2)
    else ([], addr, size + 1)

/-- The cells of a range and its ending. -/
def rangeCells (addr size : ℕ) : List (ℕ × ℕ) :=
  if kShadowCell ≤ size then (addr, 3) :: rangeCells (addr + kShadowCell) (size - kShadowCell)
  else (List.range size).map fun i => (addr + i, 0)
termination_by size
decreasing_by
  unfold kShadowCell at *
  omega

/-- `MemoryAccessRange`: the addresses and sizes of the accesses. -/
def memoryAccessRange (addr size : ℕ) : List (ℕ × ℕ) :=
  let rest := rangeBeginning addr size
  rest.1 ++ rangeCells rest.2.1 rest.2.2

/-- The pieces follow one another through the range, and each stays in a cell. -/
structure Tiles (pieces : List (ℕ × ℕ)) (addr size : ℕ) : Prop where
  bytes : (pieces.flatMap fun p => List.range' p.1 (2 ^ p.2)) = List.range' addr size
  fits : ∀ p ∈ pieces, p.2 ≤ 3 ∧ p.1 % kShadowCell + 2 ^ p.2 ≤ kShadowCell

namespace Tiles

variable {pieces rest : List (ℕ × ℕ)} {addr size k : ℕ}

theorem nil (addr : ℕ) : Tiles [] addr 0 := ⟨rfl, by simp⟩

theorem append (h : Tiles pieces addr k) (hrest : Tiles rest (addr + k) (size - k))
    (hk : k ≤ size) : Tiles (pieces ++ rest) addr size where
  bytes := by
    rw [List.flatMap_append, h.bytes, hrest.bytes, List.range'_append_1, Nat.add_sub_of_le hk]
  fits := by
    intro p hp
    rcases List.mem_append.mp hp with hp | hp
    · exact h.fits p hp
    · exact hrest.fits p hp

theorem single (hk : k ≤ 3) (hfits : addr % kShadowCell + 2 ^ k ≤ kShadowCell) :
    Tiles [(addr, k)] addr (2 ^ k) := by
  refine ⟨by simp, fun p hp => ?_⟩
  rw [List.mem_singleton.mp hp]
  exact ⟨hk, hfits⟩

theorem le_of_mem (h : Tiles pieces addr size) {p : ℕ × ℕ} (hp : p ∈ pieces) :
    p.1 < addr + size := by
  have hmem : p.1 ∈ pieces.flatMap fun p => List.range' p.1 (2 ^ p.2) := by
    refine List.mem_flatMap.mpr ⟨p, hp, ?_⟩
    simp
  rw [h.bytes] at hmem
  simp only [List.mem_range'_1] at hmem
  exact hmem.2

theorem byte (addr : ℕ) : Tiles [(addr, 0)] addr 1 := by
  refine single (by simp) ?_
  unfold kShadowCell
  omega

end Tiles

/-- The accesses of an unaligned access tile it. -/
theorem unalignedMemoryAccess_tiles (addr size : ℕ) :
    Tiles (unalignedMemoryAccess addr size) addr size := by
  fun_induction unalignedMemoryAccess addr size with
  | case1 addr size hsize ih =>
    obtain ⟨hle, hfits⟩ : 2 ^ pieceSizeLog addr size ≤ size ∧
        addr % kShadowCell + 2 ^ pieceSizeLog addr size ≤ kShadowCell := pieceSizeLog_fits hsize
    exact (Tiles.single (pieceSizeLog_le addr size) hfits).append ih hle
  | case2 addr size hsize =>
    obtain rfl : size = 0 := by omega
    exact .nil addr

theorem rangeBeginning_tiles (addr size : ℕ) : ∃ k ≤ size,
    Tiles (rangeBeginning addr size).1 addr k ∧ (rangeBeginning addr size).2 =
      (addr + k, size - k) ∧ (k < size → (addr + k) % kShadowCell = 0) := by
  induction size generalizing addr with
  | zero => exact ⟨0, le_rfl, .nil addr, rfl, by simp⟩
  | succ size ih =>
    unfold rangeBeginning
    by_cases h : addr % kShadowCell ≠ 0
    · obtain ⟨k, hk, htiles, hrest, haligned⟩ := ih (addr + 1)
      rw [if_pos h]
      refine ⟨k + 1, Nat.succ_le_succ hk, ?_, ?_, fun hlt => ?_⟩
      · have hone : Tiles ((addr, 0) :: (rangeBeginning (addr + 1) size).1) addr (k + 1) :=
          (Tiles.byte addr).append htiles (by omega)
        exact hone
      · simp only [hrest, Prod.mk.injEq]
        omega
      · have := haligned (by omega)
        rwa [Nat.add_assoc, Nat.add_comm 1 k] at this
    · rw [if_neg h]
      exact ⟨0, Nat.zero_le _, .nil addr, rfl, fun _ => not_not.mp h⟩

theorem endings_tile (addr size : ℕ) :
    Tiles ((List.range size).map fun i => (addr + i, 0)) addr size := by
  induction size with
  | zero => exact .nil addr
  | succ size ih =>
    rw [List.range_succ, List.map_append]
    refine ih.append ?_ (Nat.le_succ size)
    rw [Nat.add_sub_cancel_left]
    exact .byte (addr + size)

theorem rangeCells_tiles {addr size : ℕ} (h : 0 < size → addr % kShadowCell = 0) :
    Tiles (rangeCells addr size) addr size := by
  fun_induction rangeCells addr size with
  | case1 addr size hsize ih =>
    have haligned := h (by unfold kShadowCell at hsize; omega)
    have hone : Tiles [(addr, 3)] addr (2 ^ 3) := Tiles.single le_rfl (by rw [haligned]; decide)
    refine hone.append (ih fun _ => ?_) hsize
    rw [Nat.add_mod_right, haligned]
  | case2 addr size _ => exact endings_tile addr size

/-- The accesses of a range tile it. -/
theorem memoryAccessRange_tiles (addr size : ℕ) :
    Tiles (memoryAccessRange addr size) addr size := by
  obtain ⟨k, hk, htiles, hrest, haligned⟩ := rangeBeginning_tiles addr size
  unfold memoryAccessRange
  simp only [hrest]
  exact htiles.append (rangeCells_tiles fun hpos => haligned (by omega)) hk

/-- Every byte is accessed once, from the first to the last, and no access leaves its cell. -/
theorem accesses_tile (addr size : ℕ) :
    Tiles (unalignedMemoryAccess addr size) addr size ∧ Tiles
    (memoryAccessRange addr size) addr size :=
  ⟨unalignedMemoryAccess_tiles addr size, memoryAccessRange_tiles addr size⟩

end Prd.Runtime
