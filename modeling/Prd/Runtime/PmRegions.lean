import Mathlib.Data.List.Induction
import Mathlib.Data.List.Infix
import Prd.Foundation.FirstMatch
import Prd.Runtime.Cprd
import Prd.Runtime.SlotArray

/-!
# The tables of persistent memory

Files of persistent memory are known by their paths, and mappings of their descriptors
are recorded. Both tables are of a fixed size and their slots are never used again. The
history of the calls keeps the same without a bound.
-/
namespace Prd.Runtime

open Prd.Foundation

def pmPoolCandMax : ℕ := 128

def pmPoolPathPattern : List Char := "pmem".toList

structure Cprd where
  pmPoolCandidates : SlotArray ℤ pmPoolCandMax
  pmRegions : SlotArray PMRegion pmPoolCandMax

/-- A region from 64-bit bounds. -/
def PMRegion.ofSize (addr size : ℕ) : PMRegion := ⟨addr, (addr + size) % 2 ^ 64⟩

theorem PMRegion.ofSize_inj {addr addr' size size' : ℕ} (hs : size < 2 ^ 32)
    (hs' : size' < 2 ^ 32) :
    PMRegion.ofSize addr size = PMRegion.ofSize addr' size' ↔ addr = addr' ∧ size = size' := by
  unfold PMRegion.ofSize
  rw [PMRegion.mk.injEq]
  constructor
  · intro h
    omega
  · intro h
    rw [h.1, h.2]
    exact ⟨rfl, rfl⟩

/-- A region that runs past the last address contains nothing. -/
theorem PMRegion.contains_ofSize {addr size : ℕ} (ha : addr < 2 ^ 64) (hs : size < 2 ^ 32) (a : ℕ) :
    (PMRegion.ofSize addr size).contains a = true ↔
      addr ≤ a ∧ a < addr + size ∧ addr + size < 2 ^ 64 := by
  unfold PMRegion.contains PMRegion.ofSize
  rw [decide_eq_true_eq]
  dsimp only
  omega

namespace Cprd

def new : Cprd := ⟨.new, .new⟩

def handleOpenFile (s : Cprd) (path : List Char) (fd : ℤ) : Option Cprd :=
  if pmPoolPathPattern <:+: path then do
    let candidates ← s.pmPoolCandidates.pushBack fd
    some { s with pmPoolCandidates := candidates }
  else some s

def handleCloseFile (s : Cprd) (fd : ℤ) : Option Cprd := do
  let (_, candidates) ← s.pmPoolCandidates.remove fd
  some { s with pmPoolCandidates := candidates }

def handleMmap (s : Cprd) (addr size : ℕ) (fd : ℤ) : Option Cprd := do
  if ← s.pmPoolCandidates.contains fd then
    let regions ← s.pmRegions.pushBack (.ofSize addr size)
    some { s with pmRegions := regions }
  else some s

def handleMunmap (s : Cprd) (addr size : ℕ) : Option Cprd := do
  let (_, regions) ← s.pmRegions.remove (.ofSize addr size)
  some { s with pmRegions := regions }

def isPmAddress (s : Cprd) (addr : ℕ) : Option Bool := s.pmRegions.any (·.contains addr)

end Cprd

inductive RegionCall
  | openFile (path : List Char) (fd : ℤ)
  | closeFile (fd : ℤ)
  | mmap (addr size : ℕ) (fd : ℤ)
  | munmap (addr size : ℕ)
  | isPmAddress (addr : ℕ)
  deriving DecidableEq

namespace RegionCall

def apply (s : Cprd) : RegionCall → Option Cprd
  | openFile path fd => s.handleOpenFile path fd
  | closeFile fd => s.handleCloseFile fd
  | mmap addr size fd => s.handleMmap addr size fd
  | munmap addr size => s.handleMunmap addr size
  | isPmAddress addr => (s.isPmAddress addr).map fun _ => s

/-- The state after the calls, if no index was out of range. -/
def run (calls : List RegionCall) : Option Cprd := calls.foldlM apply .new

theorem run_append_singleton (calls : List RegionCall) (call : RegionCall) :
    run (calls ++ [call]) = (run calls).bind fun s => call.apply s := by
  unfold run
  rw [List.foldlM_append]
  cases calls.foldlM apply .new with
  | none => rfl
  | some s =>
    show [call].foldlM apply s = apply s call
    rw [List.foldlM_cons]
    cases apply s call with
    | none => rfl
    | some s' => rfl

end RegionCall

/-- What the calls did to tables without a bound: how many files were opened, the candidates that
were not closed, the recorded regions, and those among them that were not removed. -/
structure PmHistory where
  opened : ℕ
  candidates : List ℤ
  recorded : List PMRegion
  live : List PMRegion

namespace PmHistory

def new : PmHistory := ⟨0, [], [], []⟩

def step (h : PmHistory) : RegionCall → PmHistory
  | .openFile path fd =>
    if pmPoolPathPattern <:+: path then
      { h with opened := h.opened + 1, candidates := h.candidates ++ [fd] }
    else h
  | .closeFile fd => { h with candidates := h.candidates.erase fd }
  | .mmap addr size fd =>
    if fd ∈ h.candidates then
      { h with
        recorded := h.recorded ++ [.ofSize addr size]
        live := h.live ++ [.ofSize addr size] }
    else h
  | .munmap addr size => { h with live := h.live.erase (.ofSize addr size) }
  | .isPmAddress _ => h

def ofCalls (calls : List RegionCall) : PmHistory := calls.foldl step new

theorem ofCalls_append_singleton (calls : List RegionCall) (call : RegionCall) :
    ofCalls (calls ++ [call]) = (ofCalls calls).step call := by
  unfold ofCalls
  rw [List.foldl_append]
  rfl

/-- The address is in a region that was not removed, or in the one that was recorded first. -/
def Meets (h : PmHistory) (addr : ℕ) : Prop :=
  ∃ r, (r ∈ h.live ∨ h.recorded.head? = some r) ∧ r.contains addr = true

/-- The tables have a slot for what the call inserts, and a query of a full table finds its
address. -/
def Fits (h : PmHistory) : RegionCall → Prop
  | .openFile path _ => pmPoolPathPattern <:+: path → h.opened < pmPoolCandMax
  | .mmap _ _ fd => fd ∈ h.candidates → h.recorded.length < pmPoolCandMax
  | .isPmAddress addr => h.recorded.length < pmPoolCandMax ∨ h.Meets addr
  | _ => True

end PmHistory

/-- The tables hold what the history says. -/
structure Cprd.Holds (s : Cprd) (h : PmHistory) : Prop where
  candidates : s.pmPoolCandidates.contents = h.candidates
  opened : s.pmPoolCandidates.count = h.opened
  live : s.pmRegions.contents = h.live
  recorded : s.pmRegions.count = h.recorded.length
  first : s.pmRegions.first? = h.recorded.head?

namespace Cprd

variable {s : Cprd} {h : PmHistory}

theorem holds_new : new.Holds .new where
  candidates := rfl
  opened := rfl
  live := rfl
  recorded := rfl
  first := rfl

theorem Holds.visited_any (hs : s.Holds h) (addr : ℕ) :
    s.pmRegions.visited.any (·.contains addr) = true ↔ h.Meets addr := by
  rw [List.any_eq_true]
  unfold PmHistory.Meets
  refine exists_congr fun r => and_congr_left fun _ => ?_
  rw [SlotArray.mem_visited, hs.live, hs.first]

/-- A query answers what the history says, if it stays within the table. -/
theorem Holds.isPmAddress_eq (hs : s.Holds h) (addr : ℕ) [Decidable (h.Meets addr)] :
    s.isPmAddress addr = if h.Meets addr then some true
      else if h.recorded.length < pmPoolCandMax then some false else none := by
  unfold isPmAddress
  rw [SlotArray.any_eq _ (by decide), hs.recorded]
  simp only [hs.visited_any]

theorem Holds.handleOpenFile (hs : s.Holds h) (path : List Char) (fd : ℤ) :
    (h.Fits (.openFile path fd) → ∃ s', s.handleOpenFile path fd = some s' ∧
      s'.Holds (h.step (.openFile path fd))) ∧
      (¬ h.Fits (.openFile path fd) → s.handleOpenFile path fd = none) := by
  unfold Cprd.handleOpenFile PmHistory.Fits PmHistory.step
  by_cases hp : pmPoolPathPattern <:+: path
  · simp only [hp, if_true, true_implies]
    constructor
    · intro hlt
      obtain ⟨arr', harr, hitems⟩ := SlotArray.pushBack_spec (hs.opened ▸ hlt) fd
      obtain ⟨hc, hn, -⟩ := SlotArray.contents_pushBack hitems
      refine ⟨{ s with pmPoolCandidates := arr' }, ?_, ?_, ?_, hs.live, hs.recorded, hs.first⟩
      · rw [harr]
        rfl
      · simp [hc, hs.candidates]
      · simp [hn, hs.opened]
    · intro hlt
      rw [SlotArray.pushBack_eq_none (hs.opened ▸ hlt)]
      rfl
  · simp [hp, hs]

theorem Holds.handleCloseFile (hs : s.Holds h) (fd : ℤ) :
    ∃ s', s.handleCloseFile fd = some s' ∧ s'.Holds (h.step (.closeFile fd)) := by
  obtain ⟨arr', harr, hc, hn, -⟩ := s.pmPoolCandidates.remove_spec fd
  refine ⟨{ s with pmPoolCandidates := arr' }, ?_, ?_, ?_, hs.live, hs.recorded, hs.first⟩
  · unfold Cprd.handleCloseFile
    rw [harr]
    rfl
  · simp [PmHistory.step, hc, hs.candidates]
  · simp [PmHistory.step, hn, hs.opened]

theorem Holds.handleMmap (hs : s.Holds h) (addr size : ℕ) (fd : ℤ) :
    (h.Fits (.mmap addr size fd) → ∃ s', s.handleMmap addr size fd = some s' ∧
      s'.Holds (h.step (.mmap addr size fd))) ∧
      (¬ h.Fits (.mmap addr size fd) → s.handleMmap addr size fd = none) := by
  unfold Cprd.handleMmap PmHistory.Fits PmHistory.step
  rw [SlotArray.contains_eq, hs.candidates, Option.bind_eq_bind, Option.bind_some]
  by_cases hfd : fd ∈ h.candidates
  · simp only [hfd, decide_true, if_true, true_implies]
    constructor
    · intro hlt
      obtain ⟨arr', harr, hitems⟩ :=
        SlotArray.pushBack_spec (hs.recorded ▸ hlt) (PMRegion.ofSize addr size)
      obtain ⟨hc, hn, hf⟩ := SlotArray.contents_pushBack hitems
      refine ⟨{ s with pmRegions := arr' }, ?_, hs.candidates, hs.opened, ?_, ?_, ?_⟩
      · rw [harr]
        rfl
      · simp [hc, hs.live]
      · simp [hn, hs.recorded]
      · simp [hf, hs.first, List.head?_append]
    · intro hlt
      rw [SlotArray.pushBack_eq_none (hs.recorded ▸ hlt)]
      rfl
  · simp [hfd, hs]

theorem Holds.handleMunmap (hs : s.Holds h) (addr size : ℕ) :
    ∃ s', s.handleMunmap addr size = some s' ∧ s'.Holds (h.step (.munmap addr size)) := by
  obtain ⟨arr', harr, hc, hn, hf⟩ := s.pmRegions.remove_spec (.ofSize addr size)
  refine ⟨{ s with pmRegions := arr' }, ?_, hs.candidates, hs.opened, ?_, ?_, ?_⟩
  · unfold Cprd.handleMunmap
    rw [harr]
    rfl
  · simp [PmHistory.step, hc, hs.live]
  · simp [PmHistory.step, hn, hs.recorded]
  · simp [PmHistory.step, hf, hs.first]

/-- A call that fits keeps the tables in line with the history, and another one leaves them. -/
theorem Holds.apply (hs : s.Holds h) (call : RegionCall) :
    (h.Fits call → ∃ s', call.apply s = some s' ∧ s'.Holds (h.step call)) ∧
      (¬ h.Fits call → call.apply s = none) := by
  cases call with
  | openFile path fd => exact hs.handleOpenFile path fd
  | closeFile fd => exact ⟨fun _ => hs.handleCloseFile fd, fun hn => absurd trivial hn⟩
  | mmap addr size fd => exact hs.handleMmap addr size fd
  | munmap addr size => exact ⟨fun _ => hs.handleMunmap addr size, fun hn => absurd trivial hn⟩
  | isPmAddress addr =>
    classical
    simp only [RegionCall.apply, PmHistory.Fits, PmHistory.step, hs.isPmAddress_eq]
    by_cases hm : h.Meets addr
    · simp [hm, hs]
    · by_cases hlt : h.recorded.length < pmPoolCandMax
      · simp [hm, hlt, hs]
      · simp [hm, hlt]

end Cprd

/-- A query of a full table finds its address. -/
def PmHistory.Answers (h : PmHistory) : RegionCall → Prop
  | .isPmAddress addr => h.recorded.length < pmPoolCandMax ∨ h.Meets addr
  | _ => True

/-- Over all calls the tables have a slot for each insertion, and every query of a full table
finds its address. -/
structure TablesSuffice (calls : List RegionCall) : Prop where
  opened : (PmHistory.ofCalls calls).opened ≤ pmPoolCandMax
  recorded : (PmHistory.ofCalls calls).recorded.length ≤ pmPoolCandMax
  queries : ∀ pre call post, calls = pre ++ call :: post → (PmHistory.ofCalls pre).Answers call

theorem tablesSuffice_nil : TablesSuffice [] where
  opened := Nat.zero_le _
  recorded := Nat.zero_le _
  queries := fun pre call post hnil => by simp at hnil

/-- The counts of the next history are within the tables if those of this one are and the call
fits. -/
theorem PmHistory.fits_iff {h : PmHistory} (hopened : h.opened ≤ pmPoolCandMax)
    (hrecorded : h.recorded.length ≤ pmPoolCandMax) (call : RegionCall) :
    h.Fits call ↔ (h.step call).opened ≤ pmPoolCandMax ∧
      (h.step call).recorded.length ≤ pmPoolCandMax ∧ h.Answers call := by
  cases call with
  | openFile path fd =>
    by_cases hp : pmPoolPathPattern <:+: path
    · simp [Fits, step, Answers, hp, hrecorded, Nat.succ_le_iff]
    · simp [Fits, step, Answers, hp, hopened, hrecorded]
  | mmap addr size fd =>
    by_cases hfd : fd ∈ h.candidates
    · simp [Fits, step, Answers, hfd, hopened, Nat.succ_le_iff]
    · simp [Fits, step, Answers, hfd, hopened, hrecorded]
  | closeFile fd => simp [Fits, step, Answers, hopened, hrecorded]
  | munmap addr size => simp [Fits, step, Answers, hopened, hrecorded]
  | isPmAddress addr => simp [Fits, step, Answers, hopened, hrecorded]

theorem PmHistory.step_mono (h : PmHistory) (call : RegionCall) :
    h.opened ≤ (h.step call).opened ∧ h.recorded.length ≤ (h.step call).recorded.length := by
  cases call with
  | openFile path fd =>
    simp only [step]
    split_ifs with hp
    · simp
    · simp
  | mmap addr size fd =>
    simp only [step]
    split_ifs with hfd
    · simp
    · simp
  | closeFile fd => simp [step]
  | munmap addr size => simp [step]
  | isPmAddress addr => simp [step]

/-- The tables suffice as long as each call fits. -/
theorem tablesSuffice_append_singleton {calls : List RegionCall} {call : RegionCall} :
    TablesSuffice (calls ++ [call]) ↔
      TablesSuffice calls ∧ (PmHistory.ofCalls calls).Fits call := by
  have hmono := (PmHistory.ofCalls calls).step_mono call
  constructor
  · intro h
    have hopened := h.opened
    have hrecorded := h.recorded
    rw [PmHistory.ofCalls_append_singleton] at hopened hrecorded
    obtain ⟨hqueries, hcall⟩ := forall_split_append_singleton.mp h.queries
    have hle : TablesSuffice calls := ⟨hmono.1.trans hopened, hmono.2.trans hrecorded, hqueries⟩
    exact ⟨hle, (PmHistory.fits_iff hle.opened hle.recorded call).mpr ⟨hopened, hrecorded, hcall⟩⟩
  · intro h
    obtain ⟨hle, hfits⟩ := h
    obtain ⟨hopened, hrecorded, hcall⟩ := (PmHistory.fits_iff hle.opened hle.recorded call).mp hfits
    rw [← PmHistory.ofCalls_append_singleton] at hopened hrecorded
    exact ⟨hopened, hrecorded, forall_split_append_singleton.mpr ⟨hle.queries, hcall⟩⟩

/-- As long as the tables suffice they hold what the history says, and otherwise an index was out
of range. -/
theorem RegionCall.run_spec (calls : List RegionCall) :
    (TablesSuffice calls → ∃ s, run calls = some s ∧ s.Holds (PmHistory.ofCalls calls)) ∧
      (¬ TablesSuffice calls → run calls = none) := by
  induction calls using List.reverseRecOn with
  | nil => exact ⟨fun _ => ⟨.new, rfl, Cprd.holds_new⟩, fun h => absurd tablesSuffice_nil h⟩
  | append_singleton calls call ih =>
    rw [run_append_singleton, tablesSuffice_append_singleton, PmHistory.ofCalls_append_singleton]
    by_cases hle : TablesSuffice calls
    · obtain ⟨s, hrun, hs⟩ := ih.1 hle
      simpa [hrun, hle] using hs.apply call
    · simp [ih.2 hle, hle]

/-- Every index is within the tables exactly as long as the tables suffice: their slots are used
once, so what counts are all insertions and not those that are left. -/
theorem indexes_in_range_iff (calls : List RegionCall) :
    (RegionCall.run calls).isSome = true ↔ TablesSuffice calls := by
  have hspec := RegionCall.run_spec calls
  by_cases h : TablesSuffice calls
  · obtain ⟨s, hs, -⟩ := hspec.1 h
    simp [hs, h]
  · simp [hspec.2 h, h]

namespace RegionCall

/-- The descriptors that are open, of any path. -/
def openDescriptors (calls : List RegionCall) : List ℤ :=
  calls.foldl (fun fds call => match call with
    | openFile _ fd => fds ++ [fd]
    | closeFile fd => fds.erase fd
    | _ => fds) []

/-- The bounds of the mappings that are there, of any descriptor. -/
def mappings (calls : List RegionCall) : List (ℕ × ℕ) :=
  calls.foldl (fun maps call => match call with
    | mmap addr size _ => maps ++ [(addr, size)]
    | munmap addr size => maps.erase (addr, size)
    | _ => maps) []

/-- At any time at most as many descriptors are open and regions are mapped as the tables have
slots. -/
def WithinLimits (calls : List RegionCall) : Prop :=
  ∀ pre ∈ calls.inits,
    (openDescriptors pre).length ≤ pmPoolCandMax ∧ (mappings pre).length ≤ pmPoolCandMax

instance (calls : List RegionCall) : Decidable (WithinLimits calls) :=
  inferInstanceAs (Decidable (∀ pre ∈ calls.inits, _))

end RegionCall

/-- A descriptor that is opened and closed once more than the table has slots. -/
def reopened : List RegionCall :=
  (List.replicate (pmPoolCandMax + 1) [.openFile pmPoolPathPattern 3, .closeFile 3]).flatten

/-- With one descriptor open at a time there is an index out of range. -/
theorem reopened_out_of_range : ¬ ∀ calls, RegionCall.WithinLimits calls →
    (RegionCall.run calls).isSome = true := by
  intro h
  have hopened : ¬ (PmHistory.ofCalls reopened).opened ≤ pmPoolCandMax := by decide +kernel
  have hnone := (RegionCall.run_spec reopened).2 fun hs => hopened hs.opened
  have hsome := h reopened (by decide +kernel)
  rw [hnone] at hsome
  cases hsome

end Prd.Runtime
