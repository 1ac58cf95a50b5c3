import Prd.Runtime.PmRegions

/-!
# Which addresses are persistent memory

An address is persistent memory as long as it is mapped from a file that was registered
at the time of the mapping. The table of regions answers the same, up to the region that
was recorded first, descriptors that are registered twice and regions without an end.
-/
namespace Prd.Runtime

open Prd.Foundation

namespace RegionCall

/-- The descriptor was opened with a matching path and not closed since. -/
def RegisteredAt (calls : List RegionCall) (fd : ℤ) : Prop :=
  Since (fun _ call => ∃ path, call = openFile path fd ∧ pmPoolPathPattern <:+: path)
    (· = closeFile fd) calls

/-- The mapping was made from a descriptor that was registered at the time, in the sense given, and
not unmapped since. -/
def Mapped (registered : List RegionCall → ℤ → Prop) (calls : List RegionCall) (addr size : ℕ) :
    Prop :=
  Since (fun pre call => ∃ fd, call = mmap addr size fd ∧ registered pre fd)
    (· = munmap addr size) calls

def InPmMapping (calls : List RegionCall) (a : ℕ) : Prop :=
  ∃ addr size, Mapped RegisteredAt calls addr size ∧ addr ≤ a ∧ a < addr + size

def IsCandidate (calls : List RegionCall) (fd : ℤ) : Prop :=
  fd ∈ (PmHistory.ofCalls calls).candidates

/-- The descriptor is still in the table, as it was opened more often than it was closed. -/
def IsStaleCandidate (calls : List RegionCall) (fd : ℤ) : Prop :=
  IsCandidate calls fd ∧ ¬ RegisteredAt calls fd

/-- The address is in the region recorded first, after its removal, or in a mapping of a descriptor
that was closed but is still in the table. -/
def StaleAt (calls : List RegionCall) (a : ℕ) : Prop :=
  (∃ r, (PmHistory.ofCalls calls).recorded.head? = some r ∧
    r ∉ (PmHistory.ofCalls calls).live ∧ r.contains a = true) ∨
  ∃ addr size, Mapped IsStaleCandidate calls addr size ∧
    (PMRegion.ofSize addr size).contains a = true

/-- The address is only in mappings that run past the last address. -/
def CutAt (calls : List RegionCall) (a : ℕ) : Prop :=
  InPmMapping calls a ∧ ∀ addr size, Mapped RegisteredAt calls addr size →
    addr ≤ a → a < addr + size → 2 ^ 64 ≤ addr + size

def InSpace : RegionCall → Prop
  | mmap addr size _ => addr < 2 ^ 64 ∧ size < 2 ^ 32
  | munmap addr size => addr < 2 ^ 64 ∧ size < 2 ^ 32
  | _ => True

/-- A call that unmaps covers one mapping that is there. -/
def UnmapsOne (pre : List RegionCall) : RegionCall → Prop
  | munmap addr size => (mappings pre).count (addr, size) = 1
  | _ => True

end RegionCall

open RegionCall

/-- Calls that leave both tables with a free slot, with 32-bit sizes and one mapping for each call
that unmaps. -/
structure TrackedCalls (calls : List RegionCall) : Prop where
  opened : (PmHistory.ofCalls calls).opened < pmPoolCandMax
  recorded : (PmHistory.ofCalls calls).recorded.length < pmPoolCandMax
  inSpace : ∀ call ∈ calls, InSpace call
  unmapsOne : ∀ pre call post, calls = pre ++ call :: post → UnmapsOne pre call

section Prefixes

theorem ofCalls_append_mono (pre post : List RegionCall) :
    (PmHistory.ofCalls pre).recorded.length ≤
    (PmHistory.ofCalls (pre ++ post)).recorded.length := by
  induction post using List.reverseRecOn with
  | nil => rw [List.append_nil]
  | append_singleton post call ih =>
    rw [← List.append_assoc, PmHistory.ofCalls_append_singleton]
    exact ih.trans (PmHistory.step_mono _ call).2

variable {calls : List RegionCall} {call : RegionCall}

theorem mappings_append_singleton : mappings (calls ++ [call]) = match call with
    | mmap addr size _ => mappings calls ++ [(addr, size)]
    | munmap addr size => (mappings calls).erase (addr, size)
    | _ => mappings calls := by
  unfold mappings
  rw [List.foldl_append]
  rfl

theorem TrackedCalls.tablesSuffice (h : TrackedCalls calls) : TablesSuffice calls where
  opened := h.opened.le
  recorded := h.recorded.le
  queries := by
    intro pre call post hcalls
    cases call with
    | isPmAddress addr =>
      have hle := ofCalls_append_mono pre (.isPmAddress addr :: post)
      rw [← hcalls] at hle
      exact Or.inl (hle.trans_lt h.recorded)
    | _ => trivial

theorem TrackedCalls.of_append_singleton (h : TrackedCalls (calls ++ [call])) :
    TrackedCalls calls ∧ InSpace call ∧ UnmapsOne calls call := by
  have hmono := (PmHistory.ofCalls calls).step_mono call
  have hopened := h.opened
  have hrecorded := h.recorded
  rw [PmHistory.ofCalls_append_singleton] at hopened hrecorded
  obtain ⟨hunmaps, hone⟩ := forall_split_append_singleton.mp h.unmapsOne
  refine ⟨⟨hmono.1.trans_lt hopened, hmono.2.trans_lt hrecorded, ?_, hunmaps⟩, ?_, hone⟩
  · intro c hc
    exact h.inSpace c (List.mem_append_left _ hc)
  · exact h.inSpace call (by simp)

end Prefixes

section Candidates

variable {calls : List RegionCall} {call : RegionCall} {fd : ℤ}

theorem registeredAt_append_singleton : RegisteredAt (calls ++ [call]) fd ↔
    (∃ path, call = openFile path fd ∧ pmPoolPathPattern <:+: path) ∨
      RegisteredAt calls fd ∧ call ≠ closeFile fd :=
  since_append_singleton

/-- A registered descriptor is in the table. -/
theorem RegisteredAt.isCandidate (h : RegisteredAt calls fd) : IsCandidate calls fd := by
  unfold IsCandidate
  induction calls using List.reverseRecOn with
  | nil => exact absurd h not_since_nil
  | append_singleton calls call ih =>
    rw [PmHistory.ofCalls_append_singleton]
    rcases registeredAt_append_singleton.mp h with ⟨path, rfl, hp⟩ | ⟨hreg, hne⟩
    · simp [PmHistory.step, hp]
    · have hmem := ih hreg
      cases call with
      | openFile path fd' =>
        simp only [PmHistory.step]
        split_ifs
        · exact List.mem_append_left _ hmem
        · exact hmem
      | closeFile fd' =>
        have hfd : fd ≠ fd' := fun heq => hne (by rw [heq])
        exact (List.mem_erase_of_ne hfd).mpr hmem
      | mmap addr size fd' =>
        simp only [PmHistory.step]
        split_ifs
        · exact hmem
        · exact hmem
      | munmap addr size => exact hmem
      | isPmAddress addr => exact hmem

end Candidates

section Live

variable {calls : List RegionCall} {call : RegionCall}

theorem mapped_append_singleton {registered : List RegionCall → ℤ → Prop} {addr size : ℕ} :
    Mapped registered (calls ++ [call]) addr size ↔
      (∃ fd, call = mmap addr size fd ∧ registered calls fd) ∨
        Mapped registered calls addr size ∧ call ≠ munmap addr size :=
  since_append_singleton

theorem Mapped.inSpace {registered : List RegionCall → ℤ → Prop} {addr size : ℕ}
    (h : Mapped registered calls addr size) (hspace : ∀ call ∈ calls, InSpace call) :
    addr < 2 ^ 64 ∧ size < 2 ^ 32 := by
  obtain ⟨pre, call, post, rfl, ⟨fd, rfl, -⟩, -⟩ := h
  exact hspace (mmap addr size fd) (by simp)

/-- A region is in the table no more often than there are mappings with its bounds. -/
theorem TrackedCalls.count_live_le (h : TrackedCalls calls) {addr size : ℕ} (hs : size < 2 ^ 32) :
    (PmHistory.ofCalls calls).live.count (.ofSize addr size) ≤
      (mappings calls).count (addr, size) := by
  induction calls using List.reverseRecOn with
  | nil => exact Nat.zero_le _
  | append_singleton calls call ih =>
    obtain ⟨hcalls, hspace, -⟩ := h.of_append_singleton
    have hle := ih hcalls
    rw [PmHistory.ofCalls_append_singleton, mappings_append_singleton]
    cases call with
    | openFile path fd =>
      simp only [PmHistory.step]
      split_ifs
      · exact hle
      · exact hle
    | closeFile fd => exact hle
    | mmap addr' size' fd =>
      have hinj : PMRegion.ofSize addr' size' = .ofSize addr size ↔ addr' = addr ∧ size' = size :=
        PMRegion.ofSize_inj hspace.2 hs
      have hcount : [PMRegion.ofSize addr' size'].count (.ofSize addr size) =
          [(addr', size')].count (addr, size) := by
        simp [List.count_singleton, hinj]
      simp only [PmHistory.step]
      split_ifs
      · rw [List.count_append, List.count_append, hcount]
        omega
      · rw [List.count_append]
        omega
    | munmap addr' size' =>
      have hinj : PMRegion.ofSize addr' size' = .ofSize addr size ↔ addr' = addr ∧ size' = size :=
        PMRegion.ofSize_inj hspace.2 hs
      simp only [PmHistory.step, List.count_erase, beq_iff_eq, hinj, Prod.mk.injEq]
      exact Nat.sub_le_sub_right hle _
    | isPmAddress a => exact hle

/-- A list from which the only occurrence of an element is erased. -/
theorem mem_erase_of_count_le_one {α : Type*} [DecidableEq α] {l : List α} {x y : α}
    (h : l.count x ≤ 1) : y ∈ l.erase x ↔ y ∈ l ∧ y ≠ x := by
  by_cases hy : y = x
  · subst hy
    have hzero : (l.erase y).count y = 0 := by
      rw [List.count_erase_self]
      omega
    simpa using List.count_eq_zero.mp hzero
  · simp [List.mem_erase_of_ne hy, hy]

/-- The table holds the regions of the mappings from its candidates. -/
theorem TrackedCalls.mem_live_iff (h : TrackedCalls calls) {r : PMRegion} :
    r ∈ (PmHistory.ofCalls calls).live ↔
      ∃ addr size, Mapped IsCandidate calls addr size ∧ r = .ofSize addr size := by
  induction calls using List.reverseRecOn generalizing r with
  | nil =>
    refine iff_of_false List.not_mem_nil fun hmapped => ?_
    obtain ⟨addr, size, hmapped, -⟩ := hmapped
    exact not_since_nil hmapped
  | append_singleton calls call ih =>
    obtain ⟨hcalls, hspace, hone⟩ := h.of_append_singleton
    have hmem := ih hcalls (r := r)
    simp only [PmHistory.ofCalls_append_singleton, mapped_append_singleton]
    cases call with
    | openFile path fd =>
      simp only [PmHistory.step]
      split_ifs
      · simpa using hmem
      · simpa using hmem
    | closeFile fd => simpa [PmHistory.step] using hmem
    | mmap addr size fd =>
      simp only [PmHistory.step]
      split_ifs with hfd
      · rw [List.mem_append, List.mem_singleton, hmem]
        constructor
        · intro hr
          rcases hr with ⟨a, n, hmapped, rfl⟩ | rfl
          · exact ⟨a, n, Or.inr ⟨hmapped, by simp⟩, rfl⟩
          · exact ⟨addr, size, Or.inl ⟨fd, rfl, hfd⟩, rfl⟩
        · intro hr
          obtain ⟨a, n, ⟨fd', hcall, -⟩ | ⟨hmapped, -⟩, rfl⟩ := hr
          · cases hcall
            exact Or.inr rfl
          · exact Or.inl ⟨a, n, hmapped, rfl⟩
      · rw [hmem]
        constructor
        · intro hr
          obtain ⟨a, n, hmapped, rfl⟩ := hr
          exact ⟨a, n, Or.inr ⟨hmapped, by simp⟩, rfl⟩
        · intro hr
          obtain ⟨a, n, ⟨fd', hcall, hfd'⟩ | ⟨hmapped, -⟩, rfl⟩ := hr
          · cases hcall
            exact absurd hfd' hfd
          · exact ⟨a, n, hmapped, rfl⟩
    | munmap addr size =>
      have hle : (PmHistory.ofCalls calls).live.count (.ofSize addr size) ≤ 1 :=
        (hcalls.count_live_le hspace.2).trans_eq hone
      simp only [PmHistory.step]
      rw [mem_erase_of_count_le_one hle, hmem]
      constructor
      · intro hr
        obtain ⟨⟨a, n, hmapped, rfl⟩, hne⟩ := hr
        refine ⟨a, n, Or.inr ⟨hmapped, fun hcall => hne ?_⟩, rfl⟩
        cases hcall
        rfl
      · intro hr
        obtain ⟨a, n, ⟨fd', hcall, -⟩ | ⟨hmapped, hne⟩, rfl⟩ := hr
        · cases hcall
        · refine ⟨⟨a, n, hmapped, rfl⟩, fun heq => hne ?_⟩
          have hn := (Mapped.inSpace hmapped hcalls.inSpace).2
          obtain ⟨rfl, rfl⟩ := (PMRegion.ofSize_inj hn hspace.2).mp heq
          rfl
    | isPmAddress a => simpa [PmHistory.step] using hmem

end Live

section Answers

variable {calls : List RegionCall} {a : ℕ}

theorem mapped_isCandidate_iff {addr size : ℕ} : Mapped IsCandidate calls addr size ↔
    Mapped RegisteredAt calls addr size ∨ Mapped IsStaleCandidate calls addr size := by
  unfold Mapped
  rw [← since_or]
  have hstarts : ∀ pre call, (∃ fd, call = mmap addr size fd ∧ IsCandidate pre fd) ↔
      (∃ fd, call = mmap addr size fd ∧ RegisteredAt pre fd) ∨
        ∃ fd, call = mmap addr size fd ∧ IsStaleCandidate pre fd := by
    intro pre call
    rw [← exists_or]
    refine exists_congr fun fd => ?_
    have hmem : RegisteredAt pre fd → IsCandidate pre fd := RegisteredAt.isCandidate
    unfold IsStaleCandidate
    tauto
  simp only [hstarts]

/-- What a query meets: a mapping that ends within the address space, or a stale region. -/
theorem TrackedCalls.meets_iff (h : TrackedCalls calls) :
    (PmHistory.ofCalls calls).Meets a ↔
      (∃ addr size, Mapped RegisteredAt calls addr size ∧ addr ≤ a ∧ a < addr + size ∧
        addr + size < 2 ^ 64) ∨ StaleAt calls a := by
  have hcontains : ∀ {addr size}, Mapped RegisteredAt calls addr size →
      ((PMRegion.ofSize addr size).contains a = true ↔
        addr ≤ a ∧ a < addr + size ∧ addr + size < 2 ^ 64) := by
    intro addr size hmapped
    obtain ⟨ha, hn⟩ := Mapped.inSpace hmapped h.inSpace
    exact PMRegion.contains_ofSize ha hn a
  constructor
  · intro hmeets
    obtain ⟨r, hr, ha⟩ := hmeets
    by_cases hlive : r ∈ (PmHistory.ofCalls calls).live
    · obtain ⟨addr, size, hmapped, rfl⟩ := h.mem_live_iff.mp hlive
      rcases mapped_isCandidate_iff.mp hmapped with hreg | hstale
      · exact Or.inl ⟨addr, size, hreg, (hcontains hreg).mp ha⟩
      · exact Or.inr (Or.inr ⟨addr, size, hstale, ha⟩)
    · exact Or.inr (Or.inl ⟨r, hr.resolve_left hlive, hlive, ha⟩)
  · intro hmeets
    rcases hmeets with ⟨addr, size, hreg, ha⟩ | ⟨r, hr, -, ha⟩ | ⟨addr, size, hstale, ha⟩
    · have hmapped := mapped_isCandidate_iff.mpr (Or.inl hreg)
      exact ⟨_, Or.inl (h.mem_live_iff.mpr ⟨addr, size, hmapped, rfl⟩), (hcontains hreg).mpr ha⟩
    · exact ⟨r, Or.inr hr, ha⟩
    · have hmapped := mapped_isCandidate_iff.mpr (Or.inr hstale)
      exact ⟨_, Or.inl (h.mem_live_iff.mpr ⟨addr, size, hmapped, rfl⟩), ha⟩

/-- The address is met exactly if it is mapped from a registered file, up to stale regions and
mappings that are cut. -/
theorem TrackedCalls.meets_iff_inPmMapping (h : TrackedCalls calls) :
    ((PmHistory.ofCalls calls).Meets a ↔ InPmMapping calls a) ↔
      (StaleAt calls a → InPmMapping calls a) ∧ (CutAt calls a → StaleAt calls a) := by
  rw [h.meets_iff]
  constructor
  · intro hiff
    refine ⟨fun hstale => hiff.mp (Or.inr hstale), fun hcut => ?_⟩
    rcases hiff.mpr hcut.1 with ⟨addr, size, hmapped, ha, hlt, hend⟩ | hstale
    · exact absurd hend (hcut.2 addr size hmapped ha hlt).not_gt
    · exact hstale
  · intro hcond
    constructor
    · intro hmet
      rcases hmet with ⟨addr, size, hmapped, ha, hlt, -⟩ | hstale
      · exact ⟨addr, size, hmapped, ha, hlt⟩
      · exact hcond.1 hstale
    · intro hin
      by_cases hcut : CutAt calls a
      · exact Or.inr (hcond.2 hcut)
      · unfold CutAt at hcut
        push Not at hcut
        exact Or.inl (hcut hin)

/-- Addresses are taken for persistent memory exactly when they are mapped from registered files,
as long as the stale regions contain no other address and no mapping is cut. -/
theorem pm_address_exact_iff (h : TrackedCalls calls) :
    (∃ s, run calls = some s ∧
      ∀ a < 2 ^ 64, ∃ b, s.isPmAddress a = some b ∧ (b = true ↔ InPmMapping calls a)) ↔
    ∀ a < 2 ^ 64, (StaleAt calls a → InPmMapping calls a) ∧ (CutAt calls a → StaleAt calls a) := by
  classical
  obtain ⟨s, hrun, hs⟩ := (run_spec calls).1 h.tablesSuffice
  have hanswer : ∀ a, s.isPmAddress a = some (decide ((PmHistory.ofCalls calls).Meets a)) := by
    intro a
    rw [hs.isPmAddress_eq, if_pos h.recorded]
    split_ifs with hm
    · simp [hm]
    · simp [hm]
  simp only [hrun, Option.some.injEq, exists_eq_left', hanswer, decide_eq_true_eq]
  refine forall_congr' fun a => forall_congr' fun _ => ?_
  exact h.meets_iff_inPmMapping

end Answers

section Unmapped

/-- A pool of one page. -/
def pagePool : List RegionCall := [.openFile pmPoolPathPattern 3, .mmap 4096 4096 3]

theorem trackedCalls_pagePool : TrackedCalls pagePool where
  opened := by decide
  recorded := by decide
  inSpace := by simp [pagePool, InSpace]
  unmapsOne := by
    have hopen : ∀ pre call post, [openFile pmPoolPathPattern 3] = pre ++ call :: post →
        UnmapsOne pre call :=
      forall_split_append_singleton (l := []).mpr ⟨by simp, trivial⟩
    exact forall_split_append_singleton (y := mmap 4096 4096 3).mpr ⟨hopen, trivial⟩

/-- A second page is mapped from the pool and unmapped. -/
def twoPages : List RegionCall := pagePool ++ [.mmap 8192 4096 3] ++ [.munmap 8192 4096]

theorem trackedCalls_twoPages : TrackedCalls twoPages where
  opened := by decide
  recorded := by decide
  inSpace := by simp [twoPages, pagePool, InSpace]
  unmapsOne := forall_split_append_singleton.mpr
    ⟨forall_split_append_singleton.mpr ⟨trackedCalls_pagePool.unmapsOne, trivial⟩,
      by simp [UnmapsOne, pagePool, mappings]⟩

/-- What is mapped in the end was mapped first, from a descriptor that was open. -/
theorem mapped_twoPages {registered : List RegionCall → ℤ → Prop} {addr size : ℕ}
    (h : Mapped registered twoPages addr size) :
    addr = 4096 ∧ size = 4096 ∧ registered [.openFile pmPoolPathPattern 3] 3 := by
  have hsplit : twoPages = [] ++ [openFile pmPoolPathPattern 3] ++ [mmap 4096 4096 3] ++
      [mmap 8192 4096 3] ++ [munmap 8192 4096] := rfl
  unfold Mapped at h
  simp only [hsplit, since_append_singleton] at h
  rcases h with ⟨_, ⟨⟩, -⟩ | ⟨⟨fd, hcall, -⟩ | ⟨⟨fd, hcall, hreg⟩ | ⟨h, -⟩, -⟩, hkeep⟩
  · cases hcall
    exact absurd rfl hkeep
  · cases hcall
    exact ⟨rfl, rfl, hreg⟩
  · rcases h with ⟨_, ⟨⟩, -⟩ | ⟨h, -⟩
    exact absurd h not_since_nil

theorem pm_address_exact_twoPages : ∃ s, run twoPages = some s ∧
    ∀ a < 2 ^ 64, ∃ b, s.isPmAddress a = some b ∧ (b = true ↔ InPmMapping twoPages a) := by
  have hregistered : RegisteredAt [openFile pmPoolPathPattern 3] 3 :=
    ⟨[], _, [], rfl, ⟨_, rfl, List.infix_rfl⟩, by simp⟩
  refine (pm_address_exact_iff trackedCalls_twoPages).mpr fun a ha => ⟨?_, ?_⟩
  · rintro (⟨r, hr, hlive, -⟩ | ⟨addr, size, hstale, -⟩)
    · refine absurd ?_ hlive
      obtain rfl : PMRegion.ofSize 4096 4096 = r := Option.some.inj hr
      decide
    · exact absurd hregistered (mapped_twoPages hstale).2.2.2
  · rintro ⟨⟨addr, size, hin, hle, hlt⟩, hcut⟩
    obtain ⟨rfl, rfl, -⟩ := mapped_twoPages hin
    exact absurd (hcut _ _ hin hle hlt) (by decide)

theorem trackedCalls_unmapped : TrackedCalls (pagePool ++ [.munmap 4096 4096]) where
  opened := by decide
  recorded := by decide
  inSpace := by simp [pagePool, InSpace]
  unmapsOne := forall_split_append_singleton.mpr
    ⟨trackedCalls_pagePool.unmapsOne, by simp [UnmapsOne, pagePool, mappings]⟩

/-- The first region is still met after its removal. -/
theorem unmapped_region_met : ¬ ∀ calls, TrackedCalls calls → ∃ s, run calls = some s ∧
    ∀ a < 2 ^ 64, ∃ b, s.isPmAddress a = some b ∧ (b = true ↔ InPmMapping calls a) := by
  intro h
  obtain ⟨s, hrun, hs⟩ := h _ trackedCalls_unmapped
  obtain ⟨b, hb, hiff⟩ := hs 4096 (by decide)
  have hmet : (run (pagePool ++ [.munmap 4096 4096])).bind (·.isPmAddress 4096) = some true := by
    decide
  rw [hrun, Option.bind_some, hb, Option.some.injEq] at hmet
  obtain ⟨addr, size, hmapped, -⟩ := hiff.mp hmet
  have hlive := trackedCalls_unmapped.mem_live_iff.mpr
    ⟨addr, size, mapped_isCandidate_iff.mpr (Or.inl hmapped), rfl⟩
  have hnone : (PmHistory.ofCalls (pagePool ++ [.munmap 4096 4096])).live = [] := by decide
  rw [hnone] at hlive
  exact List.not_mem_nil hlive

end Unmapped

end Prd.Runtime
