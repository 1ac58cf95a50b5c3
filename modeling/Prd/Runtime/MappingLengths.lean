import Prd.Runtime.PmRegions

/-!
# Lengths of mappings behind the hooks

The interceptors take lengths of 64 bits and pass on their low halves. Next to the tables
runs the list of what was mapped, with the full lengths: its entries are those of the slots.
-/
namespace Prd.Runtime

namespace Cprd

/-- The part of the interceptor after the call, which gave an address unless it failed. The size
is converted to 32 bits. -/
def mmapInterceptor (s : Cprd) (res : Option ℕ) (sz : ℕ) (fd : ℤ) : Option Cprd :=
  match res with
  | none => some s
  | some p => if fd > 0 then s.handleMmap p (sz % 2 ^ 32) fd else some s

def munmapInterceptor (s : Cprd) (addr sz : ℕ) (res : ℤ) : Option Cprd :=
  if res = 0 then s.handleMunmap addr (sz % 2 ^ 32) else some s

end Cprd

inductive HookCall
  | openFile (path : List Char) (fd : ℤ)
  | closeFile (fd : ℤ)
  | mmap (res : Option ℕ) (sz : ℕ) (fd : ℤ)
  | munmap (addr sz : ℕ) (res : ℤ)
  deriving DecidableEq

namespace HookCall

def apply (s : Cprd) : HookCall → Option Cprd
  | openFile path fd => s.handleOpenFile path fd
  | closeFile fd => s.handleCloseFile fd
  | mmap res sz fd => s.mmapInterceptor res sz fd
  | munmap addr sz res => s.munmapInterceptor addr sz res

/-- The bounds of what the call mapped. -/
def mapped : HookCall → List (ℕ × ℕ)
  | mmap (some p) sz _ => [(p, sz)]
  | _ => []

end HookCall

/-- The tables, and the address and the full length that were mapped for each slot of regions. -/
structure MappedCprd where
  cprd : Cprd
  bounds : List (ℕ × ℕ)

namespace MappedCprd

def new : MappedCprd := ⟨.new, []⟩

/-- The call, after which the list of bounds is longer if the table is. -/
def apply (t : MappedCprd) (call : HookCall) : Option MappedCprd := do
  let s ← call.apply t.cprd
  some ⟨s, if s.pmRegions.count = t.cprd.pmRegions.count then t.bounds else t.bounds ++ call.mapped⟩

def run (t : MappedCprd) (calls : List HookCall) : Option MappedCprd := calls.foldlM apply t

/-- The slot is valid and belongs to a mapping of these bounds. -/
def HasAt (t : MappedCprd) (i p sz : ℕ) : Prop :=
  t.bounds[i]? = some (p, sz) ∧ t.cprd.pmRegions.items[i]?.map Item.valid = some true

/-- The call that unmaps removes one region, and this is one with the bounds. -/
def RemovesOnly (t : MappedCprd) (p sz : ℕ) : Prop :=
  ∃ i, t.HasAt i p sz ∧
    t.cprd.munmapInterceptor p sz 0 = some
    { t.cprd with pmRegions := t.cprd.pmRegions.invalidate i }

/-- The region is there, and no other one before it has its address and the low half of its
length. -/
def FirstAt (t : MappedCprd) (p sz : ℕ) : Prop :=
  ∃ i, t.HasAt i p sz ∧ ∀ j < i, ∀ n, t.HasAt j p n → n % 2 ^ 32 ≠ sz % 2 ^ 32

/-- The slots hold the low halves of the lengths. -/
def Recorded (t : MappedCprd) : Prop :=
  t.cprd.pmRegions.items.map Item.data = t.bounds.map fun b => .ofSize b.1 (b.2 % 2 ^ 32)

end MappedCprd

section Hooks

variable {s s' : Cprd} {p sz : ℕ} {fd : ℤ}

theorem handleMmap_cases {addr size : ℕ} (h : s.handleMmap addr size fd = some s') :
    s' = s ∨ fd ∈ s.pmPoolCandidates.contents ∧ s.pmRegions.count < pmPoolCandMax ∧
      s'.pmRegions.items = s.pmRegions.items ++ [⟨true, .ofSize addr size⟩] := by
  unfold Cprd.handleMmap at h
  rw [SlotArray.contains_eq, Option.bind_eq_bind, Option.bind_some] at h
  split_ifs at h with hfd
  · by_cases hlt : s.pmRegions.count < pmPoolCandMax
    · obtain ⟨arr', harr, hitems⟩ := SlotArray.pushBack_spec hlt (PMRegion.ofSize addr size)
      rw [harr] at h
      obtain rfl := Option.some.inj h
      exact Or.inr ⟨of_decide_eq_true hfd, hlt, hitems⟩
    · rw [SlotArray.pushBack_eq_none hlt] at h
      cases h
  · exact Or.inl (Option.some.inj h).symm

/-- A call leaves the data of the slots, or it maps and there is one more. -/
theorem HookCall.apply_cases {call : HookCall} (h : call.apply s = some s') :
    s'.pmRegions.items.map Item.data = s.pmRegions.items.map Item.data ∨
      ∃ p sz fd, call = mmap (some p) sz fd ∧
        s'.pmRegions.items = s.pmRegions.items ++ [⟨true, .ofSize p (sz % 2 ^ 32)⟩] := by
  cases call with
  | openFile path fd =>
    simp only [apply, Cprd.handleOpenFile] at h
    split_ifs at h
    · obtain ⟨arr, -, hs⟩ := Option.bind_eq_some_iff.mp h
      obtain rfl := Option.some.inj hs
      exact Or.inl rfl
    · obtain rfl := Option.some.inj h
      exact Or.inl rfl
  | closeFile fd =>
    obtain ⟨arr, -, hs⟩ := Option.bind_eq_some_iff.mp h
    obtain rfl := Option.some.inj hs
    exact Or.inl rfl
  | mmap res sz fd =>
    cases res with
    | none =>
      obtain rfl := Option.some.inj h
      exact Or.inl rfl
    | some p =>
      simp only [apply, Cprd.mmapInterceptor] at h
      split_ifs at h
      · rcases handleMmap_cases h with rfl | ⟨-, -, hitems⟩
        · exact Or.inl rfl
        · exact Or.inr ⟨p, sz, fd, rfl, hitems⟩
      · obtain rfl := Option.some.inj h
        exact Or.inl rfl
  | munmap addr sz res =>
    simp only [apply, Cprd.munmapInterceptor] at h
    split_ifs at h
    · obtain ⟨⟨b, arr⟩, harr, hs⟩ := Option.bind_eq_some_iff.mp h
      obtain rfl := Option.some.inj hs
      exact Or.inl (SlotArray.data_remove harr)
    · obtain rfl := Option.some.inj h
      exact Or.inl rfl

end Hooks

namespace MappedCprd

variable {t u : MappedCprd} {call : HookCall} {p sz : ℕ}

theorem recorded_new : new.Recorded := rfl

theorem Recorded.apply (ht : t.Recorded) (h : t.apply call = some u) : u.Recorded := by
  obtain ⟨s, hs, hu⟩ := Option.bind_eq_some_iff.mp h
  obtain rfl := Option.some.inj hu
  unfold Recorded at ht ⊢
  dsimp only
  rcases HookCall.apply_cases hs with hdata | ⟨p, sz, fd, rfl, hitems⟩
  · have hcount : s.pmRegions.count = t.cprd.pmRegions.count := by
      simpa [SlotArray.count] using congrArg List.length hdata
    rw [if_pos hcount, hdata, ht]
  · have hcount : s.pmRegions.count ≠ t.cprd.pmRegions.count := by
      simp [SlotArray.count, hitems]
    rw [if_neg hcount, hitems, List.map_append, ht, List.map_append]
    rfl

/-- In every run the slots hold the low halves of what was mapped. -/
theorem Recorded.run (ht : t.Recorded) {calls : List HookCall} (h : t.run calls = some u) :
    u.Recorded := by
  unfold MappedCprd.run at h
  induction calls generalizing t with
  | nil =>
    obtain rfl := Option.some.inj h
    exact ht
  | cons call calls ih =>
    rw [List.foldlM_cons] at h
    obtain ⟨t', ht', hu⟩ := Option.bind_eq_some_iff.mp h
    exact ih (ht.apply ht') hu

/-- The region of the slot is that of the mapping. -/
theorem Recorded.item (ht : t.Recorded) {i : ℕ} (h : t.HasAt i p sz) :
    t.cprd.pmRegions.items[i]? = some ⟨true, .ofSize p (sz % 2 ^ 32)⟩ := by
  obtain ⟨hb, hv⟩ := h
  have hdata := congrArg (·[i]?) ht
  simp only [List.getElem?_map, hb, Option.map_some] at hdata
  obtain ⟨item, hitem, hvalid⟩ := Option.map_eq_some_iff.mp hv
  rw [hitem, Option.map_some, Option.some.injEq] at hdata
  rw [hitem, ← hvalid, ← hdata]

/-- A valid slot with the region belongs to a mapping at its address with the low half of its
length. -/
theorem Recorded.exists_hasAt (ht : t.Recorded) {i : ℕ}
    (h : t.cprd.pmRegions.items[i]? = some ⟨true, .ofSize p (sz % 2 ^ 32)⟩) :
    ∃ n, t.HasAt i p n ∧ n % 2 ^ 32 = sz % 2 ^ 32 := by
  have hdata := congrArg (·[i]?) ht
  simp only [List.getElem?_map, h, Option.map_some] at hdata
  obtain ⟨⟨p', n⟩, hb, hr⟩ := Option.map_eq_some_iff.mp hdata.symm
  obtain ⟨rfl, hn⟩ :=
    (PMRegion.ofSize_inj (Nat.mod_lt _ (by decide)) (Nat.mod_lt _ (by decide))).mp hr
  refine ⟨n, ⟨hb, ?_⟩, hn⟩
  rw [h]
  rfl

/-- A region is found by its bounds: the call removes the first one with its address and the low
half of its length. -/
theorem Recorded.removesOnly_iff (ht : t.Recorded) : t.RemovesOnly p sz ↔ t.FirstAt p sz := by
  have hunmap : t.cprd.munmapInterceptor p sz 0 =
      (t.cprd.pmRegions.remove (.ofSize p (sz % 2 ^ 32))).bind fun r =>
        some { t.cprd with pmRegions := r.2 } := rfl
  unfold RemovesOnly FirstAt
  rw [hunmap, SlotArray.remove_eq]
  refine exists_congr fun i => and_congr_right fun hi => ?_
  have hitem := ht.item hi
  have hfound : (t.cprd.pmRegions.items.findIdx? fun item =>
      item.valid = true ∧ item.data = .ofSize p (sz % 2 ^ 32)) = some i ↔
      ∀ j < i, ∀ n, t.HasAt j p n → n % 2 ^ 32 ≠ sz % 2 ^ 32 := by
    rw [SlotArray.findIdx?_eq_some_iff, and_iff_right hitem]
    refine forall_congr' fun j => forall_congr' fun _ => ?_
    constructor
    · intro hj n hn hmod
      apply hj
      rw [ht.item hn, hmod]
    · intro hj hjv
      obtain ⟨n, hn, hmod⟩ := ht.exists_hasAt hjv
      exact hj n hn hmod
  rw [← hfound]
  constructor
  · intro h
    -- The slot that was valid tells which one was removed.
    have hslot := congrArg (fun s => s.bind (·.pmRegions.items[i]?)) h
    simp only [Option.bind_some, SlotArray.getElem?_invalidate, hitem] at hslot
    cases hk : t.cprd.pmRegions.items.findIdx? fun item =>
        item.valid = true ∧ item.data = .ofSize p (sz % 2 ^ 32) with
    | none =>
      rw [hk] at hslot
      simp [hitem] at hslot
    | some k =>
      rw [hk] at hslot
      by_cases hki : k = i
      · rw [hki]
      · simp [SlotArray.getElem?_invalidate, hki, hitem] at hslot
  · intro h
    rw [h]
    rfl

end MappedCprd

/-- What the hooks are to do with a length: the region recorded is that of the mapping, and the
call that unmaps it removes it and no region of another length. -/
def LengthSurvives (t : MappedCprd) (p sz : ℕ) (fd : ℤ) (between : List HookCall) : Prop :=
  (∃ s r, t.cprd.mmapInterceptor (some p) sz fd = some s ∧
    s.pmRegions.items = t.cprd.pmRegions.items ++ [⟨true, r⟩] ∧
      ∀ a, r.contains a = true ↔ p ≤ a ∧ a < p + sz) ∧
  ∀ u, t.run (.mmap (some p) sz fd :: between) = some u → u.RemovesOnly p sz

section Lengths

variable {t : MappedCprd} {p sz : ℕ} {fd : ℤ}

/-- The recorded region is the mapped one for positive descriptors and lengths of 32 bits, as long
as there is a slot. -/
theorem recordsExactly_iff (hfd : fd ∈ t.cprd.pmPoolCandidates.contents) (hp : p + sz < 2 ^ 64) :
    (∃ s r, t.cprd.mmapInterceptor (some p) sz fd = some s ∧
      s.pmRegions.items = t.cprd.pmRegions.items ++ [⟨true, r⟩] ∧
        ∀ a, r.contains a = true ↔ p ≤ a ∧ a < p + sz) ↔
      0 < fd ∧ sz < 2 ^ 32 ∧ t.cprd.pmRegions.count < pmPoolCandMax := by
  have hmod : sz % 2 ^ 32 < 2 ^ 32 := Nat.mod_lt _ (by decide)
  have hcontains := PMRegion.contains_ofSize (Nat.lt_of_le_of_lt (Nat.le_add_right p sz) hp) hmod
  constructor
  · intro h
    obtain ⟨s, r, hs, hitems, hr⟩ := h
    unfold Cprd.mmapInterceptor at hs
    split_ifs at hs with hpos
    · rcases handleMmap_cases hs with rfl | ⟨-, hlt, hitems'⟩
      · simp at hitems
      · rw [hitems', List.append_cancel_left_eq, List.singleton_inj, Item.mk.injEq] at hitems
        obtain ⟨-, rfl⟩ := hitems
        have hend := (hcontains (p + sz % 2 ^ 32)).symm.trans (hr (p + sz % 2 ^ 32))
        exact ⟨hpos, by omega, hlt⟩
    · obtain rfl := Option.some.inj hs
      simp at hitems
  · intro h
    obtain ⟨hpos, hsz, hlt⟩ := h
    obtain ⟨arr', harr, hitems⟩ :=
      SlotArray.pushBack_spec hlt (PMRegion.ofSize p (sz % 2 ^ 32))
    refine ⟨{ t.cprd with pmRegions := arr' }, .ofSize p (sz % 2 ^ 32), ?_, hitems, fun a => ?_⟩
    · unfold Cprd.mmapInterceptor Cprd.handleMmap
      simp only [gt_iff_lt, hpos, if_true, SlotArray.contains_eq, hfd, harr, decide_true,
        Option.bind_eq_bind, Option.bind_some]
    · rw [hcontains, Nat.mod_eq_of_lt hsz]
      omega

/-- Lengths survive the hooks up to 32 bits, as long as there is a slot and no region before has
the same low half. -/
theorem length_survives_iff {before between : List HookCall}
    (ht : MappedCprd.new.run before = some t) (hfd : fd ∈ t.cprd.pmPoolCandidates.contents)
    (hp : p + sz < 2 ^ 64) :
    LengthSurvives t p sz fd between ↔
      (0 < fd ∧ sz < 2 ^ 32 ∧ t.cprd.pmRegions.count < pmPoolCandMax) ∧
        ∀ u, t.run (.mmap (some p) sz fd :: between) = some u → u.FirstAt p sz := by
  have hrec := MappedCprd.recorded_new.run ht
  refine and_congr (recordsExactly_iff hfd hp) (forall_congr' fun u => forall_congr' fun hu => ?_)
  exact (hrec.run hu).removesOnly_iff

/-- A pool that is registered but not mapped yet. -/
def openPool : List HookCall := [.openFile pmPoolPathPattern 3]

theorem exists_run_openPool : ∃ t, MappedCprd.new.run openPool = some t ∧
    t.cprd.pmPoolCandidates.contents = [3] ∧ t.cprd.pmRegions.count = 0 := by
  have hrun : (MappedCprd.new.run openPool).map
      (fun t => (t.cprd.pmPoolCandidates.contents, t.cprd.pmRegions.count)) = some ([3], 0) := by
    decide
  obtain ⟨t, ht, heq⟩ := Option.map_eq_some_iff.mp hrun
  rw [Prod.mk.injEq] at heq
  exact ⟨t, ht, heq.1, heq.2⟩

/-- A page that is mapped from the pool survives. -/
theorem length_survives_page : ∃ t, MappedCprd.new.run openPool = some t ∧
    (LengthSurvives t 4096 4096 3 [] ↔
      ((0 : ℤ) < 3 ∧ 4096 < 2 ^ 32 ∧ t.cprd.pmRegions.count < pmPoolCandMax) ∧
        ∀ u, t.run [.mmap (some 4096) 4096 3] = some u → u.FirstAt 4096 4096) := by
  obtain ⟨t, ht, hfd, -⟩ := exists_run_openPool
  exact ⟨t, ht, length_survives_iff ht (by simp [hfd]) (by decide)⟩

/-- Of a pool of a page more than 4 GiB one page is recorded. -/
theorem large_pool_cut : ¬ ∀ before between t p sz fd, MappedCprd.new.run before = some t →
    fd ∈ t.cprd.pmPoolCandidates.contents → p + sz < 2 ^ 64 → LengthSurvives t p sz fd between := by
  intro h
  obtain ⟨t, ht, hfd, -⟩ := exists_run_openPool
  have hmem : 3 ∈ t.cprd.pmPoolCandidates.contents := by simp [hfd]
  have hlt : 4096 + (2 ^ 32 + 4096) < 2 ^ 64 := by decide
  obtain ⟨-, hsz, -⟩ := (recordsExactly_iff hmem hlt).mp (h openPool [] t _ _ 3 ht hmem hlt).1
  omega

end Lengths

end Prd.Runtime
