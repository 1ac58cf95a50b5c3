import Mathlib.Data.List.Basic
import Mathlib.Logic.Function.Basic
import Prd.Runtime.PendingReads

/-!
# Unions of labels

The union of two labels is a label of its own, which is made once and looked up afterwards. Every
byte of the memory has a label, and the label of a piece of memory is the union of those of its
bytes.
-/
namespace Prd.Runtime

/-- The labels that were created, the table of their unions, and the labels of the memory. -/
structure Dfsan where
  table : LabelTable
  unionTable : DfsanLabel → DfsanLabel → DfsanLabel
  shadow : ℕ → DfsanLabel

namespace Dfsan

def new : Dfsan := ⟨[⟨0, 0⟩], fun _ _ => 0, fun _ => 0⟩

def lastLabel (d : Dfsan) : DfsanLabel := d.table.length - 1

/-- The entries of the labels that were not created are zero. -/
def labelInfo (d : Dfsan) (label : DfsanLabel) : DfsanLabelInfo := d.table[label]?.getD ⟨0, 0⟩

def createLabel (d : Dfsan) : Option (DfsanLabel × Dfsan) := do
  let (label, table) ← dfsanCreateLabel d.table
  pure (label, { d with table := table })

def setUnion (d : Dfsan) (l1 l2 label : DfsanLabel) : Dfsan :=
  { d with
    unionTable := Function.update d.unionTable l1 (Function.update (d.unionTable l1) l2 label) }

/-- The part of `__dfsan_union` that works on the entry of the table, for the
smaller label first. -/
def unionEntry (d : Dfsan) (l1 l2 : DfsanLabel) : Option (DfsanLabel × Dfsan) :=
  if d.unionTable l1 l2 ≠ 0 then some (d.unionTable l1 l2, d)
  else if (d.labelInfo l2).l1 = l1 ∨ (d.labelInfo l2).l2 = l1 then some (l2, d.setUnion l1 l2 l2)
  else if d.table.length = kInitializingLabel then none
  else some (d.table.length,
    ({ d with table := d.table ++ [⟨l1, l2⟩] } : Dfsan).setUnion l1 l2 d.table.length)

/-- `__dfsan_union`. -/
def unionUnequal (d : Dfsan) (l1 l2 : DfsanLabel) : Option (DfsanLabel × Dfsan) :=
  if l1 = 0 then some (l2, d)
  else if l2 = 0 then some (l1, d)
  -- Without any labels the bits of the labels stand for themselves.
  else if d.lastLabel = 0 then some (l1 ||| l2, d)
  else if l2 < l1 then d.unionEntry l2 l1
  else d.unionEntry l1 l2

/-- `dfsan_union`. -/
def union (d : Dfsan) (l1 l2 : DfsanLabel) : Option (DfsanLabel × Dfsan) :=
  if l1 = l2 then some (l1, d) else d.unionUnequal l1 l2

/-- The loop of `__dfsan_union_load`. -/
def unionLoad (d : Dfsan) (label : DfsanLabel) : List DfsanLabel → Option (DfsanLabel × Dfsan)
  | [] => some (label, d)
  | next :: ls => do
    let (label, d) ← d.union label next
    d.unionLoad label ls

def readLabel (d : Dfsan) (addr size : ℕ) : Option (DfsanLabel × Dfsan) :=
  if size = 0 then some (0, d)
  else d.unionLoad (d.shadow addr) ((List.range' (addr + 1) (size - 1)).map d.shadow)

def setByte (d : Dfsan) (addr : ℕ) (label : DfsanLabel) : Dfsan :=
  { d with shadow := Function.update d.shadow addr label }

/-- The loop of `dfsan_add_label`. -/
def addLabel (d : Dfsan) (label : DfsanLabel) (addr : ℕ) : ℕ → Option Dfsan
  | 0 => some d
  | size + 1 => do
    let (new, d) ← d.union (d.shadow addr) label
    (d.setByte addr new).addLabel label (addr + 1) size

def setLabel (d : Dfsan) (label : DfsanLabel) (addr : ℕ) : ℕ → Dfsan
  | 0 => d
  | size + 1 => (d.setByte addr label).setLabel label (addr + 1) size

end Dfsan

/-- The label is the element, or a union that has it. -/
inductive HasLabel (table : LabelTable) (elem : DfsanLabel) : DfsanLabel → Prop
  | here : HasLabel table elem elem
  | left {label : DfsanLabel} {info : DfsanLabelInfo} (h : table[label]? = some info)
    (hne : info.l1 ≠ 0) (hl : HasLabel table elem info.l1) : HasLabel table elem label
  | right {label : DfsanLabel} {info : DfsanLabelInfo} (h : table[label]? = some info)
    (hne : info.l1 ≠ 0) (hl : HasLabel table elem info.l2) : HasLabel table elem label

/-- Unions are made of labels that were created before. -/
def Layered (table : LabelTable) : Prop :=
  ∀ (label : DfsanLabel) (info : DfsanLabelInfo), table[label]? = some info →
    (info.l1 = 0 → info.l2 = 0) ∧ (info.l1 ≠ 0 → info.l1 < label ∧ info.l2 < label)

section Tables

variable {table : LabelTable} {elem label l1 l2 : DfsanLabel} {info : DfsanLabelInfo}

theorem HasLabel.of_go : ∀ fuel label, dfsanHasLabel.go table elem fuel label = true →
    HasLabel table elem label := by
  intro fuel
  induction fuel with
  | zero =>
    intro label h
    obtain rfl : label = elem := by simpa [dfsanHasLabel.go] using h
    exact .here
  | succ fuel ih =>
    intro label h
    unfold dfsanHasLabel.go at h
    by_cases heq : label = elem
    · subst heq
      exact .here
    · cases hinfo : table[label]? with
      | none => simp [heq, hinfo] at h
      | some info =>
        by_cases hne : info.l1 = 0
        · simp [heq, hinfo, hne] at h
        · simp only [beq_iff_eq, heq, hinfo, ne_eq, hne, not_false_eq_true, if_true, if_false,
            Bool.or_eq_true] at h
          rcases h with h | h
          · exact .left hinfo hne (ih _ h)
          · exact .right hinfo hne (ih _ h)

theorem HasLabel.go (ht : Layered table) (h : HasLabel table elem label) :
    ∀ fuel, label ≤ fuel → dfsanHasLabel.go table elem fuel label = true := by
  induction h with
  | here =>
    intro fuel _
    cases fuel <;> simp [dfsanHasLabel.go]
  | @left label info hinfo hne _ ih =>
    intro fuel hle
    obtain ⟨hlt, -⟩ := (ht label info hinfo).2 hne
    cases fuel with
    | zero => exact absurd (hlt.trans_le hle) (Nat.not_lt_zero _)
    | succ fuel =>
      have hl := ih fuel (Nat.le_of_lt_succ (hlt.trans_le hle))
      unfold dfsanHasLabel.go
      simp [hinfo, hne, hl]
  | @right label info hinfo hne _ ih =>
    intro fuel hle
    obtain ⟨-, hlt⟩ := (ht label info hinfo).2 hne
    cases fuel with
    | zero => exact absurd (hlt.trans_le hle) (Nat.not_lt_zero _)
    | succ fuel =>
      have hl := ih fuel (Nat.le_of_lt_succ (hlt.trans_le hle))
      unfold dfsanHasLabel.go
      simp [hinfo, hne, hl]

theorem hasLabel_iff (ht : Layered table) : dfsanHasLabel table label elem = true ↔
    HasLabel table elem label :=
  ⟨HasLabel.of_go label label, fun h => h.go ht label le_rfl⟩

/-- What a label has does not change when labels are created. -/
theorem hasLabel_append (ht : Layered table) (hlt : label < table.length) :
    HasLabel (table ++ [info]) elem label ↔ HasLabel table elem label := by
  constructor
  · intro h
    induction h with
    | here => exact .here
    | @left label i hi hne _ ih =>
      rw [List.getElem?_append_left hlt] at hi
      exact .left hi hne (ih (((ht label i hi).2 hne).1.trans hlt))
    | @right label i hi hne _ ih =>
      rw [List.getElem?_append_left hlt] at hi
      exact .right hi hne (ih (((ht label i hi).2 hne).2.trans hlt))
  · intro h
    clear hlt
    have hget : ∀ {l : DfsanLabel} {i : DfsanLabelInfo}, table[l]? = some i →
        (table ++ [info])[l]? = some i := by
      intro l i hi
      rw [List.getElem?_append_left (List.getElem?_eq_some_iff.mp hi).1, hi]
    induction h with
    | here => exact .here
    | left hi hne _ ih => exact .left (hget hi) hne ih
    | right hi hne _ ih => exact .right (hget hi) hne ih

/-- What a union has. -/
theorem hasLabel_union (hinfo : table[label]? = some ⟨l1, l2⟩) (hne : l1 ≠ 0)
    (helem : elem ≠ label) : HasLabel table elem label ↔ HasLabel table elem l1 ∨
    HasLabel table elem l2 := by
  constructor
  · intro h
    cases h with
    | here => exact absurd rfl helem
    | left hi _ hl =>
      cases hinfo.symm.trans hi
      exact Or.inl hl
    | right hi _ hl =>
      cases hinfo.symm.trans hi
      exact Or.inr hl
  · rintro (h | h)
    · exact .left hinfo hne h
    · exact .right hinfo hne h

theorem layered_append (ht : Layered table) (hinfo : (info.l1 = 0 → info.l2 = 0) ∧
    (info.l1 ≠ 0 → info.l1 < table.length ∧ info.l2 < table.length)) : Layered
    (table ++ [info]) := by
  intro label i hi
  rcases lt_or_ge label table.length with hlt | hge
  · rw [List.getElem?_append_left hlt] at hi
    exact ht label i hi
  · rw [List.getElem?_append_right hge] at hi
    obtain ⟨hzero, rfl⟩ := List.getElem?_eq_some_iff.mp hi
    have hlabel : label = table.length :=
      Nat.le_antisymm (Nat.sub_eq_zero_iff_le.mp (Nat.lt_one_iff.mp hzero)) hge
    subst hlabel
    simpa using hinfo

end Tables

namespace Dfsan

/-- A label that was created and is no union. -/
def IsBase (d : Dfsan) (elem : DfsanLabel) : Prop := elem ≠ 0 ∧ d.table[elem]? = some ⟨0, 0⟩

/-- What the label stands for. -/
def Has (d : Dfsan) (label elem : DfsanLabel) : Prop := HasLabel d.table elem label

/-- The label is a union of the two, which has no created label that the two do not have. -/
structure IsUnion (d : Dfsan) (label l1 l2 : DfsanLabel) : Prop where
  lt : label < d.table.length
  covers : ∀ elem, elem ≠ 0 → d.Has l1 elem ∨ d.Has l2 elem → d.Has label elem
  tight : ∀ elem, d.IsBase elem → d.Has label elem → d.Has l1 elem ∨ d.Has l2 elem

/-- Unions are made of older labels, the table of unions is right, and the memory
has labels that exist. -/
structure Ok (d : Dfsan) : Prop where
  first : d.table[0]? = some ⟨0, 0⟩
  layered : Layered d.table
  unions : ∀ l1 l2, l1 < d.table.length → l2 < d.table.length → d.unionTable l1 l2 ≠ 0 →
    d.IsUnion (d.unionTable l1 l2) l1 l2
  fresh : ∀ l1 l2, d.table.length ≤ l1 ∨ d.table.length ≤ l2 → d.unionTable l1 l2 = 0
  shadow : ∀ addr, d.shadow addr < d.table.length

/-- Labels are created, and those that there are stand for what they stood for. -/
structure Grows (d d' : Dfsan) : Prop where
  table : d.table <+: d'.table
  has : ∀ label elem, label < d.table.length → (d'.Has label elem ↔ d.Has label elem)

variable {d d' d'' : Dfsan} {label l1 l2 elem : DfsanLabel} {addr size : ℕ} {info : DfsanLabelInfo}

theorem Grows.length (h : Grows d d') : d.table.length ≤ d'.table.length := h.table.length_le

theorem Grows.base (h : Grows d d') (he : d.IsBase elem) : d'.IsBase elem := by
  obtain ⟨infos, hinfos⟩ := h.table
  refine ⟨he.1, ?_⟩
  rw [← hinfos, List.getElem?_append_left (List.getElem?_eq_some_iff.mp he.2).1, he.2]

theorem Grows.refl (d : Dfsan) : Grows d d := ⟨List.prefix_rfl, fun _ _ _ => Iff.rfl⟩

theorem Grows.trans (h : Grows d d') (h' : Grows d' d'') : Grows d d'' :=
  ⟨h.table.trans h'.table, fun l e hl => (h'.has l e (hl.trans_le h.length)).trans (h.has l e hl)⟩

theorem Ok.pos (h : d.Ok) : 0 < d.table.length := (List.getElem?_eq_some_iff.mp h.first).1

theorem not_has_zero (h : d.Ok) (he : elem ≠ 0) : ¬ d.Has 0 elem := by
  intro hhas
  cases hhas with
  | here => exact he rfl
  | left hi hne _ =>
    cases h.first.symm.trans hi
    exact hne rfl
  | right hi hne _ =>
    cases h.first.symm.trans hi
    exact hne rfl

/-- A union of old labels is one in a state with more labels. -/
theorem IsUnion.grows (h : d.IsUnion label l1 l2) (hg : Grows d d') (hl1 : l1 < d.table.length)
    (hl2 : l2 < d.table.length) (hbase : ∀ elem, d'.IsBase elem → elem < d.table.length →
      d.IsBase elem)
    (hnew : ∀ elem l, d'.IsBase elem → d.table.length ≤ elem →
      l < d.table.length → ¬ d'.Has l elem) :
    d'.IsUnion label l1 l2 := by
  refine ⟨h.lt.trans_le hg.length, fun elem he => ?_, fun elem he hhas => ?_⟩
  · rw [hg.has _ _ h.lt, hg.has _ _ hl1, hg.has _ _ hl2]
    exact h.covers elem he
  · rcases lt_or_ge elem d.table.length with hlt | hge
    · rw [hg.has _ _ hl1, hg.has _ _ hl2]
      exact h.tight elem (hbase elem he hlt) ((hg.has _ _ h.lt).mp hhas)
    · exact absurd hhas (hnew elem _ he hge h.lt)

/-- An old label does not have a new one. -/
theorem HasLabel.le {table : LabelTable} (ht : Layered table) (h : HasLabel table elem label) :
    elem ≤ label := by
  induction h with
  | here => exact le_rfl
  | left hi hne _ ih => exact ih.trans ((ht _ _ hi).2 hne).1.le
  | right hi hne _ ih => exact ih.trans ((ht _ _ hi).2 hne).2.le

/-- The state with one more label. -/
def push (d : Dfsan) (info : DfsanLabelInfo) : Dfsan := { d with table := d.table ++ [info] }

theorem layered_push (h : d.Ok) (hinfo : (info.l1 = 0 → info.l2 = 0) ∧
    (info.l1 ≠ 0 → info.l1 < d.table.length ∧ info.l2 < d.table.length)) : Layered
    (d.push info).table :=
  layered_append h.layered hinfo

theorem grows_push (h : d.Ok) : Grows d (d.push info) where
  table := List.prefix_append _ _
  has := fun _ _ hl => hasLabel_append h.layered hl

theorem Ok.push (h : d.Ok) (hinfo : (info.l1 = 0 → info.l2 = 0) ∧
    (info.l1 ≠ 0 → info.l1 < d.table.length ∧ info.l2 < d.table.length)) : (d.push info).Ok := by
  have hlayered := layered_push h hinfo
  have hg : Grows d (d.push info) := grows_push h
  refine ⟨?_, hlayered, fun a b ha hb hne => ?_, fun a b hab => ?_, fun addr => ?_⟩
  · simp only [Dfsan.push, List.getElem?_append_left h.pos]
    exact h.first
  · have ha' : a < d.table.length := by
      by_contra hno
      exact hne (h.fresh a b (Or.inl (not_lt.mp hno)))
    have hb' : b < d.table.length := by
      by_contra hno
      exact hne (h.fresh a b (Or.inr (not_lt.mp hno)))
    refine (h.unions a b ha' hb' hne).grows hg ha' hb' (fun elem he hlt => ⟨he.1, ?_⟩)
      fun elem l _ hge hl hhas => ?_
    · have hinfo := he.2
      simp only [Dfsan.push, List.getElem?_append_left hlt] at hinfo
      exact hinfo
    · exact absurd (hge.trans (HasLabel.le hlayered hhas)) (not_le.mpr hl)
  · refine h.fresh a b ?_
    rcases hab with hab | hab
    · exact Or.inl (hg.length.trans hab)
    · exact Or.inr (hg.length.trans hab)
  · exact (h.shadow addr).trans_le hg.length

theorem grows_setUnion (a b c : DfsanLabel) : Grows d (d.setUnion a b c) :=
  ⟨List.prefix_rfl, fun _ _ _ => Iff.rfl⟩

theorem IsUnion.setUnion {a b c : DfsanLabel} (h : d.IsUnion label l1 l2) :
    (d.setUnion a b c).IsUnion label l1 l2 := ⟨h.lt, h.covers, h.tight⟩

/-- The entry of two labels is filled in. -/
theorem Ok.setUnion (h : d.Ok) (hl1 : l1 < d.table.length) (hl2 : l2 < d.table.length)
    (hunion : d.IsUnion label l1 l2) : (d.setUnion l1 l2 label).Ok := by
  have hget : ∀ a b, (d.setUnion l1 l2 label).unionTable a b =
      if a = l1 ∧ b = l2 then label else d.unionTable a b := by
    intro a b
    unfold Dfsan.setUnion
    by_cases ha : a = l1
    · subst ha
      by_cases hb : b = l2
      · subst hb
        simp
      · simp [hb]
    · simp [ha]
  refine ⟨h.first, h.layered, fun a b ha hb hne => ?_, fun a b hab => ?_, h.shadow⟩
  · rw [hget] at hne ⊢
    split_ifs at hne ⊢ with heq
    · obtain ⟨rfl, rfl⟩ := heq
      exact hunion.setUnion
    · exact (h.unions a b ha hb hne).setUnion
  · rw [hget, if_neg]
    · exact h.fresh a b hab
    · rintro ⟨rfl, rfl⟩
      rcases hab with hab | hab
      · exact absurd hl1 (not_lt.mpr hab)
      · exact absurd hl2 (not_lt.mpr hab)

/-- What a call that gives a union leaves behind. -/
structure Gives (d d' : Dfsan) (label l1 l2 : DfsanLabel) : Prop where
  ok : d'.Ok
  grows : Grows d d'
  union : d'.IsUnion label l1 l2
  shadow : d'.shadow = d.shadow

theorem Gives.covers (h : Gives d d' label l1 l2) (hl1 : l1 < d.table.length)
    (hl2 : l2 < d.table.length) (he : elem ≠ 0) (hhas : d.Has l1 elem ∨ d.Has l2 elem) :
    d'.Has label elem :=
  h.union.covers elem he (hhas.imp (h.grows.has l1 elem hl1).mpr (h.grows.has l2 elem hl2).mpr)

theorem Gives.has (h : Gives d d' label l1 l2) (hl1 : l1 < d.table.length)
    (hl2 : l2 < d.table.length) (he : d.IsBase elem) : d'.Has label elem ↔ d.Has l1 elem ∨
    d.Has l2 elem := by
  refine ⟨fun hhas => ?_, h.covers hl1 hl2 he.1⟩
  exact (h.union.tight elem (h.grows.base he) hhas).imp (h.grows.has l1 elem hl1).mp
    (h.grows.has l2 elem hl2).mp

theorem IsUnion.comm (h : d.IsUnion label l1 l2) : d.IsUnion label l2 l1 :=
  ⟨h.lt, fun elem he hhas => h.covers elem he hhas.symm,
    fun elem he hhas => (h.tight elem he hhas).symm⟩

theorem Gives.comm (h : Gives d d' label l1 l2) : Gives d d' label l2 l1 :=
  ⟨h.ok, h.grows, h.union.comm, h.shadow⟩

theorem Ok.gives_same (h : d.Ok) (hunion : d.IsUnion label l1 l2) : Gives d d label l1 l2 :=
  ⟨h, .refl d, hunion, rfl⟩

/-- A label that has been made of another one is the union of the two. -/
theorem isUnion_of_part (h : d.Ok) (hl1 : l1 ≠ 0) (hl2 : l2 < d.table.length)
    (hpart : (d.labelInfo l2).l1 = l1 ∨ (d.labelInfo l2).l2 = l1) : d.IsUnion l2 l1 l2 := by
  refine ⟨hl2, fun elem _ => ?_, fun elem _ hhas => Or.inr hhas⟩
  have hinfo : d.table[l2]? = some (d.labelInfo l2) := by
    simp [labelInfo, List.getElem?_eq_getElem hl2]
  have hne : (d.labelInfo l2).l1 ≠ 0 := by
    intro hzero
    rcases hpart with hpart | hpart
    · exact hl1 (hpart.symm.trans hzero)
    · exact hl1 (hpart.symm.trans ((h.layered l2 _ hinfo).1 hzero))
  rintro (hhas | hhas)
  · rcases hpart with hpart | hpart
    · exact .left hinfo hne (hpart.symm ▸ hhas)
    · exact .right hinfo hne (hpart.symm ▸ hhas)
  · exact hhas

theorem unionEntry_gives (h : d.Ok) (hl1 : l1 < d.table.length) (hl2 : l2 < d.table.length)
    (hne : l1 ≠ 0) (hne2 : l2 ≠ 0) (hok : d.unionEntry l1 l2 = some (label, d')) :
    Gives d d' label l1 l2 := by
  unfold unionEntry at hok
  split_ifs at hok with hentry hpart hfull
  · cases hok
    exact h.gives_same (h.unions l1 l2 hl1 hl2 hentry)
  · cases hok
    have hunion := isUnion_of_part h hne hl2 hpart
    exact ⟨h.setUnion hl1 hl2 hunion, grows_setUnion _ _ _, hunion.setUnion, rfl⟩
  · cases hok
    -- A new label is made of the two.
    have hpush : (d.push ⟨l1, l2⟩).Ok := h.push ⟨fun hzero => absurd hzero hne, fun _ => ⟨hl1, hl2⟩⟩
    have hg : Grows d (d.push ⟨l1, l2⟩) := grows_push h
    have hinfo : (d.push ⟨l1, l2⟩).table[d.table.length]? = some ⟨l1, l2⟩ := by simp [push]
    have hlt : d.table.length < (d.push ⟨l1, l2⟩).table.length := by simp [push]
    have hhas : ∀ elem, elem ≠ d.table.length → ((d.push ⟨l1, l2⟩).Has d.table.length elem ↔
        (d.push ⟨l1, l2⟩).Has l1 elem ∨ (d.push ⟨l1, l2⟩).Has l2 elem) :=
      fun elem he => hasLabel_union hinfo hne he
    have hbase : ∀ elem, (d.push ⟨l1, l2⟩).IsBase elem → elem ≠ d.table.length := by
      rintro elem he rfl
      cases hinfo.symm.trans he.2
      exact hne rfl
    have hunion : (d.push ⟨l1, l2⟩).IsUnion d.table.length l1 l2 := by
      refine ⟨hlt, fun elem _ => ?_, fun elem he hlabel => (hhas elem (hbase elem he)).mp hlabel⟩
      rintro (hhas | hhas)
      · exact .left hinfo hne hhas
      · exact .right hinfo hne hhas
    exact ⟨hpush.setUnion (hl1.trans hlt) (hl2.trans hlt) hunion, hg.trans (grows_setUnion _ _ _),
      hunion.setUnion, rfl⟩

theorem isUnion_zero (h : d.Ok) (hl2 : l2 < d.table.length) : d.IsUnion l2 0 l2 :=
  ⟨hl2, fun _ he hhas => hhas.resolve_left (not_has_zero h he), fun _ _ hhas => Or.inr hhas⟩

/-- The union of two labels stands for what the two stand for. -/
theorem union_gives (h : d.Ok) (hl1 : l1 < d.table.length) (hl2 : l2 < d.table.length)
    (hok : d.union l1 l2 = some (label, d')) : Gives d d' label l1 l2 := by
  unfold union at hok
  split_ifs at hok with heq
  · cases hok
    subst heq
    exact h.gives_same ⟨hl1, fun _ _ hhas => hhas.elim id id, fun _ _ hhas => Or.inl hhas⟩
  · unfold unionUnequal at hok
    split_ifs at hok with hz1 hz2 hlast hswap
    · cases hok
      subst hz1
      exact h.gives_same (isUnion_zero h hl2)
    · cases hok
      subst hz2
      exact h.gives_same (isUnion_zero h hl1).comm
    · have hone : d.table.length ≤ 1 := Nat.sub_eq_zero_iff_le.mp hlast
      exact absurd (Nat.lt_one_iff.mp (hl1.trans_le hone)) hz1
    · exact (unionEntry_gives h hl2 hl1 hz2 hz1 hok).comm
    · exact unionEntry_gives h hl1 hl2 hz1 hz2 hok

theorem ok_new : new.Ok := by
  have hinfo : ∀ (label : DfsanLabel) (info : DfsanLabelInfo), new.table[label]? = some info →
      info = ⟨0, 0⟩ := by
    intro label info hget
    exact List.mem_singleton.mp (List.mem_of_getElem? hget)
  refine ⟨rfl, fun label info hget => ?_, fun l1 l2 _ _ hne => absurd rfl hne, fun _ _ _ => rfl,
    fun _ => Nat.one_pos⟩
  rw [hinfo label info hget]
  exact ⟨fun _ => rfl, fun hne => absurd rfl hne⟩

theorem createLabel_push (hok : d.createLabel = some (label, d')) :
    label = d.table.length ∧ d' = d.push ⟨0, 0⟩ := by
  unfold createLabel dfsanCreateLabel at hok
  split_ifs at hok with hfull
  · simp at hok
  · simp only [Option.bind_eq_bind, Option.bind_some, Option.pure_def, Option.some.injEq,
      Prod.mk.injEq] at hok
    exact ⟨hok.1.symm, hok.2.symm⟩

/-- What is left behind by the union of a label with a list of labels. -/
structure Loads (d d' : Dfsan) (label start : DfsanLabel) (ls : List DfsanLabel) : Prop where
  ok : d'.Ok
  grows : Grows d d'
  shadow : d'.shadow = d.shadow
  lt : label < d'.table.length
  covers : ∀ elem, elem ≠ 0 → (d.Has start elem ∨ ∃ l ∈ ls, d.Has l elem) → d'.Has label elem
  tight : ∀ elem, d.IsBase elem → d'.Has label elem → d.Has start elem ∨ ∃ l ∈ ls, d.Has l elem

theorem unionLoad_loads {start : DfsanLabel} {ls : List DfsanLabel} (h : d.Ok)
    (hstart : start < d.table.length) (hls : ∀ l ∈ ls, l < d.table.length)
    (hok : d.unionLoad start ls = some (label, d')) :
    Loads d d' label start ls := by
  induction ls generalizing d start with
  | nil =>
    cases hok
    refine ⟨h, .refl _, rfl, hstart, fun elem _ hhas => ?_, fun elem _ hhas => Or.inl hhas⟩
    exact hhas.resolve_right (by simp)
  | cons next ls ih =>
    obtain ⟨⟨mid, d₁⟩, hunion, hrest⟩ := Option.bind_eq_some_iff.mp hok
    have hone := union_gives h hstart (hls next List.mem_cons_self) hunion
    have hls' : ∀ l ∈ ls, l < d.table.length := fun l hl => hls l (List.mem_cons_of_mem _ hl)
    have hnext : next < d.table.length := hls next List.mem_cons_self
    have hmany :=
      ih hone.ok hone.union.lt (fun l hl => (hls' l hl).trans_le hone.grows.length) hrest
    have hold : ∀ elem, (∃ l ∈ ls, d₁.Has l elem) ↔ ∃ l ∈ ls, d.Has l elem := fun elem =>
      exists_congr fun l => and_congr_right fun hl => hone.grows.has l elem (hls' l hl)
    have hsplit : ∀ elem, (∃ l ∈ next :: ls, d.Has l elem) ↔ d.Has next elem ∨ ∃ l ∈ ls,
        d.Has l elem :=
      fun elem => by simp
    refine ⟨hmany.ok, hone.grows.trans hmany.grows, hmany.shadow.trans hone.shadow, hmany.lt,
      fun elem he hhas => hmany.covers elem he ?_, fun elem he hhas => ?_⟩
    · rw [hsplit, ← or_assoc] at hhas
      rw [hold]
      exact hhas.imp (hone.covers hstart hnext he) id
    · have hmid := hmany.tight elem (hone.grows.base he) hhas
      rw [hold, hone.has hstart hnext he, or_assoc, ← hsplit] at hmid
      exact hmid

/-- What is left behind by a read of the label of a piece of memory. -/
structure Reads (d d' : Dfsan) (label : DfsanLabel) (addr size : ℕ) : Prop where
  ok : d'.Ok
  grows : Grows d d'
  shadow : d'.shadow = d.shadow
  lt : label < d'.table.length
  covers : ∀ elem, elem ≠ 0 → ∀ a, addr ≤ a → a < addr + size → d.Has (d.shadow a) elem →
    d'.Has label elem
  tight : ∀ elem, d.IsBase elem → d'.Has label elem → ∃ a, addr ≤ a ∧
    a < addr + size ∧ d.Has (d.shadow a) elem

/-- The label of a piece of memory stands for what the labels of its bytes stand for. -/
theorem readLabel_reads (h : d.Ok) (hok : d.readLabel addr size = some (label, d')) :
    Reads d d' label addr size := by
  unfold readLabel at hok
  split_ifs at hok with hsize
  · cases hok
    subst hsize
    exact ⟨h, .refl _, rfl, h.pos, fun elem _ a hle hlt => absurd hlt (not_lt.mpr hle),
      fun elem he hhas => absurd hhas (not_has_zero h he.1)⟩
  · have hmem : ∀ a, addr < a ∧ a < addr + size ↔ a ∈ List.range' (addr + 1) (size - 1) := by
      intro a
      rw [List.mem_range'_1]
      omega
    have hls : ∀ l ∈ (List.range' (addr + 1) (size - 1)).map d.shadow, l < d.table.length := by
      intro l hl
      obtain ⟨a, -, rfl⟩ := List.mem_map.mp hl
      exact h.shadow a
    have hload := unionLoad_loads h (h.shadow addr) hls hok
    refine ⟨hload.ok, hload.grows, hload.shadow, hload.lt, fun elem he a hle hlt hhas =>
      hload.covers elem he ?_, fun elem he hhas => ?_⟩
    · rcases Nat.eq_or_lt_of_le hle with rfl | hafter
      · exact Or.inl hhas
      · exact Or.inr ⟨d.shadow a, List.mem_map_of_mem ((hmem a).mp ⟨hafter, hlt⟩), hhas⟩
    · rcases hload.tight elem he hhas with hfirst | ⟨l, hl, hrest⟩
      · exact ⟨addr, le_rfl, Nat.lt_add_of_pos_right (Nat.pos_of_ne_zero hsize), hfirst⟩
      · obtain ⟨a, ha, rfl⟩ := List.mem_map.mp hl
        obtain ⟨hafter, hlt⟩ := (hmem a).mpr ha
        exact ⟨a, hafter.le, hlt, hrest⟩

theorem Ok.setByte (h : d.Ok) (hlabel : label < d.table.length) : (d.setByte addr label).Ok := by
  refine ⟨h.first, h.layered, fun a b ha hb hne => ?_, h.fresh, fun a => ?_⟩
  · have hunion := h.unions a b ha hb hne
    exact ⟨hunion.lt, hunion.covers, hunion.tight⟩
  · unfold Dfsan.setByte
    by_cases ha : a = addr
    · subst ha
      simpa using hlabel
    · simpa [ha] using h.shadow a

theorem grows_setByte : Grows d (d.setByte addr label) := ⟨List.prefix_rfl, fun _ _ _ => Iff.rfl⟩

theorem setByte_self : (d.setByte addr label).shadow addr = label := by simp [setByte]

theorem setByte_other {a : ℕ} (ha : a ≠ addr) : (d.setByte addr label).shadow a = d.shadow a := by
  simp [setByte, ha]

/-- What is left behind when a label is added to the bytes of a piece of memory. -/
structure Adds (d d' : Dfsan) (label : DfsanLabel) (addr size : ℕ) : Prop where
  ok : d'.Ok
  grows : Grows d d'
  inside : ∀ a, addr ≤ a → a < addr + size → ∀ elem, elem ≠ 0 →
    d.Has (d.shadow a) elem ∨ d.Has label elem → d'.Has (d'.shadow a) elem
  outside : ∀ a, a < addr ∨ addr + size ≤ a → d'.shadow a = d.shadow a

theorem addLabel_adds (h : d.Ok) (hlabel : label < d.table.length)
    (hok : d.addLabel label addr size = some d') :
    Adds d d' label addr size := by
  induction size generalizing d addr with
  | zero =>
    cases hok
    exact ⟨h, .refl _, fun a hle hlt => absurd hlt (not_lt.mpr hle), fun _ _ => rfl⟩
  | succ size ih =>
    obtain ⟨⟨new, d₁⟩, hunion, hrest⟩ := Option.bind_eq_some_iff.mp hok
    have hone := union_gives h (h.shadow addr) hlabel hunion
    have hbyte : Grows d (d₁.setByte addr new) := hone.grows.trans grows_setByte
    have hmany := ih (hone.ok.setByte hone.union.lt) (hlabel.trans_le hbyte.length) hrest
    refine ⟨hmany.ok, hbyte.trans hmany.grows, fun a hle hlt elem he hhas => ?_, fun a ha => ?_⟩
    · rcases Nat.eq_or_lt_of_le hle with rfl | hafter
      · -- The first byte has the new label, and the rest of the loop leaves it alone.
        rw [hmany.outside addr (Or.inl (Nat.lt_succ_self addr)), setByte_self]
        exact (hmany.grows.has new elem hone.union.lt).mpr
          (hone.covers (h.shadow addr) hlabel he hhas)
      · refine hmany.inside a hafter (by omega) elem he
          (hhas.imp ?_ (hbyte.has label elem hlabel).mpr)
        rw [setByte_other (Nat.ne_of_gt hafter), hone.shadow]
        exact (hbyte.has _ elem (h.shadow a)).mpr
    · rw [hmany.outside a (by omega), setByte_other (by omega), hone.shadow]

theorem setLabel_ok (h : d.Ok) (hlabel : label < d.table.length) :
    (d.setLabel label addr size).Ok := by
  induction size generalizing d addr with
  | zero => exact h
  | succ size ih => exact ih (h.setByte hlabel) hlabel

theorem grows_setLabel : Grows d (d.setLabel label addr size) := by
  induction size generalizing d addr with
  | zero => exact .refl d
  | succ size ih => exact grows_setByte.trans ih

theorem setLabel_outside {a : ℕ} (ha : a < addr ∨ addr + size ≤ a) :
    (d.setLabel label addr size).shadow a = d.shadow a := by
  induction size generalizing d addr with
  | zero => rfl
  | succ size ih =>
    unfold setLabel
    rw [ih (by omega), setByte_other (by omega)]

end Dfsan

/-- What the program asks of its labels. -/
inductive LabelCall
  | create
  | union (l1 l2 : DfsanLabel)
  | read (addr size : ℕ)
  | add (label : DfsanLabel) (addr size : ℕ)
  | set (label : DfsanLabel) (addr size : ℕ)

namespace LabelCall

/-- The program has only labels that it was given. -/
def Valid (d : Dfsan) : LabelCall → Prop
  | create => True
  | union l1 l2 => l1 < d.table.length ∧ l2 < d.table.length
  | read _ _ => True
  | add label _ _ => label < d.table.length
  | set label _ _ => label < d.table.length

/-- The call puts a label in the place of the one that the byte has. -/
def Sets (a : ℕ) : LabelCall → Prop
  | set _ addr size => addr ≤ a ∧ a < addr + size
  | _ => False

def exec (d : Dfsan) : LabelCall → Option Dfsan
  | create => d.createLabel.map Prod.snd
  | union l1 l2 => (d.union l1 l2).map Prod.snd
  | read addr size => (d.readLabel addr size).map Prod.snd
  | add label addr size => d.addLabel label addr size
  | set label addr size => some (d.setLabel label addr size)

end LabelCall

namespace Dfsan

/-- The calls that the program makes one after the other. -/
inductive LabelRun : Dfsan → List LabelCall → Dfsan → Prop
  | nil (d : Dfsan) : LabelRun d [] d
  | cons {d d₁ d' : Dfsan} {c : LabelCall} {cs : List LabelCall} (hc : c.Valid d)
    (hexec : c.exec d = some d₁) (h : LabelRun d₁ cs d') : LabelRun d (c :: cs) d'

variable {d d' d₁ d₂ d₃ d₄ : Dfsan} {label l elem : DfsanLabel} {a addr size addr' size' : ℕ}
  {c : LabelCall} {cs before later : List LabelCall}

/-- The byte keeps what its label stands for. -/
def Keeps (d d' : Dfsan) (a : ℕ) : Prop :=
  ∀ elem, elem ≠ 0 → d.Has (d.shadow a) elem → d'.Has (d'.shadow a) elem

theorem Grows.keeps (hg : Grows d d') (h : d.Ok) (hs : d'.shadow a = d.shadow a) :
    Keeps d d' a := by
  intro elem _ hhas
  rw [hs]
  exact (hg.has _ elem (h.shadow a)).mpr hhas

theorem Adds.keeps (hadds : Adds d d' label addr size) (h : d.Ok) : Keeps d d' a := by
  by_cases hin : addr ≤ a ∧ a < addr + size
  · exact fun elem he hhas => hadds.inside a hin.1 hin.2 elem he (Or.inl hhas)
  · exact hadds.grows.keeps h (hadds.outside a (by omega))

/-- One call: the labels keep what they stand for, and so does a byte that is not set. -/
theorem exec_keeps (h : d.Ok) (hc : c.Valid d) (hexec : c.exec d = some d') :
    d'.Ok ∧ Grows d d' ∧ (¬ c.Sets a → Keeps d d' a) := by
  cases c with
  | create =>
    obtain ⟨⟨label, e⟩, hok, rfl⟩ := Option.map_eq_some_iff.mp hexec
    obtain ⟨-, rfl⟩ := createLabel_push hok
    have hg : Grows d (d.push ⟨0, 0⟩) := grows_push h
    exact ⟨h.push ⟨fun _ => rfl, fun hne => absurd rfl hne⟩, hg, fun _ => hg.keeps h rfl⟩
  | union l1 l2 =>
    obtain ⟨⟨label, e⟩, hok, rfl⟩ := Option.map_eq_some_iff.mp hexec
    have hgives := union_gives h hc.1 hc.2 hok
    exact ⟨hgives.ok, hgives.grows, fun _ => hgives.grows.keeps h (congrFun hgives.shadow a)⟩
  | read addr size =>
    obtain ⟨⟨label, e⟩, hok, rfl⟩ := Option.map_eq_some_iff.mp hexec
    have hreads := readLabel_reads h hok
    exact ⟨hreads.ok, hreads.grows, fun _ => hreads.grows.keeps h (congrFun hreads.shadow a)⟩
  | add label addr size =>
    have hadds := addLabel_adds h hc hexec
    exact ⟨hadds.ok, hadds.grows, fun _ => hadds.keeps h⟩
  | set label addr size =>
    cases hexec
    refine ⟨setLabel_ok h hc, grows_setLabel,
      fun hset => grows_setLabel.keeps h (setLabel_outside ?_)⟩
    have hout : ¬ (addr ≤ a ∧ a < addr + size) := hset
    omega

theorem LabelRun.keeps (hrun : LabelRun d cs d') (h : d.Ok) :
    d'.Ok ∧ Grows d d' ∧ ((∀ c ∈ cs, ¬ c.Sets a) → Keeps d d' a) := by
  induction hrun with
  | nil d => exact ⟨h, .refl d, fun _ _ _ hhas => hhas⟩
  | cons hc hexec _ ih =>
    obtain ⟨hok, hg, hbyte⟩ := exec_keeps (a := a) h hc hexec
    obtain ⟨hok', hg', hbyte'⟩ := ih hok
    refine ⟨hok', hg.trans hg', fun hset elem he hhas => ?_⟩
    exact hbyte' (fun c hmem => hset c (List.mem_cons_of_mem _ hmem)) elem he
      (hbyte (hset _ List.mem_cons_self) elem he hhas)

theorem LabelRun.ok (hrun : LabelRun new cs d) : d.Ok := (hrun.keeps (a := 0) ok_new).1

theorem Ok.hasLabel_iff (h : d.Ok) : dfsanHasLabel d.table label elem = true ↔ d.Has label elem :=
  Runtime.hasLabel_iff h.layered

/-- After any calls, a read gives a label that stands for what the bytes it covers stand for, and
for nothing else. -/
theorem read_label_exact (hrun : LabelRun new cs d) (hread : d.readLabel addr size = some (l, d'))
    (he : d.IsBase elem) : dfsanHasLabel d'.table l elem = true ↔
      ∃ a, addr ≤ a ∧ a < addr + size ∧ dfsanHasLabel d.table (d.shadow a) elem = true := by
  have hreads := readLabel_reads hrun.ok hread
  simp only [hreads.ok.hasLabel_iff, hrun.ok.hasLabel_iff]
  constructor
  · exact hreads.tight elem he
  · rintro ⟨a, hle, hlt, hhas⟩
    exact hreads.covers elem he.1 a hle hlt hhas

theorem read_label_exact_sample :
    ∃ d d' l, LabelRun new [.create, .create, .add 1 0 2, .add 2 0 1] d ∧
      d.readLabel 0 2 = some (l, d') ∧ (dfsanHasLabel d'.table l 2 = true ↔
        ∃ a, 0 ≤ a ∧ a < 0 + 2 ∧ dfsanHasLabel d.table (d.shadow a) 2 = true) := by
  have hrun : LabelRun new [.create, .create, .add 1 0 2, .add 2 0 1] _ :=
    .cons trivial rfl (.cons trivial rfl (.cons (show 1 < 3 by decide) rfl
      (.cons (show 2 < 3 by decide) rfl (.nil _))))
  exact ⟨_, _, _, hrun, rfl, read_label_exact hrun rfl ⟨by decide, rfl⟩⟩

end Dfsan

end Prd.Runtime
