import Mathlib.Data.List.ReduceOption
import Prd.Pycprd.Races

/-!
# Groups of races

Races are reported in groups with one read id, by program counters or by infos. Of each
set with one write id the race that is iterated first is shown, and the read and the
dependent write are those of the first write id.
-/
namespace Prd.Pycprd

open Prd.Foundation

/-- Which element of a set is iterated first. -/
structure First (α : Type) where
  pick : List α → Option α
  mem : ∀ l x, pick l = some x → x ∈ l
  isSome : ∀ l, l ≠ [] → (pick l).isSome = true

namespace First

variable {α : Type}

/-- The expression `next(iter(l))` in a generator. -/
def next (first : First α) (l : List α) : Py α :=
  match first.pick l with
  | some x => pure x
  | none => throw .runtimeError

theorem next_eq_ok (first : First α) {l : List α} (h : l ≠ []) :
    ∃ x, first.pick l = some x ∧ first.next l = .ok x := by
  obtain ⟨x, hx⟩ := Option.isSome_iff_exists.mp (first.isSome l h)
  refine ⟨x, hx, ?_⟩
  unfold next
  rw [hx]
  rfl

/-- The element of the smallest index comes first. -/
def head : First α where
  pick := List.head?
  mem := fun _ _ h => List.mem_of_head? h
  isSome := fun _ h => List.isSome_head?.mpr h

/-- An element that satisfies `p` comes first, or else one that satisfies `q`. -/
def preferring (p q : α → Bool) : First α where
  pick := fun l => (l.find? p).or ((l.find? q).or l.head?)
  mem := by
    intro l x h
    simp only [Option.or_eq_some_iff] at h
    rcases h with h | ⟨-, h | ⟨-, h⟩⟩
    · exact List.mem_of_find?_eq_some h
    · exact List.mem_of_find?_eq_some h
    · exact List.mem_of_head? h
  isSome := by
    intro l h
    simp [List.isSome_head?.mpr h]

theorem preferring_pick_left {p q : α → Bool} {l : List α} {x : α} (hx : x ∈ l) (hp : p x = true) :
    ∃ y, (preferring p q).pick l = some y ∧ p y = true := by
  obtain ⟨y, hy⟩ := Option.isSome_iff_exists.mp (List.find?_isSome.mpr ⟨x, hx, hp⟩)
  refine ⟨y, ?_, List.find?_some hy⟩
  show (l.find? p).or _ = some y
  rw [hy]
  rfl

theorem preferring_pick_right {p q : α → Bool} {l : List α} (hp : ∀ x ∈ l, ¬ p x = true) {x : α}
    (hx : x ∈ l) (hq : q x = true) : ∃ y, (preferring p q).pick l = some y ∧ q y = true := by
  obtain ⟨y, hy⟩ := Option.isSome_iff_exists.mp (List.find?_isSome.mpr ⟨x, hx, hq⟩)
  refine ⟨y, ?_, List.find?_some hy⟩
  show (l.find? p).or _ = some y
  rw [List.find?_eq_none.mpr hp, hy]
  rfl

end First

namespace PersistencyRace

/-- The id of a race by program counters. -/
def idByPc (race : PersistencyRace) : ℕ × ℕ := (race.readNode.pc, race.writeNode.pc)

def idByInfo (race : PersistencyRace) : Info × Info := (race.readNode.info, race.writeNode.info)

end PersistencyRace

/-- What the iterator yields for a read id. -/
structure RaceGroup where
  index : ℕ
  readNode : InstructionNode
  dependentNode : InstructionNode
  writeNodes : List InstructionNode

section Iterator

variable {κ : Type} [DecidableEq κ] (first : First PersistencyRace)

/-- The body of the loop over the write ids: the first race gives the read and the dependent
write. -/
def addWrite (s : Option (InstructionNode × InstructionNode) × List InstructionNode)
    (races : List PersistencyRace) :
    Py (Option (InstructionNode × InstructionNode) × List InstructionNode) := do
  let race ← first.next races
  pure (some (s.1.getD (race.readNode, race.dependentNode)), s.2.insert race.writeNode)

/-- The body of the loop over the read ids. -/
def groupOf (races : Table κ PersistencyRace) (readId : κ × ℕ) : Py (Option RaceGroup) := do
  let s ← (races.getD readId.1 .empty).keys.foldlM
    (fun s writeId => addWrite first s (races.at₂ readId.1 writeId)) (none, [])
  pure (s.1.map fun nodes => ⟨readId.2, nodes.1, nodes.2, s.2⟩)

def racesIterator (races : Table κ PersistencyRace) : Py (List RaceGroup) := do
  let groups ← races.keys.zipIdx.mapM (groupOf first races)
  pure groups.reduceOption

end Iterator

namespace PersistencyRaces

variable (rs : PersistencyRaces) (first : First PersistencyRace)

def raceNodesByReadPc : Py (List RaceGroup) := racesIterator first rs.racesByPc

def raceNodesByReadInfo : Py (List RaceGroup) := racesIterator first rs.racesByInfo

def raceNodes (groupByInfo : Bool) : Py (List RaceGroup) :=
  if groupByInfo then rs.raceNodesByReadInfo first else rs.raceNodesByReadPc first

/-- The races that the tours are made of. -/
def toCodeTours (firstNode : First InstructionNode) (groupByInfo : Bool) :
    Py (List PersistencyRace) := do
  let races ← rs.raceNodes first groupByInfo
  races.mapM fun g => do
    let writeNode ← firstNode.next g.writeNodes
    PersistencyRace.create g.readNode writeNode g.dependentNode none

/-- The collection after the races were added. -/
def ofRaces (races : List PersistencyRace) : PersistencyRaces := races.foldl addRace new

theorem ofRaces_append_singleton (races : List PersistencyRace) (race : PersistencyRace) :
    ofRaces (races ++ [race]) = (ofRaces races).addRace race := by
  unfold ofRaces
  rw [List.foldl_append]
  rfl

end PersistencyRaces

section Yields

variable {κ : Type} [DecidableEq κ] (first : First PersistencyRace)
  {races : Table κ PersistencyRace}

/-- The group shows a race of the first write id, and writes of races of all write ids. -/
structure Yields {κ : Type} [DecidableEq κ] (first : First PersistencyRace)
    (races : Table κ PersistencyRace) (readId : κ) (g : RaceGroup) : Prop where
  nodes : ∃ writeId race, (races.getD readId .empty).keys.head? = some writeId ∧
    first.pick (races.at₂ readId writeId) = some race ∧ g.readNode = race.readNode ∧
    g.dependentNode = race.dependentNode
  writes : ∀ w, w ∈ g.writeNodes ↔ ∃ writeId ∈ (races.getD readId .empty).keys, ∃ race,
    first.pick (races.at₂ readId writeId) = some race ∧ race.writeNode = w

theorem Yields.writeNodes_ne {first : First PersistencyRace} {readId : κ}
    {g : RaceGroup} (hy : Yields first races readId g) : g.writeNodes ≠ [] := by
  obtain ⟨writeId, race, hhead, hpick, -⟩ := hy.nodes
  exact List.ne_nil_of_mem ((hy.writes _).mpr ⟨writeId, List.mem_of_head? hhead, race, hpick, rfl⟩)

/-- No set of the table is empty, and no dictionary of a read id is. -/
structure Filled (races : Table κ PersistencyRace) : Prop where
  keys₂ : ∀ readId ∈ races.keys, (races.getD readId .empty).keys ≠ []
  sets : ∀ readId, ∀ writeId ∈ (races.getD readId .empty).keys, races.at₂ readId writeId ≠ []

/-- The loop over the write ids keeps the nodes of its first race. -/
theorem foldlM_addWrite {readId : κ} {writeIds : List κ}
    (h : ∀ writeId ∈ writeIds, races.at₂ readId writeId ≠ [])
    (s : Option (InstructionNode × InstructionNode) × List InstructionNode) :
    ∃ s', writeIds.foldlM (fun s writeId => addWrite first s (races.at₂ readId writeId)) s =
      .ok s' ∧ s'.1 = s.1.or (writeIds.head?.bind fun writeId =>
        (first.pick (races.at₂ readId writeId)).map fun race =>
          (race.readNode, race.dependentNode)) ∧
      ∀ w, w ∈ s'.2 ↔ w ∈ s.2 ∨ ∃ writeId ∈ writeIds, ∃ race,
        first.pick (races.at₂ readId writeId) = some race ∧ race.writeNode = w := by
  induction writeIds generalizing s with
  | nil => exact ⟨s, rfl, by simp, by simp⟩
  | cons writeId writeIds ih =>
    obtain ⟨race, hpick, hnext⟩ := First.next_eq_ok first (h writeId List.mem_cons_self)
    obtain ⟨s', hs', hnodes, hwrites⟩ := ih
      (fun writeId' hmem => h writeId' (List.mem_cons_of_mem writeId hmem))
      (some (s.1.getD (race.readNode, race.dependentNode)), s.2.insert race.writeNode)
    refine ⟨s', ?_, ?_, fun w => ?_⟩
    · rw [List.foldlM_cons]
      unfold addWrite
      rw [hnext]
      exact hs'
    · rw [hnodes, List.head?_cons, Option.bind_some, hpick]
      cases s.1 with
      | none => rfl
      | some nodes => rfl
    · rw [hwrites, List.mem_insert_iff, List.exists_mem_cons_iff]
      simp only [hpick, Option.some.injEq, exists_eq_left']
      tauto

theorem groupOf_spec (h : Filled races) {readId : κ} (hk : readId ∈ races.keys) (i : ℕ) :
    ∃ g, groupOf first races (readId, i) = .ok (some g) ∧ Yields first races readId g := by
  obtain ⟨s, hs, hnodes, hwrites⟩ := foldlM_addWrite first (h.sets readId) (none, [])
  obtain ⟨writeId, hhead⟩ : ∃ writeId, (races.getD readId .empty).keys.head? = some writeId :=
    Option.isSome_iff_exists.mp (List.isSome_head?.mpr (h.keys₂ readId hk))
  obtain ⟨race, hpick, -⟩ := First.next_eq_ok first
    (h.sets readId writeId (List.mem_of_head? hhead))
  rw [hhead, Option.bind_some, hpick] at hnodes
  refine ⟨⟨i, race.readNode, race.dependentNode, s.2⟩, ?_, ⟨writeId, race, hhead, hpick, rfl, rfl⟩,
    fun w => ?_⟩
  · unfold groupOf
    rw [hs, ok_bind, hnodes]
    rfl
  · rw [hwrites]
    exact or_iff_right List.not_mem_nil

/-- The iterator yields one group for each read id. -/
theorem racesIterator_spec (h : Filled races) : ∃ groups, racesIterator first races = .ok groups ∧
    (∀ g ∈ groups, ∃ readId ∈ races.keys, Yields first races readId g) ∧
    ∀ readId ∈ races.keys, ∃ g ∈ groups, Yields first races readId g := by
  obtain ⟨groups, hgroups, hall, hex⟩ := exists_mapM (f := groupOf first races)
    (R := fun readId g => ∃ g', g = some g' ∧ Yields first races readId.1 g')
    (l := races.keys.zipIdx) fun readId hmem => by
      obtain ⟨g, hg, hy⟩ := groupOf_spec first h (List.fst_mem_of_mem_zipIdx hmem) readId.2
      exact ⟨some g, hg, g, rfl, hy⟩
  refine ⟨groups.reduceOption, by unfold racesIterator; rw [hgroups]; rfl, ?_, ?_⟩
  · intro g hg
    obtain ⟨readId, hmem, g', hg', hy⟩ := hall (some g) (List.reduceOption_mem_iff.mp hg)
    cases hg'
    exact ⟨readId.1, List.fst_mem_of_mem_zipIdx hmem, hy⟩
  · intro readId hmem
    obtain ⟨i, hi⟩ := List.mem_iff_getElem?.mp hmem
    obtain ⟨_, hg, g, rfl, hy⟩ := hex (readId, i) (List.mk_mem_zipIdx_iff_getElem?.mpr hi)
    exact ⟨g, List.reduceOption_mem_iff.mpr hg, hy⟩

end Yields

section Tables

theorem mem_triples_addToSet {races : List PersistencyRace} {race : PersistencyRace}
    {t : InstructionNode × InstructionNode × InstructionNode} :
    t ∈ (addToSet races race).map PersistencyRace.triple ↔
      t ∈ races.map PersistencyRace.triple ∨ t = race.triple := by
  unfold addToSet
  split_ifs with h
  · exact ⟨Or.inl, fun ht => ht.elim id fun he => he ▸ h⟩
  · simp

namespace PersistencyRaces

theorem groups_racesByPc (races : List PersistencyRace) :
    Table.Groups races PersistencyRace.idByPc PersistencyRace.triple
      (List.map PersistencyRace.triple) (ofRaces races).racesByPc := by
  induction races using List.reverseRecOn with
  | nil => exact Table.groups_empty _ _ rfl
  | append_singleton races race ih =>
    rw [ofRaces_append_singleton]
    exact ih.update₂ race fun _ => mem_triples_addToSet

theorem groups_racesByInfo (races : List PersistencyRace) :
    Table.Groups races PersistencyRace.idByInfo PersistencyRace.triple
      (List.map PersistencyRace.triple) (ofRaces races).racesByInfo := by
  induction races using List.reverseRecOn with
  | nil => exact Table.groups_empty _ _ rfl
  | append_singleton races race ih =>
    rw [ofRaces_append_singleton]
    exact ih.update₂ race fun _ => mem_triples_addToSet

theorem reports_ofRaces (races : List PersistencyRace) (r w d : InstructionNode) :
    (ofRaces races).Reports r w d ↔ (r, w, d) ∈ races.map PersistencyRace.triple := by
  induction races using List.reverseRecOn with
  | nil => rfl
  | append_singleton races race ih =>
    rw [ofRaces_append_singleton, reports_addRace, ih, List.map_append, List.mem_append]
    simp

end PersistencyRaces

end Tables

section Combinations

variable {κ : Type} [DecidableEq κ] {races : List PersistencyRace} {ids : PersistencyRace → κ × κ}
  {d : Table κ PersistencyRace}

/-- The read and the dependent write of every race with the ids of the first race of a read id make
a race with the write of every race of its other write ids. -/
def Combines (races : List PersistencyRace) (ids : PersistencyRace → κ × κ) : Prop :=
  ∀ readId race₀, races.find? (fun x => (ids x).1 = readId) = some race₀ →
    ∀ race ∈ races, ids race = ids race₀ →
      ∀ race' ∈ races, (ids race').1 = readId → (ids race').2 ≠ (ids race₀).2 →
        (race.readNode, race'.writeNode, race.dependentNode) ∈ races.map PersistencyRace.triple

/-- The table groups the races by ids that are read off their nodes. -/
structure TableOf (races : List PersistencyRace) (ids : PersistencyRace → κ × κ)
    (d : Table κ PersistencyRace) : Prop where
  groups : Table.Groups races ids PersistencyRace.triple (List.map PersistencyRace.triple) d
  ids : ∀ x y, x.triple = y.triple → ids x = ids y

namespace TableOf

theorem exists_of_mem (h : TableOf races ids d) {readId writeId : κ} {race : PersistencyRace}
    (hr : race ∈ d.at₂ readId writeId) :
    ∃ x ∈ races, ids x = (readId, writeId) ∧ x.triple = race.triple :=
  (h.groups.mem readId writeId race.triple).mp (List.mem_map_of_mem hr)

theorem mem_keys₂ (h : TableOf races ids d) {readId writeId : κ} :
    writeId ∈ (d.getD readId .empty).keys ↔ ∃ x ∈ races, ids x = (readId, writeId) := by
  rw [h.groups.keys₂, mem_firstOccurrences, List.mem_map]
  simp only [List.mem_filter, decide_eq_true_eq, Prod.ext_iff]
  exact ⟨fun ⟨x, ⟨hx, h1⟩, h2⟩ => ⟨x, hx, h1, h2⟩, fun ⟨x, hx, h1, h2⟩ => ⟨x, ⟨hx, h1⟩, h2⟩⟩

theorem filled (h : TableOf races ids d) : Filled d where
  keys₂ := by
    intro readId hk
    rw [h.groups.keys, mem_firstOccurrences, List.mem_map] at hk
    obtain ⟨x, hx, rfl⟩ := hk
    exact List.ne_nil_of_mem (h.mem_keys₂.mpr ⟨x, hx, rfl⟩)
  sets := by
    intro readId writeId hk hnil
    obtain ⟨x, hx, hids⟩ := h.mem_keys₂.mp hk
    have hmem := (h.groups.mem readId writeId x.triple).mpr ⟨x, hx, hids, rfl⟩
    rw [hnil] at hmem
    cases hmem

/-- The first write id of a read id is that of the first race with the read id. -/
theorem head?_keys₂ (h : TableOf races ids d) (readId : κ) : (d.getD readId .empty).keys.head? =
    (races.find? fun x => (ids x).1 = readId).map fun x => (ids x).2 := by
  rw [h.groups.keys₂, head?_firstOccurrences, List.head?_map, List.head?_filter]

/-- A group of an iterator shows races only when the ids combine. -/
theorem triple_mem_of_combines (h : TableOf races ids d) (hc : Combines races ids)
    {first : First PersistencyRace} {readId : κ} {g : RaceGroup} (hy : Yields first d readId g)
    {w : InstructionNode} (hw : w ∈ g.writeNodes) :
    (g.readNode, w, g.dependentNode) ∈ races.map PersistencyRace.triple := by
  obtain ⟨writeId, race, hhead, hpick, hread, hdep⟩ := hy.nodes
  obtain ⟨writeId', -, race', hpick', rfl⟩ := (hy.writes w).mp hw
  obtain ⟨x, hx, hids, hxt⟩ := h.exists_of_mem (first.mem _ _ hpick)
  obtain ⟨x', hx', hids', hxt'⟩ := h.exists_of_mem (first.mem _ _ hpick')
  rw [h.head?_keys₂, Option.map_eq_some_iff] at hhead
  obtain ⟨race₀, hfind, hwrite⟩ := hhead
  have hread₀ : (ids race₀).1 = readId := by simpa using List.find?_some hfind
  have hids₀ : ids race₀ = (readId, writeId) := Prod.ext hread₀ hwrite
  unfold PersistencyRace.triple at hxt hxt'
  simp only [Prod.mk.injEq] at hxt hxt'
  rw [hread, hdep, ← hxt.1, ← hxt.2.2, ← hxt'.2.1]
  by_cases hne : writeId' = writeId
  · subst hne
    rw [hpick] at hpick'
    obtain rfl := Option.some.inj hpick'
    rw [hxt'.2.1, ← hxt.2.1]
    exact List.mem_map_of_mem hx
  · refine hc readId race₀ hfind x hx (hids.trans hids₀.symm) x' hx' (by rw [hids']) ?_
    rw [hids', hids₀]
    exact hne

/-- If the groups show races whatever comes first in a set, the ids combine. -/
theorem combines_of_triple_mem (h : TableOf races ids d)
    (hall : ∀ first : First PersistencyRace, ∃ groups, racesIterator first d = .ok groups ∧
      ∀ g ∈ groups, ∀ w ∈ g.writeNodes,
        (g.readNode, w, g.dependentNode) ∈ races.map PersistencyRace.triple) :
    Combines races ids := by
  intro readId race₀ hfind race hrace hids race' hrace' hread' hne
  have hread₀ : (ids race₀).1 = readId := by simpa using List.find?_some hfind
  let first : First PersistencyRace :=
    .preferring (fun x => x.triple = race.triple) (fun x => x.triple = race'.triple)
  obtain ⟨groups, hgroups, hshown⟩ := hall first
  have hkey : readId ∈ d.keys := by
    rw [h.groups.keys, mem_firstOccurrences, List.mem_map]
    exact ⟨race', hrace', hread'⟩
  obtain ⟨groups', hgroups', -, hex⟩ := racesIterator_spec first h.filled
  obtain rfl := Except.ok.inj (hgroups.symm.trans hgroups')
  obtain ⟨g, hg, hy⟩ := hex readId hkey
  obtain ⟨writeId, shown, hhead, hpick, hread, hdep⟩ := hy.nodes
  rw [h.head?_keys₂, hfind, Option.map_some, Option.some.injEq] at hhead
  have hids' : ids race = (readId, writeId) := hids.trans (Prod.ext hread₀ hhead)
  obtain ⟨x, hx, hxt⟩ := List.mem_map.mp
    ((h.groups.mem readId writeId race.triple).mpr ⟨race, hrace, hids', rfl⟩)
  obtain ⟨y, hy₁, hyt⟩ := First.preferring_pick_left (p := fun x => x.triple = race.triple)
    (q := fun x => x.triple = race'.triple) hx (decide_eq_true hxt)
  obtain rfl := Option.some.inj (hpick.symm.trans hy₁)
  have hother : ∀ z ∈ d.at₂ readId (ids race').2, ¬ decide (z.triple = race.triple) = true := by
    intro z hz hzt
    obtain ⟨z', -, hz', hzt'⟩ := h.exists_of_mem hz
    rw [h.ids z' race (hzt'.trans (of_decide_eq_true hzt)), hids'] at hz'
    exact hne (hhead.trans (Prod.ext_iff.mp hz').2).symm
  obtain ⟨x', hx', hxt'⟩ := List.mem_map.mp
    ((h.groups.mem readId (ids race').2 race'.triple).mpr
      ⟨race', hrace', Prod.ext hread' rfl, rfl⟩)
  obtain ⟨y', hy', hyt'⟩ := First.preferring_pick_right (q := fun x => x.triple = race'.triple)
    hother hx' (decide_eq_true hxt')
  have hkey' : (ids race').2 ∈ (d.getD readId .empty).keys :=
    h.mem_keys₂.mpr ⟨race', hrace', Prod.ext hread' rfl⟩
  have hmem := hshown g hg y'.writeNode ((hy.writes _).mpr ⟨_, hkey', y', hy', rfl⟩)
  have hyt := of_decide_eq_true hyt
  have hyt' := of_decide_eq_true hyt'
  unfold PersistencyRace.triple at hyt hyt'
  simp only [Prod.mk.injEq] at hyt hyt'
  rwa [hread, hdep, hyt.1, hyt.2.2, hyt'.2.1] at hmem

/-- What is picked from a set of the table has its ids. -/
theorem ids_of_pick (h : TableOf races ids d) {first : First PersistencyRace} {readId writeId : κ}
    {race : PersistencyRace} (hpick : first.pick (d.at₂ readId writeId) = some race) :
    ids race = (readId, writeId) := by
  obtain ⟨x, -, hx, ht⟩ := h.exists_of_mem (first.mem _ _ hpick)
  rw [← h.ids x race ht, hx]

/-- Every race is in a group that the iterator yields. -/
theorem exists_shown (h : TableOf races ids d) (idOf : InstructionNode → κ)
    (hids : ∀ x, ids x = (idOf x.readNode, idOf x.writeNode)) {first : First PersistencyRace}
    {groups : List RaceGroup} (hgroups : racesIterator first d = .ok groups)
    {race : PersistencyRace} (hrace : race ∈ races) :
    ∃ g ∈ groups, ∃ w ∈ g.writeNodes,
      idOf race.readNode = idOf g.readNode ∧ idOf race.writeNode = idOf w := by
  obtain ⟨groups', hgroups', -, hex⟩ := racesIterator_spec first h.filled
  obtain rfl := Except.ok.inj (hgroups.symm.trans hgroups')
  have hkey : (ids race).1 ∈ d.keys := by
    rw [h.groups.keys, mem_firstOccurrences]
    exact List.mem_map_of_mem hrace
  have hkey₂ : (ids race).2 ∈ (d.getD (ids race).1 .empty).keys :=
    h.mem_keys₂.mpr ⟨race, hrace, rfl⟩
  obtain ⟨g, hg, hy⟩ := hex _ hkey
  obtain ⟨writeId, shown, -, hpick, hread, -⟩ := hy.nodes
  obtain ⟨other, hother, -⟩ := First.next_eq_ok first (h.filled.sets _ _ hkey₂)
  have hshown := h.ids_of_pick hpick
  have hwrite := h.ids_of_pick hother
  rw [hids, hids] at hshown hwrite
  refine ⟨g, hg, other.writeNode, (hy.writes _).mpr ⟨_, hkey₂, other, hother, rfl⟩, ?_, ?_⟩
  · rw [hread]
    exact (Prod.ext_iff.mp hshown).1.symm
  · exact (Prod.ext_iff.mp hwrite).2.symm

end TableOf

end Combinations

namespace PersistencyRaces

theorem tableOf_racesByPc (races : List PersistencyRace) :
    TableOf races PersistencyRace.idByPc (ofRaces races).racesByPc where
  groups := groups_racesByPc races
  ids := by
    intro x y h
    unfold PersistencyRace.triple at h
    simp only [Prod.mk.injEq] at h
    unfold PersistencyRace.idByPc
    rw [h.1, h.2.1]

theorem tableOf_racesByInfo (races : List PersistencyRace) :
    TableOf races PersistencyRace.idByInfo (ofRaces races).racesByInfo where
  groups := groups_racesByInfo races
  ids := by
    intro x y h
    unfold PersistencyRace.triple at h
    simp only [Prod.mk.injEq] at h
    unfold PersistencyRace.idByInfo
    rw [h.1, h.2.1]

/-- A group of the iterator over the races by program counters or by infos. -/
def YieldsBy (races : List PersistencyRace) (first : First PersistencyRace) (groupByInfo : Bool)
    (g : RaceGroup) : Prop :=
  if groupByInfo then ∃ readId ∈ (ofRaces races).racesByInfo.keys,
    Yields first (ofRaces races).racesByInfo readId g
  else ∃ readId ∈ (ofRaces races).racesByPc.keys, Yields first (ofRaces races).racesByPc readId g

theorem raceNodes_spec (races : List PersistencyRace) (first : First PersistencyRace)
    (groupByInfo : Bool) : ∃ groups, (ofRaces races).raceNodes first groupByInfo = .ok groups ∧
      ∀ g ∈ groups, YieldsBy races first groupByInfo g := by
  cases groupByInfo with
  | false =>
    obtain ⟨groups, hgroups, hall, -⟩ := racesIterator_spec first (tableOf_racesByPc races).filled
    exact ⟨groups, hgroups, hall⟩
  | true =>
    obtain ⟨groups, hgroups, hall, -⟩ := racesIterator_spec first (tableOf_racesByInfo races).filled
    exact ⟨groups, hgroups, hall⟩

theorem YieldsBy.writeNodes_ne {races : List PersistencyRace} {first : First PersistencyRace}
    {groupByInfo : Bool} {g : RaceGroup} (h : YieldsBy races first groupByInfo g) :
    g.writeNodes ≠ [] := by
  cases groupByInfo with
  | false =>
    obtain ⟨readId, -, hy⟩ := h
    exact hy.writeNodes_ne
  | true =>
    obtain ⟨readId, -, hy⟩ := h
    exact hy.writeNodes_ne

/-- Every combination of the nodes that an iterator yields for a group is a race of the set. -/
def YieldsRaces (rs : PersistencyRaces) : Prop :=
  ∀ first groupByInfo, ∃ groups, rs.raceNodes first groupByInfo = .ok groups ∧
    ∀ g ∈ groups, ∀ w ∈ g.writeNodes, rs.Reports g.readNode w g.dependentNode

/-- The tours are made without a failed assertion. -/
def MakesTours (rs : PersistencyRaces) : Prop :=
  ∀ first firstNode groupByInfo, ∃ tours, rs.toCodeTours first firstNode groupByInfo = .ok tours

theorem yieldsRaces_iff (races : List PersistencyRace) : (ofRaces races).YieldsRaces ↔
    Combines races PersistencyRace.idByPc ∧ Combines races PersistencyRace.idByInfo := by
  unfold YieldsRaces
  simp only [reports_ofRaces]
  constructor
  · intro h
    exact ⟨(tableOf_racesByPc races).combines_of_triple_mem fun first => h first false,
      (tableOf_racesByInfo races).combines_of_triple_mem fun first => h first true⟩
  · intro h first groupByInfo
    obtain ⟨groups, hgroups, hall⟩ := raceNodes_spec races first groupByInfo
    refine ⟨groups, hgroups, fun g hg w hw => ?_⟩
    have hy := hall g hg
    cases groupByInfo with
    | false =>
      obtain ⟨readId, -, hy⟩ := hy
      exact (tableOf_racesByPc races).triple_mem_of_combines h.1 hy hw
    | true =>
      obtain ⟨readId, -, hy⟩ := hy
      exact (tableOf_racesByInfo races).triple_mem_of_combines h.2 hy hw

/-- A tour of the nodes of a race can be made. -/
theorem makesTours_of_yieldsRaces {races : List PersistencyRace}
    (hvalid : ∀ race ∈ races, race.IsValid) (h : (ofRaces races).YieldsRaces) :
    (ofRaces races).MakesTours := by
  intro first firstNode groupByInfo
  obtain ⟨groups, hgroups, hreports⟩ := h first groupByInfo
  obtain ⟨groups', hgroups', hall⟩ := raceNodes_spec races first groupByInfo
  obtain rfl := Except.ok.inj (hgroups.symm.trans hgroups')
  unfold toCodeTours
  rw [hgroups, ok_bind]
  obtain ⟨tours, htours, -⟩ := exists_mapM (R := fun _ _ => True) (l := groups) (f := fun g => do
      let writeNode ← firstNode.next g.writeNodes
      PersistencyRace.create g.readNode writeNode g.dependentNode none) fun g hg => by
    obtain ⟨w, hpick, hnext⟩ := First.next_eq_ok firstNode (hall g hg).writeNodes_ne
    have hmem := hreports g hg w (firstNode.mem _ _ hpick)
    rw [reports_ofRaces] at hmem
    obtain ⟨race, hrace, ht⟩ := List.mem_map.mp hmem
    unfold PersistencyRace.triple at ht
    simp only [Prod.mk.injEq] at ht
    obtain ⟨tour, htour⟩ := (hvalid race hrace).exists_create none
    rw [ht.1, ht.2.1, ht.2.2] at htour
    exact ⟨tour, by rw [hnext]; exact htour, trivial⟩
  exact ⟨tours, htours⟩

/-- The iterators yield races only, and the tours can be made, exactly when the races of the read
ids combine. -/
theorem only_real_races_iff {races : List PersistencyRace} (hvalid : ∀ race ∈ races, race.IsValid) :
    ((ofRaces races).YieldsRaces ∧ (ofRaces races).MakesTours) ↔
      Combines races PersistencyRace.idByPc ∧ Combines races PersistencyRace.idByInfo := by
  rw [← yieldsRaces_iff]
  exact and_iff_left_of_imp (makesTours_of_yieldsRaces hvalid)

/-- An access of eight bytes whose info is its program counter in words. -/
def access (ident : ℕ) (itype : NodeType) (h : itype.isInstructionType = true)
    (tid pc address : ℕ) : InstructionNode :=
  ⟨ident, itype, tid, pc, address, 8, false, false, .text (Nat.toDigits 10 pc), none, none, h,
    word_ne_zero⟩

/-- The load of counter 1 reads what the store of counter 2 wrote. -/
def firstRace : PersistencyRace :=
  ⟨access 0 .read NodeType.isInstructionType_read 0 1 0,
    access 1 .write NodeType.isInstructionType_write 1 2 0,
    access 2 .write NodeType.isInstructionType_write 0 3 64, none⟩

/-- The same load reads elsewhere what the store of counter 4 wrote. -/
def secondRace : PersistencyRace :=
  ⟨access 3 .read NodeType.isInstructionType_read 0 1 128,
    access 4 .write NodeType.isInstructionType_write 1 4 128,
    access 5 .write NodeType.isInstructionType_write 0 3 192, none⟩

/-- The same load reads the same bytes as written by the store of counter 4. -/
def thirdRace : PersistencyRace :=
  ⟨firstRace.readNode, access 6 .write NodeType.isInstructionType_write 2 4 0,
    firstRace.dependentNode, none⟩

theorem only_real_races_iff_two :
    (ofRaces [firstRace, thirdRace]).YieldsRaces ∧ (ofRaces [firstRace, thirdRace]).MakesTours := by
  have hvalid : ∀ race ∈ [firstRace, thirdRace], race.IsValid := by
    intro race hrace
    simp only [List.mem_cons, List.not_mem_nil, or_false] at hrace
    rcases hrace with rfl | rfl <;> rfl
  have htriples : ∀ race ∈ [firstRace, thirdRace], ∀ race' ∈ [firstRace, thirdRace],
      (race.readNode, race'.writeNode, race.dependentNode) ∈
        [firstRace, thirdRace].map PersistencyRace.triple := by decide
  exact (only_real_races_iff hvalid).mpr
    ⟨fun _ _ _ race hrace _ race' hrace' _ _ => htriples race hrace race' hrace',
      fun _ _ _ race hrace _ race' hrace' _ _ => htriples race hrace race' hrace'⟩

/-- The group of the load shows a write of the second race with the read of the first, which do not
overlap. -/
theorem yields_no_race : firstRace.IsValid ∧ secondRace.IsValid ∧
    (∃ groups, (ofRaces [firstRace, secondRace]).raceNodes .head false = .ok groups ∧
      ∃ g ∈ groups, ∃ w ∈ g.writeNodes,
        ¬ (ofRaces [firstRace, secondRace]).Reports g.readNode w g.dependentNode) ∧
    (ofRaces [firstRace, secondRace]).toCodeTours .head
      (.preferring (fun n => n.pc = 4) fun _ => false) false = .error (.assertionError "") := by
  refine ⟨rfl, rfl, ⟨_, rfl, _, List.mem_singleton_self _, secondRace.writeNode, ?_, ?_⟩, rfl⟩
  · decide
  · rw [reports_ofRaces]
    decide

end PersistencyRaces

end Prd.Pycprd
