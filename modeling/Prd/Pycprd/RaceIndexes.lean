import Prd.Pycprd.RaceGroups

/-!
# The indexes of the races and the labels of a report

Every index groups the added races by its key, except that the index of happens-before labels by
program counters is filed under infos. A report looks its labels up by the ids of its entries.
-/
namespace Prd.Pycprd

open Prd.Foundation

/-- What an access is grouped by: its info, or its program counter, which is a key like an info that
is an integer. -/
def groupId (groupByInfo : Bool) (n : InstructionNode) : Info :=
  if groupByInfo then n.info else .int n.pc

/-- A table by program counters, looked up by any key. -/
def atPcs {α : Type} (d : Table ℕ α) : Info → Info → List α
  | .int (.ofNat k), .int (.ofNat k') => d.at₂ k k'
  | _, _ => []

/-- The line of a write in a report, before it is set in text. -/
structure WriteEntry where
  writeNode : InstructionNode
  allRaces : List PersistencyRace
  total : ℕ
  tstate : List String
  wxHbWy : List String

/-- A group in a report. -/
structure RaceEntry where
  index : ℕ
  readNode : InstructionNode
  dependentNode : InstructionNode
  writes : List WriteEntry

namespace PersistencyRaces

variable (rs : PersistencyRaces)

def racesByGroup (groupByInfo : Bool) : Info → Info → List PersistencyRace :=
  if groupByInfo then rs.racesByInfo.at₂ else atPcs rs.racesByPc

def racesByGroupTstate (groupByInfo : Bool) : Info → Info → List String :=
  if groupByInfo then rs.racesByInfoTstate.at₂ else atPcs rs.racesByPcTstate

def racesByGroupWxHbWy (groupByInfo : Bool) : Info → Info → List String :=
  if groupByInfo then rs.racesByInfoWxHbWy.at₂ else rs.racesByPcWxHbWy.at₂

def writeEntry (groupByInfo : Bool) (readNode writeNode : InstructionNode) : WriteEntry :=
  let readId := groupId groupByInfo readNode
  let writeId := groupId groupByInfo writeNode
  { writeNode := writeNode
    allRaces := rs.racesByGroup groupByInfo readId writeId
    total := rs.races.length
    tstate := rs.racesByGroupTstate groupByInfo readId writeId
    wxHbWy := rs.racesByGroupWxHbWy groupByInfo readId writeId }

/-- The numbers and labels that are shown. -/
def toStr (first : First PersistencyRace) (groupByInfo : Bool) : Py (List RaceEntry) := do
  let races ← rs.raceNodes first groupByInfo
  pure (races.map fun g => ⟨g.index + 1, g.readNode, g.dependentNode,
    g.writeNodes.map (rs.writeEntry groupByInfo g.readNode)⟩)

section Indexes

variable {races : List PersistencyRace}

/-- The race is in the group of a read and a write. -/
def InGroup (groupByInfo : Bool) (race : PersistencyRace) (readNode writeNode : InstructionNode) :
    Prop :=
  groupId groupByInfo race.readNode = groupId groupByInfo readNode ∧
    groupId groupByInfo race.writeNode = groupId groupByInfo writeNode

/-- The indexes that group the races by their keys. -/
structure IndexesGroup (rs : PersistencyRaces) (races : List PersistencyRace) : Prop where
  set : ∀ race, race ∈ rs.races ↔ race ∈ races
  byPc : rs.racesByPc.Groups races PersistencyRace.idByPc id id
  byPcTstate : rs.racesByPcTstate.Groups races PersistencyRace.idByPc PersistencyRace.tstate id
  pcsByTstate : rs.racesPcsByTstate.Groups races PersistencyRace.tstate PersistencyRace.idByPc
  byRwPcs : rs.racesByRwPcs.Groups races PersistencyRace.idByPc id
  byInfo : rs.racesByInfo.Groups races PersistencyRace.idByInfo id id
  byInfoTstate : rs.racesByInfoTstate.Groups races PersistencyRace.idByInfo
    PersistencyRace.tstate id
  byInfoWxHbWy : rs.racesByInfoWxHbWy.Groups races PersistencyRace.idByInfo
    PersistencyRace.wxHbWy id

/-- Some race has the keys and the happens-before label. -/
def HasLabel (races : List PersistencyRace) (groupByInfo : Bool) (readId writeId : Info)
    (label : String) : Prop :=
  ∃ race ∈ races, groupId groupByInfo race.readNode = readId ∧
    groupId groupByInfo race.writeNode = writeId ∧ race.wxHbWy = label

/-- The index of the happens-before labels by program counters has them there and nowhere else. -/
def GroupsWxHbWyByPc (rs : PersistencyRaces) (races : List PersistencyRace) : Prop :=
  ∀ readId writeId label,
    label ∈ rs.racesByPcWxHbWy.at₂ readId writeId ↔ HasLabel races false readId writeId label

/-- The races have the same labels by their infos as by their program counters. -/
def InfosLikePcs (races : List PersistencyRace) : Prop :=
  ∀ readId writeId label,
    HasLabel races true readId writeId label ↔ HasLabel races false readId writeId label

/-- A report has every group, and shows exactly the labels of the races of each. -/
def Shows (rs : PersistencyRaces) (races : List PersistencyRace) (groupByInfo : Bool)
    (shown : WriteEntry → List String) (label : PersistencyRace → String) : Prop :=
  ∀ first, ∃ entries, rs.toStr first groupByInfo = .ok entries ∧
    (∀ race ∈ races, ∃ e ∈ entries, ∃ w ∈ e.writes,
      InGroup groupByInfo race e.readNode w.writeNode) ∧
    ∀ e ∈ entries, ∀ w ∈ e.writes, ∀ t, t ∈ shown w ↔
      ∃ race ∈ races, InGroup groupByInfo race e.readNode w.writeNode ∧ label race = t

structure Consistent (rs : PersistencyRaces) (races : List PersistencyRace) : Prop where
  indexes : rs.IndexesGroup races
  byPcWxHbWy : rs.GroupsWxHbWyByPc races
  tstate : ∀ groupByInfo, rs.Shows races groupByInfo WriteEntry.tstate PersistencyRace.tstate
  wxHbWy : ∀ groupByInfo, rs.Shows races groupByInfo WriteEntry.wxHbWy PersistencyRace.wxHbWy

theorem mem_addToSet {l : List PersistencyRace} {race x : PersistencyRace}
    (h : race.triple ∉ l.map PersistencyRace.triple) : x ∈ addToSet l race ↔ x ∈ l ∨ x = race := by
  unfold addToSet
  rw [if_neg h]
  simp

/-- A new race is added to each of its sets. -/
theorem indexesGroup_ofRaces (hnd : (races.map PersistencyRace.triple).Nodup) :
    (ofRaces races).IndexesGroup races := by
  induction races using List.reverseRecOn with
  | nil => exact ⟨fun _ => Iff.rfl, Table.groups_empty _ _ rfl, Table.groups_empty _ _ rfl,
      OrderedDict.groups_empty _ _, OrderedDict.groups_empty _ _, Table.groups_empty _ _ rfl,
      Table.groups_empty _ _ rfl, Table.groups_empty _ _ rfl⟩
  | append_singleton races race ih =>
    rw [List.map_append, List.map_singleton] at hnd
    have hnew : race.triple ∉ races.map PersistencyRace.triple := fun hmem =>
      List.disjoint_of_nodup_append hnd hmem (List.mem_singleton_self _)
    have h := ih hnd.of_append_left
    have hset {l : List PersistencyRace} (hl : ∀ x ∈ l, x ∈ races) (x : PersistencyRace) :
        x ∈ addToSet l race ↔ x ∈ l ∨ x = race := by
      refine mem_addToSet fun hmem => hnew ?_
      obtain ⟨y, hy, ht⟩ := List.mem_map.mp hmem
      exact List.mem_map.mpr ⟨y, hl y hy, ht⟩
    have hinsert {α : Type} [BEq α] [LawfulBEq α] (l : List α) (x y : α) :
        y ∈ l.insert x ↔ y ∈ l ∨ y = x := by
      rw [List.mem_insert_iff, or_comm]
    have hrwPcs : ∀ x ∈ (ofRaces races).racesByRwPcs.getD race.idByPc [], x ∈ races := by
      intro x hx
      obtain ⟨y, hy, -, rfl⟩ := (h.byRwPcs.mem _ x).mp hx
      exact hy
    have hrw : ((ofRaces races).racesByRwPcs.update race.idByPc (addToSet · race)).Groups
        (races ++ [race]) PersistencyRace.idByPc id := h.byRwPcs.update race (hset hrwPcs)
    rw [ofRaces_append_singleton]
    refine ⟨fun x => ?_, h.byPc.update₂ race (hset (h.byPc.mem_of_mem_at₂ _ _)),
      h.byPcTstate.update₂ race (hinsert _ _), h.pcsByTstate.update race (hinsert _ _),
      hrw, h.byInfo.update₂ race (hset (h.byInfo.mem_of_mem_at₂ _ _)),
      h.byInfoTstate.update₂ race (hinsert _ _), h.byInfoWxHbWy.update₂ race (hinsert _ _)⟩
    show x ∈ addToSet (ofRaces races).races race ↔ _
    rw [hset (fun y hy => (h.set y).mp hy), h.set, List.mem_append, List.mem_singleton]

/-- The table by program counters is filed under infos. -/
theorem groups_racesByPcWxHbWy (races : List PersistencyRace) :
    (ofRaces races).racesByPcWxHbWy.Groups races PersistencyRace.idByInfo PersistencyRace.wxHbWy
      id := by
  induction races using List.reverseRecOn with
  | nil => exact Table.groups_empty _ _ rfl
  | append_singleton races race ih =>
    rw [ofRaces_append_singleton]
    refine ih.update₂ race fun t => ?_
    rw [id, id, List.mem_insert_iff, or_comm]

theorem mem_racesByPcWxHbWy {readId writeId : Info} {label : String} :
    label ∈ (ofRaces races).racesByPcWxHbWy.at₂ readId writeId ↔
      HasLabel races true readId writeId label := by
  refine ((groups_racesByPcWxHbWy races).mem readId writeId label).trans ?_
  simp [HasLabel, PersistencyRace.idByInfo, groupId, and_assoc]

theorem groupsWxHbWyByPc_iff : (ofRaces races).GroupsWxHbWyByPc races ↔ InfosLikePcs races := by
  unfold GroupsWxHbWyByPc InfosLikePcs
  simp only [mem_racesByPcWxHbWy]

/-- Infos that are no integers are like no program counters. -/
theorem infosLikePcs_iff_eq_nil (hno : ∀ race ∈ races, ∀ k, race.readNode.info ≠ .int k) :
    InfosLikePcs races ↔ races = [] := by
  constructor
  · intro h
    by_contra hne
    obtain ⟨race, hrace⟩ := List.exists_mem_of_ne_nil races hne
    obtain ⟨race', -, hread, -⟩ := (h _ _ _).mp ⟨race, hrace, rfl, rfl, rfl⟩
    exact hno race hrace race'.readNode.pc hread.symm
  · rintro rfl
    simp [InfosLikePcs, HasLabel]

theorem inGroup_false {race : PersistencyRace} {r w : InstructionNode} :
    InGroup false race r w ↔ race.idByPc = (r.pc, w.pc) := by
  simp [InGroup, groupId, PersistencyRace.idByPc]

theorem inGroup_true {race : PersistencyRace} {r w : InstructionNode} :
    InGroup true race r w ↔ race.idByInfo = (r.info, w.info) := by
  simp [InGroup, groupId, PersistencyRace.idByInfo]

/-- Every race is in a group that the iterator yields. -/
theorem exists_inGroup (races : List PersistencyRace) (first : First PersistencyRace)
    (groupByInfo : Bool) {groups : List RaceGroup}
    (hgroups : (ofRaces races).raceNodes first groupByInfo = .ok groups) {race : PersistencyRace}
    (hrace : race ∈ races) :
    ∃ g ∈ groups, ∃ w ∈ g.writeNodes, InGroup groupByInfo race g.readNode w := by
  cases groupByInfo with
  | false =>
    obtain ⟨g, hg, w, hw, hr, hwr⟩ := (tableOf_racesByPc races).exists_shown InstructionNode.pc
      (fun _ => rfl) hgroups hrace
    exact ⟨g, hg, w, hw, inGroup_false.mpr (Prod.ext hr hwr)⟩
  | true =>
    obtain ⟨g, hg, w, hw, hr, hwr⟩ := (tableOf_racesByInfo races).exists_shown InstructionNode.info
      (fun _ => rfl) hgroups hrace
    exact ⟨g, hg, w, hw, inGroup_true.mpr (Prod.ext hr hwr)⟩

/-- A report is made, has every group, and an entry for each of its writes. -/
theorem toStr_spec (races : List PersistencyRace) (first : First PersistencyRace)
    (groupByInfo : Bool) :
    ∃ entries, (ofRaces races).toStr first groupByInfo = .ok entries ∧
      (∀ race ∈ races, ∃ e ∈ entries, ∃ w ∈ e.writes,
        InGroup groupByInfo race e.readNode w.writeNode) ∧
      ∀ e ∈ entries, ∀ w ∈ e.writes,
        w = (ofRaces races).writeEntry groupByInfo e.readNode w.writeNode := by
  obtain ⟨groups, hgroups, -⟩ := raceNodes_spec races first groupByInfo
  refine ⟨_, by unfold toStr; rw [hgroups]; rfl, ?_, ?_⟩
  · intro race hrace
    obtain ⟨g, hg, w, hw, hin⟩ := exists_inGroup races first groupByInfo hgroups hrace
    exact ⟨_, List.mem_map_of_mem hg, _, List.mem_map_of_mem hw, hin⟩
  · intro e he w hw
    obtain ⟨g, -, rfl⟩ := List.mem_map.mp he
    obtain ⟨n, -, rfl⟩ := List.mem_map.mp hw
    rfl

/-- A report shows the labels that are found for the ids of its entries. -/
theorem shows_of_mem_iff {groupByInfo : Bool} {shown : WriteEntry → List String}
    {label : PersistencyRace → String}
    (h : ∀ r w t, t ∈ shown ((ofRaces races).writeEntry groupByInfo r w) ↔
      ∃ race ∈ races, InGroup groupByInfo race r w ∧ label race = t) :
    (ofRaces races).Shows races groupByInfo shown label := by
  intro first
  obtain ⟨entries, hentries, hall, hwrites⟩ := toStr_spec races first groupByInfo
  refine ⟨entries, hentries, hall, fun e he w hw t => ?_⟩
  rw [hwrites e he w hw]
  exact h e.readNode w.writeNode t

theorem shows_tstate (hnd : (races.map PersistencyRace.triple).Nodup) (groupByInfo : Bool) :
    (ofRaces races).Shows races groupByInfo WriteEntry.tstate PersistencyRace.tstate := by
  refine shows_of_mem_iff fun r w t => ?_
  have h := indexesGroup_ofRaces hnd
  cases groupByInfo with
  | false =>
    simp only [inGroup_false]
    exact h.byPcTstate.mem r.pc w.pc t
  | true =>
    simp only [inGroup_true]
    exact h.byInfoTstate.mem r.info w.info t

theorem shows_wxHbWy_byInfo (hnd : (races.map PersistencyRace.triple).Nodup) :
    (ofRaces races).Shows races true WriteEntry.wxHbWy PersistencyRace.wxHbWy := by
  refine shows_of_mem_iff fun r w t => ?_
  simp only [inGroup_true]
  exact (indexesGroup_ofRaces hnd).byInfoWxHbWy.mem r.info w.info t

theorem shows_wxHbWy_byPc (h : InfosLikePcs races) :
    (ofRaces races).Shows races false WriteEntry.wxHbWy PersistencyRace.wxHbWy := by
  refine shows_of_mem_iff fun r w t => ?_
  have hmem : t ∈ ((ofRaces races).writeEntry false r w).wxHbWy ↔
      HasLabel races true (.int r.pc) (.int w.pc) t := mem_racesByPcWxHbWy
  rw [hmem, h]
  simp [HasLabel, InGroup, groupId, and_assoc]

/-- The indexes and the reports are those of the added races exactly when their infos are like their
program counters. The index of the happens-before labels by program counters is filed under infos,
and all the others are right. -/
theorem race_indexes_iff (hnd : (races.map PersistencyRace.triple).Nodup) :
    ((ofRaces races).Consistent races ↔ InfosLikePcs races) ∧ (ofRaces races).IndexesGroup races ∧
      (ofRaces races).racesByPcWxHbWy.Groups races PersistencyRace.idByInfo PersistencyRace.wxHbWy
        id ∧
      (∀ groupByInfo, (ofRaces races).Shows races groupByInfo WriteEntry.tstate
        PersistencyRace.tstate) ∧
      (ofRaces races).Shows races true WriteEntry.wxHbWy PersistencyRace.wxHbWy := by
  refine ⟨⟨fun h => groupsWxHbWyByPc_iff.mp h.byPcWxHbWy, fun h => ?_⟩, indexesGroup_ofRaces hnd,
    groups_racesByPcWxHbWy races, shows_tstate hnd, shows_wxHbWy_byInfo hnd⟩
  refine ⟨indexesGroup_ofRaces hnd, groupsWxHbWyByPc_iff.mpr h, shows_tstate hnd,
    fun groupByInfo => ?_⟩
  cases groupByInfo with
  | false => exact shows_wxHbWy_byPc h
  | true => exact shows_wxHbWy_byInfo hnd

/-- Infos that are the program counters are like them. -/
theorem infosLikePcs_of_eq (h : ∀ race ∈ races, race.readNode.info = .int race.readNode.pc ∧
    race.writeNode.info = .int race.writeNode.pc) : InfosLikePcs races := by
  intro readId writeId label
  refine exists_congr fun race => and_congr_right fun hrace => ?_
  obtain ⟨hread, hwrite⟩ := h race hrace
  simp [groupId, hread, hwrite]

/-- The race with the program counters as infos. -/
def numbered (race : PersistencyRace) : PersistencyRace :=
  { race with
    readNode := { race.readNode with info := .int race.readNode.pc }
    writeNode := { race.writeNode with info := .int race.writeNode.pc } }

theorem race_indexes_iff_numbered :
    (ofRaces [numbered firstRace, numbered secondRace, numbered thirdRace]).Consistent
      [numbered firstRace, numbered secondRace, numbered thirdRace] := by
  refine (race_indexes_iff (by decide)).1.mpr (infosLikePcs_of_eq fun race hrace => ?_)
  simp only [List.mem_cons, List.not_mem_nil, or_false] at hrace
  rcases hrace with rfl | rfl | rfl
  · exact ⟨rfl, rfl⟩
  · exact ⟨rfl, rfl⟩
  · exact ⟨rfl, rfl⟩

/-- A report by program counters shows no happens-before label for its only race. -/
theorem label_by_pc_missing : ([firstRace].map PersistencyRace.triple).Nodup ∧
    (∃ entries, (ofRaces [firstRace]).toStr .head false = .ok entries ∧
      ∃ e ∈ entries, ∃ w ∈ e.writes, InGroup false firstRace e.readNode w.writeNode ∧
        w.wxHbWy = []) ∧
    ¬ (ofRaces [firstRace]).Consistent [firstRace] := by
  refine ⟨List.nodup_singleton _, ⟨_, rfl, _, List.mem_singleton_self _, _,
    List.mem_singleton_self _, ⟨rfl, rfl⟩, rfl⟩, fun h => ?_⟩
  have hnil := (infosLikePcs_iff_eq_nil ?_).mp
    (groupsWxHbWyByPc_iff.mp h.byPcWxHbWy)
  · cases hnil
  · intro race hrace k
    rw [List.mem_singleton.mp hrace]
    exact Info.noConfusion

end Indexes

end PersistencyRaces

end Prd.Pycprd
