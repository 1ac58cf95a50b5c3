import Prd.Foundation.OrderedDict
import Prd.Pycprd.Nodes

/-!
# Persistency races

A race is compared by its three nodes only. The collection keeps the set of races
and the indexes that reports are made from.
-/
namespace Prd.Pycprd

open Prd.Foundation

structure PersistencyRace where
  readNode : InstructionNode
  writeNode : InstructionNode
  dependentNode : InstructionNode
  isWriteHbDependent : Option Bool

namespace PersistencyRace

/-- Construction with `validate=True`. -/
def create (readNode writeNode dependentNode : InstructionNode)
    (isWriteHbDependent : Option Bool) : Py PersistencyRace := do
  pyAssert (readNode.tid == dependentNode.tid) ""
  pyAssert (readNode.isIntervalOverlap writeNode) ""
  pyAssert (!readNode.isIntervalOverlap dependentNode) ""
  pyAssert (!writeNode.isIntervalOverlap dependentNode) ""
  pure ⟨readNode, writeNode, dependentNode, isWriteHbDependent⟩

/-- The race has passed its checks. -/
def IsValid (race : PersistencyRace) : Prop :=
  create race.readNode race.writeNode race.dependentNode race.isWriteHbDependent = .ok race

/-- The checks are on the nodes only. -/
theorem IsValid.exists_create {race : PersistencyRace} (h : race.IsValid)
    (isWriteHbDependent : Option Bool) :
    ∃ race', create race.readNode race.writeNode race.dependentNode isWriteHbDependent = .ok
    race' := by
  obtain ⟨_, h₁, h⟩ := bind_eq_ok.mp h
  obtain ⟨_, h₂, h⟩ := bind_eq_ok.mp h
  obtain ⟨_, h₃, h⟩ := bind_eq_ok.mp h
  obtain ⟨_, h₄, -⟩ := bind_eq_ok.mp h
  refine ⟨⟨race.readNode, race.writeNode, race.dependentNode, isWriteHbDependent⟩, ?_⟩
  unfold create
  rw [h₁, ok_bind, h₂, ok_bind, h₃, ok_bind, h₄]
  rfl

/-- The fields that take part in comparisons. -/
def triple (race : PersistencyRace) : InstructionNode × InstructionNode × InstructionNode :=
  (race.readNode, race.writeNode, race.dependentNode)

def isInter (race : PersistencyRace) : Bool := race.readNode.tid != race.writeNode.tid

def isIntra (race : PersistencyRace) : Bool := !race.isInter

def tstate (race : PersistencyRace) : String := if race.isInter then "inter" else "intra"

def wxHbWy (race : PersistencyRace) : String :=
  if race.isWriteHbDependent = some true then "W(X)->W(Y)" else "W(X)|W(Y)"

end PersistencyRace

/-- The method `add` of a set of races. -/
def addToSet (races : List PersistencyRace) (race : PersistencyRace) : List PersistencyRace :=
  if race.triple ∈ races.map PersistencyRace.triple then races else races ++ [race]

structure PersistencyRaces where
  races : List PersistencyRace
  racesByPc : Table ℕ PersistencyRace
  racesByPcTstate : Table ℕ String
  racesPcsByTstate : OrderedDict String (List (ℕ × ℕ))
  racesByPcWxHbWy : Table Info String
  racesByRwPcs : OrderedDict (ℕ × ℕ) (List PersistencyRace)
  racesByInfo : Table Info PersistencyRace
  racesByInfoTstate : Table Info String
  racesByInfoWxHbWy : Table Info String

namespace PersistencyRaces

def new : PersistencyRaces :=
  ⟨[], .empty, .empty, .empty, .empty, .empty, .empty, .empty, .empty⟩

/-- The table `_races_by_pc_wx_hb_wy` is indexed by infos as well. -/
def addRace (rs : PersistencyRaces) (race : PersistencyRace) : PersistencyRaces :=
  let tstate := race.tstate
  let wxHbWy := race.wxHbWy
  let readPc := race.readNode.pc
  let writePc := race.writeNode.pc
  let readInfo := race.readNode.info
  let writeInfo := race.writeNode.info
  { races := addToSet rs.races race
    racesByPc := rs.racesByPc.update₂ readPc writePc (addToSet · race)
    racesByRwPcs := rs.racesByRwPcs.update (readPc, writePc) (addToSet · race)
    racesByPcTstate := rs.racesByPcTstate.update₂ readPc writePc (List.insert tstate)
    racesPcsByTstate := rs.racesPcsByTstate.update tstate (List.insert (readPc, writePc))
    racesByPcWxHbWy := rs.racesByPcWxHbWy.update₂ readInfo writeInfo (List.insert wxHbWy)
    racesByInfo := rs.racesByInfo.update₂ readInfo writeInfo (addToSet · race)
    racesByInfoTstate := rs.racesByInfoTstate.update₂ readInfo writeInfo (List.insert tstate)
    racesByInfoWxHbWy := rs.racesByInfoWxHbWy.update₂ readInfo writeInfo (List.insert wxHbWy) }

/-- The set of reported triples. -/
def Reports (rs : PersistencyRaces) (r w d : InstructionNode) : Prop :=
  (r, w, d) ∈ rs.races.map PersistencyRace.triple

@[simp] theorem not_reports_new (r w d : InstructionNode) : ¬ new.Reports r w d := by
  simp [Reports, new]

theorem mem_races_addRace {rs : PersistencyRaces} {race x : PersistencyRace}
    (h : x ∈ (rs.addRace race).races) : x ∈ rs.races ∨ x = race := by
  unfold addRace addToSet at h
  simp only at h
  split_ifs at h
  · exact Or.inl h
  · simpa using h

@[simp] theorem reports_addRace (rs : PersistencyRaces) (race : PersistencyRace)
    (r w d : InstructionNode) :
    (rs.addRace race).Reports r w d ↔ rs.Reports r w d ∨ (r, w, d) = race.triple := by
  unfold Reports addRace addToSet
  simp only
  split_ifs with h
  · exact ⟨Or.inl, fun ho => ho.elim id (fun he => he ▸ h)⟩
  · simp

end PersistencyRaces

end Prd.Pycprd
