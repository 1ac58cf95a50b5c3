import Prd.Pycprd.DirtyVector
import Prd.Pycprd.Hbg
import Prd.Pycprd.Pdg
import Prd.Pycprd.Races
import Prd.Pycprd.VectorClock

/-!
# The persistency race detector

A backward sweep over the graph gives every read the clock of the writes that
happen after it. A forward sweep keeps for every thread and cache line what was
seen and what was persisted, and looks for races at every write. There are two
forward sweeps, the plain one and the faster one.
-/
namespace Prd.Pycprd

open Prd.Foundation

structure Flags where
  ignoreInterThreadEdges : Bool
  ignoreFlushNodes : Bool
  ignorePersistedBeforeIndex : Bool
  ignoreHappensAfterIndex : Bool
  ignoreReadNodePersistency : Bool
  showOnlyFirstBugInThread : Bool
  deriving DecidableEq

def Flags.default : Flags := ⟨false, false, false, false, false, false⟩

/-- Clocks of a table that makes one for its key on the first access. -/
abbrev ReversedClocks (κ : Type) := Dict κ ReversedVectorClock

abbrev LineClocks (κ : Type) := Dict κ (Dict Cacheline PersistencyVectorClock)

def LineClocks.clock {κ : Type} [DecidableEq κ] (d : LineClocks κ) (k : κ) (tid : ThreadId)
    (line : Cacheline) : PersistencyVectorClock :=
  (d.getD k ∅).getD line (.new tid)

def LineClocks.setClock {κ : Type} [DecidableEq κ] (d : LineClocks κ) (k : κ) (line : Cacheline)
    (pvc : PersistencyVectorClock) : LineClocks κ :=
  d.insert k ((d.getD k ∅).insert line pvc)

section HappensAfter

structure HappensAfterState where
  vcPerThread : ReversedClocks ThreadId
  vcPerEpochNode : ReversedClocks Node
  vcPerReadNode : ReversedClocks Node

def HappensAfterState.new : HappensAfterState := ⟨∅, ∅, ∅⟩

/-- Tell inter parents the current state. -/
def tellParents (vc : ReversedVectorClock) (parents : List Node) (clocks : ReversedClocks Node) :
    ReversedClocks Node :=
  parents.foldl (fun clocks parent =>
    clocks.insert parent ((clocks.getD parent (.new parent.tid)).merge vc)) clocks

def happensAfterStep (hbg : HBG) (flags : Flags) (s : HappensAfterState) (n : Node) :
    Py HappensAfterState := do
  let vc := s.vcPerThread.getD n.tid (.new n.tid)
  match n.itype with
  | .write =>
    let loc ← hbg.getNodeLocation n
    let vc ← vc.addEpoch (ReversedEpoch.ofInt loc.tindex)
    pure { s with vcPerThread := s.vcPerThread.insert n.tid vc }
  | .read =>
    let readVc := (s.vcPerReadNode.getD n (.new n.tid)).copyFrom vc
    pure { s with vcPerReadNode := s.vcPerReadNode.insert n readVc }
  | .flush => pure s
  | .epoch =>
    if flags.ignoreInterThreadEdges then pure s
    else
      let clocks := tellParents vc (hbg.getInterParents n) s.vcPerEpochNode
      -- Merge my state with thread state and delete me
      let vc := vc.merge (clocks.getD n (.new n.tid))
      pure { s with
        vcPerThread := s.vcPerThread.insert n.tid vc
        vcPerEpochNode := clocks.erase n }

def buildHappensAfterVectorClocks (hbg : HBG) (flags : Flags) (postorder : List Node) :
    Py (ReversedClocks Node) := do
  let s ← postorder.foldlM (happensAfterStep hbg flags) .new
  pure s.vcPerReadNode

end HappensAfter

section FindBugs

structure Findings where
  pvcPerThread : LineClocks ThreadId
  vcPerReadNode : ReversedClocks Node
  races : PersistencyRaces
  raceCounterDroppedByReadPersistency : ℕ

/-- What a write of the chain leads to: the next write, the end of the loop, or a report. -/
inductive Verdict
  | skip
  | stop
  | report (isWriteHbDependent : Bool)
  deriving DecidableEq

/-- The clocks of the loop over a chain, which its queries leave entries in. -/
structure ChainClocks where
  pvc : PersistencyVectorClock
  vc : ReversedVectorClock

/-- Is already persisted? -/
def checkPersisted (flags : Flags) (loc : NodeLocation) (c : ChainClocks) :
    Bool × PersistencyVectorClock :=
  if flags.ignorePersistedBeforeIndex then (false, c.pvc)
  else c.pvc.isEventPersisted loc.tid (Epoch.ofInt loc.tindex)

/-- Is happens after the read? -/
def checkAfter (flags : Flags) (loc : NodeLocation) (c : ChainClocks) :
    Bool × ReversedVectorClock :=
  if flags.ignoreHappensAfterIndex then (false, c.vc)
  else ReversedVectorClock.isHappensAfter c.vc loc.tid (ReversedEpoch.ofInt loc.tindex)

def inspect (flags : Flags) (loc : NodeLocation) (c : ChainClocks) : Verdict × ChainClocks :=
  let p := checkPersisted flags loc c
  if p.1 then (.skip, ⟨p.2, c.vc⟩)
  else
    let a := checkAfter flags loc c
    if a.1 then (.stop, ⟨p.2, a.2⟩)
    else
      let s := p.2.isEventHappenedBefore loc.tid (Epoch.ofInt loc.tindex)
      (.report s.1, ⟨s.2, a.2⟩)

def scanChain (hbg : HBG) (flags : Flags) (readNode dependentNode : InstructionNode) :
    List InstructionNode → ChainClocks → PersistencyRaces → Py (ChainClocks × PersistencyRaces)
  | [], c, races => pure (c, races)
  | writeNode :: chain, c, races => do
    if writeNode.isNonTemporal || !writeNode.isIntervalOverlap readNode then
      scanChain hbg flags readNode dependentNode chain c races
    else
      let loc ← hbg.getNodeLocation (.instruction writeNode)
      match inspect flags loc c with
      | (.skip, c) => scanChain hbg flags readNode dependentNode chain c races
      | (.stop, c) => pure (c, races)
      | (.report isHb, c) =>
        let race ← PersistencyRace.create readNode writeNode dependentNode (some isHb)
        let races := races.addRace race
        if flags.showOnlyFirstBugInThread then pure (c, races)
        else scanChain hbg flags readNode dependentNode chain c races

/-- The chain of a thread from its last persisted access on. -/
def chainToScan (hbg : HBG) (flags : Flags) (chains : DaisyChains) (readNode : InstructionNode)
    (pvc : PersistencyVectorClock) (tid : ThreadId) : Py (List InstructionNode) :=
  let lastPersistedEpoch :=
    if flags.ignorePersistedBeforeIndex then none else pvc.getPersistedEpoch tid
  match lastPersistedEpoch with
  | some epoch => do
    match ← hbg.getNodeByLocation ⟨tid, epoch⟩ with
    | .instruction n => chains.getChainByNode n
    | .epoch _ => throw .attributeError
  | none => chains.getChainByThread tid readNode.getCachelineAddress

def scanThreads (hbg : HBG) (flags : Flags) (chains : DaisyChains)
    (readNode dependentNode : InstructionNode) :
    List ThreadId → ChainClocks → PersistencyRaces → Py (ChainClocks × PersistencyRaces)
  | [], c, races => pure (c, races)
  | tid :: tids, c, races => do
    let chain ← chainToScan hbg flags chains readNode c.pvc tid
    let (c, races) ← scanChain hbg flags readNode dependentNode chain c races
    scanThreads hbg flags chains readNode dependentNode tids c races

/-- If the read is persisted, not a bug. -/
def checkReadPersisted (flags : Flags) (loc : NodeLocation) (pvc : PersistencyVectorClock) :
    Bool × PersistencyVectorClock :=
  if !flags.ignoreReadNodePersistency && !flags.ignorePersistedBeforeIndex then
    pvc.isEventPersisted loc.tid (Epoch.ofInt loc.tindex)
  else (false, pvc)

/-- The body of the loop of `_find_bugs` over the dependencies. -/
def scanRead (hbg : HBG) (flags : Flags) (dependentNode : InstructionNode) (s : Findings)
    (readNode : InstructionNode) : Py Findings := do
  pyAssert (readNode.getCachelineAddress != dependentNode.getCachelineAddress) ""
  let tid := dependentNode.tid
  let line := readNode.getCachelineAddress
  let pvc := s.pvcPerThread.clock tid tid line
  let loc ← hbg.getNodeLocation (.instruction readNode)
  let p := checkReadPersisted flags loc pvc
  if p.1 then
    pure { s with
      pvcPerThread := s.pvcPerThread.setClock tid line p.2
      raceCounterDroppedByReadPersistency := s.raceCounterDroppedByReadPersistency + 1 }
  else
    match hbg.daisyChains with
    | none => throw (.assertionError "Can't find bugs without daisy chains")
    | some chains =>
      let vc := s.vcPerReadNode.getD (.instruction readNode) (.new readNode.tid)
      let (c, races) ←
        scanThreads hbg flags chains readNode dependentNode hbg.tids ⟨p.2, vc⟩ s.races
      pure { s with
        pvcPerThread := s.pvcPerThread.setClock tid line c.pvc
        vcPerReadNode := s.vcPerReadNode.insert (.instruction readNode) c.vc
        races := races }

def findBugs (hbg : HBG) (pdg : PDG) (flags : Flags) (s : Findings)
    (dependentNode : InstructionNode) : Py Findings :=
  (pdg.getDependencies dependentNode).foldlM (scanRead hbg flags dependentNode) s

/-- The first lines of the cases `WRITE` and `READ`. -/
def addAccess (hbg : HBG) (s : Findings) (n : InstructionNode) : Py Findings := do
  let loc ← hbg.getNodeLocation (.instruction n)
  let pvc := s.pvcPerThread.clock n.tid n.tid n.getCachelineAddress
  let pvc ← pvc.addEpoch (Epoch.ofInt loc.tindex)
  pure { s with pvcPerThread := s.pvcPerThread.setClock n.tid n.getCachelineAddress pvc }

/-- The first lines of the case `FLUSH`. -/
def flushLine (s : Findings) (n : InstructionNode) : Findings :=
  let pvc := (s.pvcPerThread.clock n.tid n.tid n.getCachelineAddress).flush
  { s with pvcPerThread := s.pvcPerThread.setClock n.tid n.getCachelineAddress pvc }

/-- Gives the clocks of the listed lines of a thread to an epoch node. -/
def tellLines (clocks : LineClocks ThreadId) (tid : ThreadId) (child : Node)
    (lines : List Cacheline) (epochs : LineClocks Node) : LineClocks Node :=
  lines.foldl (fun epochs line =>
    epochs.setClock child line ((epochs.clock child child.tid line).merge
      (clocks.clock tid tid line))) epochs

/-- Merges the clocks of an epoch node with those of its thread. -/
def mergeLines (epochs : LineClocks Node) (n : Node) (clocks : LineClocks ThreadId) :
    LineClocks ThreadId :=
  (epochs.getD n ∅).keys.foldl (fun clocks line =>
    clocks.setClock n.tid line ((clocks.clock n.tid n.tid line).merge
      (epochs.clock n n.tid line))) clocks

end FindBugs

section Fast

structure FastState where
  found : Findings
  pvcPerEpochNode : LineClocks Node
  dirtyCachelines : Dict ThreadId DirtyCachelinesVector
  dirtyCachelinesPerEpoch : Dict Node DirtyCachelinesVector

namespace FastState

def new (vcPerReadNode : ReversedClocks Node) : FastState :=
  ⟨⟨∅, vcPerReadNode, .new, 0⟩, ∅, ∅, ∅⟩

def dirty (s : FastState) (hbg : HBG) (tid : ThreadId) : DirtyCachelinesVector :=
  s.dirtyCachelines.getD tid (.new tid hbg.tids)

def dirtyAtEpoch (s : FastState) (hbg : HBG) (n : Node) : DirtyCachelinesVector :=
  s.dirtyCachelinesPerEpoch.getD n (.new n.tid hbg.tids)

def setCachelineDirty (s : FastState) (hbg : HBG) (n : InstructionNode) : Py FastState := do
  let dirty ← (s.dirty hbg n.tid).setCachelineDirty n.address n.size
  pure { s with dirtyCachelines := s.dirtyCachelines.insert n.tid dirty }

/-- The cases `WRITE` and `READ` up to the search for bugs. -/
def access (s : FastState) (hbg : HBG) (n : InstructionNode) : Py FastState := do
  let found ← addAccess hbg s.found n
  { s with found := found }.setCachelineDirty hbg n

/-- The case `EPOCH` up to the loop over the children. -/
def mergeEpoch (s : FastState) (hbg : HBG) (n : Node) : Py FastState := do
  let dirty ← (s.dirty hbg n.tid).merge (s.dirtyAtEpoch hbg n)
  pure
    { found := { s.found with pvcPerThread := mergeLines s.pvcPerEpochNode n s.found.pvcPerThread }
      pvcPerEpochNode := s.pvcPerEpochNode.erase n
      dirtyCachelines := s.dirtyCachelines.insert n.tid dirty
      dirtyCachelinesPerEpoch := s.dirtyCachelinesPerEpoch.erase n }

/-- The body of the loop over the children. -/
def tellChild (hbg : HBG) (n : Node) (s : FastState) (child : Node) : Py FastState := do
  let (lines, dirty) ← (s.dirty hbg n.tid).getDirtyCachelines child.tid
  let (dirty, childDirty) ← dirty.updateChild (s.dirtyAtEpoch hbg child)
  pure { s with
    pvcPerEpochNode := tellLines s.found.pvcPerThread n.tid child lines s.pvcPerEpochNode
    dirtyCachelines := s.dirtyCachelines.insert n.tid dirty
    dirtyCachelinesPerEpoch := s.dirtyCachelinesPerEpoch.insert child childDirty }

end FastState

def fastStep (hbg : HBG) (pdg : PDG) (flags : Flags) (s : FastState) : Node → Py FastState
  | .epoch e =>
    if flags.ignoreInterThreadEdges then pure s
    else do
      let s ← s.mergeEpoch hbg (.epoch e)
      (hbg.getInterChildren (.epoch e)).foldlM (FastState.tellChild hbg (.epoch e)) s
  | .instruction n =>
    match n.itype with
    | .write => do
      let s ← s.access hbg n
      let found ← findBugs hbg pdg flags s.found n
      pure { s with found := found }
    | .read => s.access hbg n
    | .flush =>
      if flags.ignoreFlushNodes then pure s
      else { s with found := flushLine s.found n }.setCachelineDirty hbg n
    | .epoch => pure s

/-- The sweep of `_do_persisted_before_vector_clocks_analysis_fast`. -/
def persistedBeforeAnalysisFast (hbg : HBG) (pdg : PDG) (flags : Flags)
    (vcPerReadNode : ReversedClocks Node) (order : List Node) : Py FastState :=
  order.foldlM (fastStep hbg pdg flags) (.new vcPerReadNode)

end Fast

section Plain

structure PlainState where
  found : Findings
  pvcPerEpochNode : LineClocks Node
  dirtyCachelines : Dict ThreadId (List Cacheline)
  dirtyCachelinesVector : Dict ThreadId (Dict ThreadId (List Cacheline))

namespace PlainState

def new (vcPerReadNode : ReversedClocks Node) : PlainState :=
  ⟨⟨∅, vcPerReadNode, .new, 0⟩, ∅, ∅, ∅⟩

def dirty (s : PlainState) (tid : ThreadId) : List Cacheline := s.dirtyCachelines.getD tid []

def cell (s : PlainState) (tid thread : ThreadId) : List Cacheline :=
  (s.dirtyCachelinesVector.getD tid ∅).getD thread []

def setCell (s : PlainState) (tid thread : ThreadId) (lines : List Cacheline) : PlainState :=
  let cells := (s.dirtyCachelinesVector.getD tid ∅).insert thread lines
  { s with dirtyCachelinesVector := s.dirtyCachelinesVector.insert tid cells }

def addDirty (s : PlainState) (tid : ThreadId) (lines : List Cacheline) : PlainState :=
  { s with dirtyCachelines := s.dirtyCachelines.insert tid (s.dirty tid ∪ lines) }

/-- The case `EPOCH` up to the loop over the children. -/
def spreadDirty (s : PlainState) (hbg : HBG) (tid : ThreadId) : PlainState :=
  if s.dirty tid = [] then s
  else
    let s' := (hbg.tids.filter (· ≠ tid)).foldl
      (fun s thread => s.setCell tid thread (s.cell tid thread ∪ s.dirty tid)) s
    { s' with dirtyCachelines := s'.dirtyCachelines.insert tid [] }

/-- The body of the loop over the children. -/
def tellChild (n : Node) (s : PlainState) (child : Node) : PlainState :=
  let epochs :=
    tellLines s.found.pvcPerThread n.tid child (s.cell n.tid child.tid) s.pvcPerEpochNode
  { s with pvcPerEpochNode := epochs }.setCell n.tid child.tid []

/-- The case `EPOCH` after the loop over the children. -/
def mergeEpoch (s : PlainState) (n : Node) : PlainState :=
  let lines := (s.pvcPerEpochNode.getD n ∅).keys
  { s with
    found := { s.found with pvcPerThread := mergeLines s.pvcPerEpochNode n s.found.pvcPerThread }
    pvcPerEpochNode := s.pvcPerEpochNode.erase n }.addDirty n.tid lines

end PlainState

def plainStep (hbg : HBG) (pdg : PDG) (flags : Flags) (s : PlainState) : Node → Py PlainState
  | .epoch e =>
    if flags.ignoreInterThreadEdges then pure s
    else
      let s := s.spreadDirty hbg e.tid
      let s := (hbg.getInterChildren (.epoch e)).foldl (PlainState.tellChild (.epoch e)) s
      pure (s.mergeEpoch (.epoch e))
  | .instruction n =>
    match n.itype with
    | .write => do
      let found ← addAccess hbg s.found n
      let s := { s with found := found }.addDirty n.tid [n.getCachelineAddress]
      let found ← findBugs hbg pdg flags s.found n
      pure { s with found := found }
    | .read => do
      let found ← addAccess hbg s.found n
      pure ({ s with found := found }.addDirty n.tid [n.getCachelineAddress])
    | .flush =>
      if flags.ignoreFlushNodes then pure s
      else
        pure ({ s with found := flushLine s.found n }.addDirty n.tid [n.getCachelineAddress])
    | .epoch => pure s

/-- The sweep of `_do_persisted_before_vector_clocks_analysis`. -/
def persistedBeforeAnalysis (hbg : HBG) (pdg : PDG) (flags : Flags)
    (vcPerReadNode : ReversedClocks Node) (order : List Node) : Py PlainState :=
  order.foldlM (plainStep hbg pdg flags) (.new vcPerReadNode)

end Plain

/-- The detector on the orders that the graph library yields for the two sweeps. -/
def run (hbg : HBG) (pdg : PDG) (flags : Flags) (postorder reversePostorder : List Node)
    (useFasterVersion : Bool) : Py PersistencyRaces := do
  let vcPerReadNode ← buildHappensAfterVectorClocks hbg flags postorder
  if useFasterVersion then do
    let s ← persistedBeforeAnalysisFast hbg pdg flags vcPerReadNode reversePostorder
    pure s.found.races
  else do
    let s ← persistedBeforeAnalysis hbg pdg flags vcPerReadNode reversePostorder
    pure s.found.races

end Prd.Pycprd
