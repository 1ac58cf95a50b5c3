import Mathlib.Data.List.Induction
import Mathlib.Data.List.Perm.Subperm
import Prd.Foundation.Dict
import Prd.Foundation.FirstMatch
import Prd.Pycprd.Nodes

/-!
# Daisy chains

A daisy chain links every access of a thread to a cache line to the next write.
Its loop follows the links, so it is modelled with fuel, and every chain built
from distinct nodes is shown to end within the number of its entries.
-/
namespace Prd.Pycprd

open Prd.Foundation

structure DaisyChain (α : Type) where
  firstNode : Option α
  lastNode : Option α
  chain : Dict α (Option α)
  writeNodes : List α
  danglingReads : List α

namespace DaisyChain

variable {α : Type} [DecidableEq α]

def new : DaisyChain α := ⟨none, none, ∅, [], []⟩

def addWriteNode (dc : DaisyChain α) (n : α) : DaisyChain α :=
  let linked := match dc.lastNode with
    | some last => { dc with chain := dc.chain.insert last (some n) }
    | none => { dc with firstNode := some n }
  let chain := linked.chain.insert n none
  { linked with
    lastNode := some n
    chain := dc.danglingReads.foldl (fun c r => c.insert r (some n)) chain
    danglingReads := []
    writeNodes := linked.writeNodes.insert n }

def addReadNode (dc : DaisyChain α) (n : α) : DaisyChain α :=
  { dc with danglingReads := dc.danglingReads.insert n, chain := dc.chain.insert n none }

/-- The loop of `get_chain`, as the list of what it yields. -/
def follow (dc : DaisyChain α) : ℕ → α → Py (List α)
  | 0, _ => throw .outOfFuel
  | fuel + 1, nextNode => do
    let rest ← match dc.chain.lookup nextNode with
      | none => throw .keyError
      | some none => pure []
      | some (some next) => dc.follow fuel next
    pure (if nextNode ∈ dc.writeNodes then nextNode :: rest else rest)

def getChain (dc : DaisyChain α) (startNode : Option α) : Py (List α) :=
  let fuel := dc.chain.keys.length
  match startNode with
  | none =>
    match dc.firstNode with
    | none => pure []
    | some first => dc.follow fuel first
  | some start => if start ∈ dc.chain then dc.follow fuel start else throw .indexError

/-- The chain of the accesses in `l`, of which those with `w` are writes. -/
structure Represents (dc : DaisyChain α) (w : α → Bool) (l : List α) : Prop where
  next : ∀ pre n post, l = pre ++ n :: post → dc.chain.lookup n = some (post.find? w)
  missing : ∀ n, n ∉ l → dc.chain.lookup n = none
  first : dc.firstNode = l.find? w
  last : ∀ n, dc.lastNode = some n ↔
    ∃ pre post, l = pre ++ n :: post ∧ w n = true ∧ post.find? w = none
  write : ∀ n, n ∈ dc.writeNodes ↔ n ∈ l ∧ w n = true
  dangling : ∀ n, n ∈ dc.danglingReads ↔
    ∃ pre post, l = pre ++ n :: post ∧ w n = false ∧ post.find? w = none

variable {dc : DaisyChain α} {w : α → Bool} {l : List α}

theorem represents_new (w : α → Bool) : (new : DaisyChain α).Represents w [] where
  next := by intro pre n post h; simp at h
  missing := by intro n _; rfl
  first := rfl
  last := by intro n; simp [new]
  write := by intro n; simp [new]
  dangling := by intro n; simp [new]

omit [DecidableEq α] in
/-- An access is the last of its kind if no write follows it. -/
theorem lastSplit_iff_waits {l : List α} {n : α} {b : Bool} :
    (∃ pre post, l = pre ++ n :: post ∧ w n = b ∧ post.find? w = none) ↔
      Waits (w · = b) (fun x _ => w x = true) l n := by
  simp only [Waits, List.find?_eq_none]

theorem lookup_foldl_insert (reads : List α) (c : Dict α (Option α)) (m : Option α) (n : α) :
    (reads.foldl (fun c r => c.insert r m) c).lookup n =
      if n ∈ reads then some m else c.lookup n := by
  induction reads generalizing c with
  | nil => simp
  | cons r reads ih =>
    rw [List.foldl_cons, ih]
    by_cases hn : n = r
    · subst hn; simp
    · simp [hn, AList.lookup_insert_ne hn]

theorem lookup_addWriteNode (dc : DaisyChain α) (m n : α) (hm : m ∉ dc.danglingReads) :
    (dc.addWriteNode m).chain.lookup n =
      if n = m then some none
      else if n ∈ dc.danglingReads ∨ dc.lastNode = some n then some (some m)
      else dc.chain.lookup n := by
  unfold addWriteNode
  simp only [lookup_foldl_insert]
  by_cases hnm : n = m
  · subst hnm; simp [hm]
  · by_cases hd : n ∈ dc.danglingReads
    · simp [hnm, hd]
    · rw [if_neg hd, if_neg hnm, AList.lookup_insert_ne hnm]
      cases hl : dc.lastNode with
      | none => simp [hd]
      | some last =>
        by_cases hnl : n = last
        · subst hnl; simp
        · simp [hd, Ne.symm hnl, AList.lookup_insert_ne hnl]

omit [DecidableEq α] in
theorem find?_append_singleton {post : List α} {m : α} (hm : w m = true) :
    (post ++ [m]).find? w = (post.find? w).or (some m) := by
  rw [List.find?_append]
  simp [hm]

theorem Represents.unlinked_iff (h : dc.Represents w l) {n : α} {pre post : List α}
    (hl : l = pre ++ n :: post) (hnd : l.Nodup) :
    n ∈ dc.danglingReads ∨ dc.lastNode = some n ↔ post.find? w = none := by
  have huniq : ∀ pre' post', l = pre' ++ n :: post' → post' = post := by
    intro pre' post' hl'
    rw [hl] at hnd hl'
    have hn := List.nodup_middle.mp hnd |>.notMem
    rw [List.mem_append, not_or] at hn
    exact ((List.append_cons_inj_of_notMem hn.1 hn.2).mp hl').2.2.symm
  rw [h.dangling, h.last]
  constructor
  · rintro (⟨pre', post', hl', _, hf⟩ | ⟨pre', post', hl', _, hf⟩)
    · rwa [huniq pre' post' hl'] at hf
    · rwa [huniq pre' post' hl'] at hf
  · intro hf
    cases hw : w n with
    | false => exact Or.inl ⟨pre, post, hl, rfl, hf⟩
    | true => exact Or.inr ⟨pre, post, hl, rfl, hf⟩

theorem Represents.find?_eq_none_of_last (h : dc.Represents w l) (hlast : dc.lastNode = none) :
    l.find? w = none := by
  by_contra hne
  have hrev : l.reverse.find? w ≠ none := by
    intro hnone
    refine hne (List.find?_eq_none.mpr (fun x hx => ?_))
    exact List.find?_eq_none.mp hnone x (List.mem_reverse.mpr hx)
  obtain ⟨y, hy⟩ := Option.ne_none_iff_exists'.mp hrev
  obtain ⟨hwy, as, bs, hl, has⟩ := List.find?_eq_some_iff_append.mp hy
  have hsplit : l = bs.reverse ++ y :: as.reverse := by
    have hrr := congrArg List.reverse hl
    simpa using hrr
  have hafter : as.reverse.find? w = none :=
    List.find?_eq_none.mpr (fun z hz => by simpa using has z (List.mem_reverse.mp hz))
  rw [(h.last y).mpr ⟨_, _, hsplit, hwy, hafter⟩] at hlast
  cases hlast

theorem Represents.mem_of_unlinked (h : dc.Represents w l) {n : α}
    (hn : n ∈ dc.danglingReads ∨ dc.lastNode = some n) : n ∈ l := by
  rcases hn with hd | hlast
  · exact (lastSplit_iff_waits.mp ((h.dangling n).mp hd)).mem.2
  · exact (lastSplit_iff_waits.mp ((h.last n).mp hlast)).mem.2

/-- The first write stays the first one, and a new write is the first if there is no other. -/
theorem Represents.firstNode_addWriteNode (h : dc.Represents w l) (m : α) :
    (dc.addWriteNode m).firstNode = (l.find? w).or (some m) := by
  rw [← h.first]
  unfold DaisyChain.addWriteNode
  cases hlast : dc.lastNode with
  | none =>
    have hfirst : dc.firstNode = none := by rw [h.first, h.find?_eq_none_of_last hlast]
    rw [hfirst]
    rfl
  | some last =>
    have hwaits := (lastSplit_iff_waits.mp ((h.last last).mp hlast)).mem
    have hsome : (l.find? w).isSome := List.find?_isSome.mpr ⟨last, hwaits.2, hwaits.1⟩
    obtain ⟨first, hfirst⟩ := Option.isSome_iff_exists.mp hsome
    rw [h.first, hfirst]
    rfl

theorem Represents.addWriteNode (h : dc.Represents w l) (hnd : l.Nodup) {m : α} (hm : m ∉ l)
    (hw : w m = true) : (dc.addWriteNode m).Represents w (l ++ [m]) := by
  have hmd : m ∉ dc.danglingReads := fun hd => hm (h.mem_of_unlinked (Or.inl hd))
  refine ⟨?_, ?_, ?_, ?_, ?_, ?_⟩
  · intro pre n post hl
    rw [lookup_addWriteNode dc m n hmd]
    rcases append_singleton_eq_iff.mp hl with ⟨-, rfl, rfl⟩ | ⟨post', rfl, hl'⟩
    · simp
    · have hnm : n ≠ m := by rintro rfl; exact hm (by rw [hl']; simp)
      rw [if_neg hnm, find?_append_singleton hw]
      by_cases hu : post'.find? w = none
      · rw [if_pos ((h.unlinked_iff hl' hnd).mpr hu), hu]; rfl
      · rw [if_neg (fun hc => hu ((h.unlinked_iff hl' hnd).mp hc)), h.next pre n post' hl']
        obtain ⟨x, hx⟩ := Option.ne_none_iff_exists'.mp hu
        rw [hx]; rfl
  · intro n hn
    have hnl : n ∉ l := fun hc => hn (List.mem_append_left _ hc)
    have hnm : n ≠ m := by rintro rfl; exact hn (by simp)
    rw [lookup_addWriteNode dc m n hmd, if_neg hnm, if_neg, h.missing n hnl]
    exact fun hu => hnl (h.mem_of_unlinked hu)
  · rw [find?_append_singleton hw, h.firstNode_addWriteNode]
  · intro n
    have hlast : (dc.addWriteNode m).lastNode = some m := by
      unfold DaisyChain.addWriteNode
      rfl
    rw [hlast, lastSplit_iff_waits, waits_append_singleton, Option.some_inj, eq_comm]
    simp [hw]
  · intro n
    have hwn : (dc.addWriteNode m).writeNodes = dc.writeNodes.insert m := by
      unfold DaisyChain.addWriteNode
      cases dc.lastNode <;> rfl
    rw [hwn, List.mem_insert_iff, h.write, List.mem_append, List.mem_singleton]
    by_cases hnm : n = m
    · simp [hnm, hw]
    · simp [hnm]
  · intro n
    have hdr : (dc.addWriteNode m).danglingReads = [] := by
      unfold DaisyChain.addWriteNode
      rfl
    rw [hdr, lastSplit_iff_waits, waits_append_singleton]
    simp [hw]

theorem Represents.addReadNode (h : dc.Represents w l) {m : α} (hm : m ∉ l)
    (hw : w m = false) : (dc.addReadNode m).Represents w (l ++ [m]) := by
  have hfind : ∀ post : List α, (post ++ [m]).find? w = post.find? w := by
    intro post
    rw [List.find?_append]
    simp [hw]
  refine ⟨?_, ?_, ?_, ?_, ?_, ?_⟩
  · intro pre n post hl
    rcases append_singleton_eq_iff.mp hl with ⟨-, rfl, rfl⟩ | ⟨post', rfl, hl'⟩
    · exact AList.lookup_insert _
    · have hnm : n ≠ m := by rintro rfl; exact hm (by rw [hl']; simp)
      rw [hfind, ← h.next pre n post' hl']
      exact AList.lookup_insert_ne hnm
  · intro n hn
    have hnm : n ≠ m := by rintro rfl; exact hn (by simp)
    rw [← h.missing n (fun hc => hn (List.mem_append_left _ hc))]
    exact AList.lookup_insert_ne hnm
  · rw [hfind, ← h.first]
    rfl
  · intro n
    have hlast : (dc.addReadNode m).lastNode = dc.lastNode := rfl
    rw [hlast, h.last, lastSplit_iff_waits, lastSplit_iff_waits, waits_append_singleton]
    simp [hw]
  · intro n
    refine (h.write n).trans ?_
    rw [List.mem_append, List.mem_singleton]
    by_cases hnm : n = m
    · simp [hnm, hw]
    · simp [hnm]
  · intro n
    have hdr : (dc.addReadNode m).danglingReads = dc.danglingReads.insert m := rfl
    rw [hdr, List.mem_insert_iff, h.dangling, lastSplit_iff_waits, lastSplit_iff_waits,
      waits_append_singleton]
    simp [hw]

omit [DecidableEq α] in
/-- Up to its first write a list has no other writes. -/
theorem filter_of_find? {post : List α} {m : α} (h : post.find? w = some m) :
    ∃ mid post', post = mid ++ m :: post' ∧ post.filter w = (m :: post').filter w := by
  obtain ⟨hm, mid, post', rfl, hmid⟩ := List.find?_eq_some_iff_append.mp h
  refine ⟨mid, post', rfl, ?_⟩
  rw [List.filter_append, List.filter_eq_nil_iff.mpr (fun x hx => by simpa using hmid x hx),
    List.nil_append]

/-- Following the links from a node yields the writes from there on. -/
theorem Represents.follow_eq (h : dc.Represents w l) {fuel : ℕ} {pre post : List α} {n : α}
    (hl : l = pre ++ n :: post) (hfuel : post.length < fuel) :
    dc.follow fuel n = .ok ((n :: post).filter w) := by
  induction fuel generalizing pre post n with
  | zero => exact absurd hfuel (Nat.not_lt_zero _)
  | succ fuel ih =>
    have hmem : n ∈ dc.writeNodes ↔ w n = true := by
      rw [h.write, hl]
      simp
    have hhead : ∀ rest, (if n ∈ dc.writeNodes then n :: post.filter w else post.filter w) = rest →
        (n :: post).filter w = rest := by
      rintro rest rfl
      rw [List.filter_cons]
      simp only [hmem]
    unfold follow
    rw [h.next pre n post hl]
    cases hf : post.find? w with
    | none =>
      have hnil : post.filter w = [] :=
        List.filter_eq_nil_iff.mpr (fun x hx => List.find?_eq_none.mp hf x hx)
      rw [hhead _ rfl, hnil]
      rfl
    | some m =>
      obtain ⟨mid, post', hpost, hfilter⟩ := filter_of_find? hf
      have hl' : l = (pre ++ n :: mid) ++ m :: post' := by rw [hl, hpost]; simp
      have hlen : post'.length < fuel := by
        have : post.length = mid.length + (post'.length + 1) := by rw [hpost]; simp
        omega
      simp only [ih hl' hlen, ← hfilter]
      rw [hhead _ rfl]
      rfl

theorem Represents.mem_chain (h : dc.Represents w l) (n : α) : n ∈ dc.chain ↔ n ∈ l := by
  constructor
  · intro hn
    by_contra hl
    exact absurd (AList.lookup_eq_none.mp (h.missing n hl)) (not_not.mpr hn)
  · intro hn
    obtain ⟨pre, post, hl⟩ := List.append_of_mem hn
    exact AList.lookup_isSome.mp (by rw [h.next pre n post hl]; rfl)

theorem Represents.length_le (h : dc.Represents w l) (hnd : l.Nodup) :
    l.length ≤ dc.chain.keys.length :=
  (List.subperm_of_subset hnd (fun n hn => AList.mem_keys.mp ((h.mem_chain n).mpr hn))).length_le

/-- The chain from a node on yields the writes from there on. -/
theorem Represents.getChain_some (h : dc.Represents w l) (hnd : l.Nodup) {pre post : List α}
    {n : α} (hl : l = pre ++ n :: post) :
    dc.getChain (some n) = .ok ((n :: post).filter w) := by
  have hn : n ∈ dc.chain := (h.mem_chain n).mpr (by rw [hl]; simp)
  have hlen : post.length < dc.chain.keys.length := by
    refine lt_of_lt_of_le ?_ (h.length_le hnd)
    rw [hl]
    simp
    omega
  unfold getChain
  simp only [if_pos hn]
  exact h.follow_eq hl hlen

/-- The whole chain yields all writes. -/
theorem Represents.getChain_none (h : dc.Represents w l) (hnd : l.Nodup) :
    dc.getChain none = .ok (l.filter w) := by
  unfold getChain
  rw [h.first]
  cases hf : l.find? w with
  | none =>
    have hnil : l.filter w = [] :=
      List.filter_eq_nil_iff.mpr (fun x hx => List.find?_eq_none.mp hf x hx)
    rw [hnil]
    rfl
  | some m =>
    obtain ⟨mid, post', hl, hfilter⟩ := filter_of_find? hf
    have hlen : post'.length < dc.chain.keys.length := by
      refine lt_of_lt_of_le ?_ (h.length_le hnd)
      rw [hl]
      simp
      omega
    rw [hfilter]
    exact h.follow_eq hl hlen

/-- A node that the chain does not know cannot start a walk. -/
theorem Represents.getChain_of_notMem (h : dc.Represents w l) {n : α} (hn : n ∉ l) :
    dc.getChain (some n) = .error .indexError :=
  if_neg (mt (h.mem_chain n).mp hn)

inductive Call (α : Type) where
  | addWriteNode (n : α)
  | addReadNode (n : α)
  deriving DecidableEq, Repr

namespace Call

def node : Call α → α
  | addWriteNode n => n
  | addReadNode n => n

def isWrite : Call α → Bool
  | addWriteNode _ => true
  | addReadNode _ => false

def step (dc : DaisyChain α) : Call α → DaisyChain α
  | addWriteNode n => dc.addWriteNode n
  | addReadNode n => dc.addReadNode n

/-- The nodes added as writes, in the order of the calls. -/
def writes (calls : List (Call α)) : List α := (calls.filter isWrite).map node

end Call

/-- The chain that a sequence of calls builds. -/
def build (calls : List (Call α)) : DaisyChain α := calls.foldl Call.step new

theorem represents_build {calls : List (Call α)} (hnd : (calls.map Call.node).Nodup)
    (hw : ∀ c ∈ calls, w c.node = c.isWrite) :
    (build calls).Represents w (calls.map Call.node) := by
  induction calls using List.reverseRecOn with
  | nil => exact represents_new w
  | append_singleton calls c ih =>
    rw [List.map_append, List.map_singleton, List.nodup_append] at hnd
    have hrep := ih hnd.1 (fun c' hc' => hw c' (List.mem_append_left _ hc'))
    have hc : c.node ∉ calls.map Call.node :=
      fun hmem => hnd.2.2 c.node hmem c.node (List.mem_singleton_self _) rfl
    have hwc := hw c (List.mem_append_right _ (List.mem_singleton_self c))
    unfold build at hrep ⊢
    rw [List.map_append, List.foldl_append]
    cases c with
    | addWriteNode n => exact hrep.addWriteNode hnd.1 hc hwc
    | addReadNode n => exact hrep.addReadNode hc hwc

omit [DecidableEq α] in
theorem filter_map_node {calls : List (Call α)} (hw : ∀ c ∈ calls, w c.node = c.isWrite) :
    (calls.map Call.node).filter w = Call.writes calls := by
  have hfilter : calls.filter (w ∘ Call.node) = calls.filter Call.isWrite := List.filter_congr hw
  unfold Call.writes
  rw [List.filter_map, hfilter]

/-- With distinct nodes, a node was added as a write or as a read, not as both. -/
theorem mem_writes_iff {calls : List (Call α)} (hnd : (calls.map Call.node).Nodup) {c : Call α}
    (hc : c ∈ calls) : decide (c.node ∈ Call.writes calls) = c.isWrite := by
  rw [Bool.eq_iff_iff, decide_eq_true_eq]
  unfold Call.writes
  rw [List.mem_map]
  constructor
  · intro h
    obtain ⟨c', hc', heq⟩ := h
    obtain ⟨hc', hwrite⟩ := List.mem_filter.mp hc'
    rwa [← List.inj_on_of_nodup_map hnd hc' hc heq]
  · intro hwrite
    exact ⟨c, List.mem_filter.mpr ⟨hc, hwrite⟩, rfl⟩

/-- A walk yields the writes that were added from its start on, in their order, and ends. -/
theorem getChain_build (calls : List (Call α)) (hnd : (calls.map Call.node).Nodup) :
    (build calls).getChain none = .ok (Call.writes calls) ∧
      (∀ pre n post, calls = pre ++ .addWriteNode n :: post →
        (build calls).getChain (some n) = .ok (n :: Call.writes post)) ∧
      (∀ pre n post, calls = pre ++ .addReadNode n :: post →
        (build calls).getChain (some n) = .ok (Call.writes post)) ∧
      ∀ n, n ∉ calls.map Call.node → (build calls).getChain (some n) = .error .indexError := by
  have hw : ∀ c ∈ calls, decide (c.node ∈ Call.writes calls) = c.isWrite :=
    fun c hc => mem_writes_iff hnd hc
  have hrep := represents_build (w := fun n => decide (n ∈ Call.writes calls)) hnd hw
  have hfrom : ∀ pre c post, calls = pre ++ c :: post →
      (build calls).getChain (some c.node) = .ok (Call.writes (c :: post)) := by
    intro pre c post hl
    have hmap : calls.map Call.node = pre.map Call.node ++ c.node :: post.map Call.node := by
      rw [hl, List.map_append, List.map_cons]
    have hsuffix : ∀ c' ∈ c :: post, decide (c'.node ∈ Call.writes calls) = c'.isWrite :=
      fun c' hc' => hw c' (by rw [hl]; exact List.mem_append_right _ hc')
    rw [hrep.getChain_some hnd hmap, ← List.map_cons, filter_map_node hsuffix]
  refine ⟨?_, ?_, ?_, fun n hn => hrep.getChain_of_notMem hn⟩
  · rw [hrep.getChain_none hnd, filter_map_node hw]
  · exact fun pre n post hl => hfrom pre (.addWriteNode n) post hl
  · exact fun pre n post hl => hfrom pre (.addReadNode n) post hl

/-- A read between two writes starts a walk at the later one. -/
theorem getChain_build_readsBetween :
    (build [.addReadNode 1, .addWriteNode 2, .addReadNode 3, .addWriteNode 4,
        .addReadNode 5]).getChain (some 3) = .ok [4] :=
  (getChain_build [.addReadNode 1, .addWriteNode 2, .addReadNode 3, .addWriteNode 4, .addReadNode 5]
    (by decide)).2.2.1 [.addReadNode 1, .addWriteNode 2] 3 [.addWriteNode 4, .addReadNode 5] rfl

end DaisyChain

structure DaisyChains where
  chains : Dict Cacheline (Dict ThreadId (DaisyChain InstructionNode))

namespace DaisyChains

def new : DaisyChains := ⟨∅⟩

/-- The chain of a line and a thread, which is empty when there is none yet. -/
def chainOf (dcs : DaisyChains) (line : Cacheline) (tid : ThreadId) : DaisyChain InstructionNode :=
  (dcs.chains.getD line ∅).getD tid .new

def setChain (dcs : DaisyChains) (line : Cacheline) (tid : ThreadId)
    (dc : DaisyChain InstructionNode) : DaisyChains :=
  ⟨dcs.chains.insert line ((dcs.chains.getD line ∅).insert tid dc)⟩

def addWriteNode (dcs : DaisyChains) (n : InstructionNode) : DaisyChains :=
  let line := n.getCachelineAddress
  dcs.setChain line n.tid ((dcs.chainOf line n.tid).addWriteNode n)

def addReadNode (dcs : DaisyChains) (n : InstructionNode) : DaisyChains :=
  let line := n.getCachelineAddress
  dcs.setChain line n.tid ((dcs.chainOf line n.tid).addReadNode n)

def addNode (dcs : DaisyChains) : Node → DaisyChains
  | .epoch _ => dcs
  | .instruction n =>
    match n.itype with
    | .write => dcs.addWriteNode n
    | .read => dcs.addReadNode n
    | _ => dcs

def getChainByNode (dcs : DaisyChains) (n : InstructionNode) : Py (List InstructionNode) :=
  (dcs.chainOf n.getCachelineAddress n.tid).getChain (some n)

def getChainByThread (dcs : DaisyChains) (tid : ThreadId) (line : Cacheline) :
    Py (List InstructionNode) :=
  (dcs.chainOf line tid).getChain none

@[simp] theorem chainOf_setChain (dcs : DaisyChains) (line line' : Cacheline)
    (tid tid' : ThreadId) (dc : DaisyChain InstructionNode) :
    (dcs.setChain line tid dc).chainOf line' tid' =
      if line' = line ∧ tid' = tid then dc else dcs.chainOf line' tid' := by
  unfold chainOf setChain
  rw [Dict.getD_insert]
  by_cases hl : line' = line
  · subst hl
    rw [if_pos rfl, Dict.getD_insert]
    simp
  · simp [hl]

/-- The reads and writes of a thread to a line, as chains list them. -/
def access (line : Cacheline) (tid : ThreadId) : Node → Option InstructionNode
  | .epoch _ => none
  | .instruction n =>
    if n.itype.isReadWriteType = true ∧ n.getCachelineAddress = line ∧ n.tid = tid then some n
    else none

def accesses (line : Cacheline) (tid : ThreadId) (l : List Node) : List InstructionNode :=
  l.filterMap (access line tid)

def isWrite (n : InstructionNode) : Bool := n.itype == .write

theorem access_eq_some {line : Cacheline} {tid : ThreadId} {x : Node} {n : InstructionNode} :
    access line tid x = some n ↔ x = .instruction n ∧ n.itype.isReadWriteType = true ∧
      n.getCachelineAddress = line ∧ n.tid = tid := by
  cases x with
  | epoch e => exact ⟨fun h => (nomatch h), fun h => (nomatch h.1)⟩
  | instruction m =>
    simp only [access]
    split_ifs with h
    · constructor
      · intro he; cases he; exact ⟨rfl, h⟩
      · rintro ⟨he, _⟩; cases he; rfl
    · constructor
      · intro he; cases he
      · rintro ⟨he, h'⟩; cases he; exact absurd h' h

theorem mem_accesses {line : Cacheline} {tid : ThreadId} {l : List Node} {n : InstructionNode} :
    n ∈ accesses line tid l ↔ .instruction n ∈ l ∧ n.itype.isReadWriteType = true ∧
      n.getCachelineAddress = line ∧ n.tid = tid := by
  simp only [accesses, List.mem_filterMap, access_eq_some]
  constructor
  · rintro ⟨x, hx, rfl, h⟩; exact ⟨hx, h⟩
  · rintro ⟨hx, h⟩; exact ⟨_, hx, rfl, h⟩

theorem nodup_accesses {line : Cacheline} {tid : ThreadId} {l : List Node} (h : l.Nodup) :
    (accesses line tid l).Nodup := by
  refine h.filterMap ?_
  intro x y n hx hy
  rw [(access_eq_some.mp hx).1, (access_eq_some.mp hy).1]

theorem chainOf_addNode (dcs : DaisyChains) (x : Node) (line : Cacheline) (tid : ThreadId) :
    (dcs.addNode x).chainOf line tid =
      match access line tid x with
      | none => dcs.chainOf line tid
      | some n =>
        if isWrite n then (dcs.chainOf line tid).addWriteNode n
        else (dcs.chainOf line tid).addReadNode n := by
  cases x with
  | epoch e => rfl
  | instruction n =>
    simp only [access]
    by_cases hat : n.getCachelineAddress = line ∧ n.tid = tid
    · obtain ⟨rfl, rfl⟩ := hat
      rcases n.itype_cases with hi | hi | hi
      · simp [addNode, hi, NodeType.isReadWriteType, addReadNode, isWrite]
      · simp [addNode, hi, NodeType.isReadWriteType, addWriteNode, isWrite]
      · simp [addNode, hi, NodeType.isReadWriteType]
    · have hat' : ¬ (line = n.getCachelineAddress ∧ tid = n.tid) :=
        fun h => hat ⟨h.1.symm, h.2.symm⟩
      rw [if_neg (fun h => hat h.2)]
      rcases n.itype_cases with hi | hi | hi
      · simp [addNode, hi, addReadNode, hat']
      · simp [addNode, hi, addWriteNode, hat']
      · simp [addNode, hi]

/-- After all nodes were added, every chain lists the accesses of its line and thread. -/
theorem represents_addNodes {l : List Node} (hnd : l.Nodup) (line : Cacheline) (tid : ThreadId) :
    ((l.foldl addNode new).chainOf line tid).Represents isWrite (accesses line tid l) := by
  induction l using List.reverseRecOn with
  | nil => exact DaisyChain.represents_new isWrite
  | append_singleton l x ih =>
    have hl : l.Nodup := (List.nodup_append.mp hnd).1
    have hx : x ∉ l := fun hx => (List.disjoint_of_nodup_append hnd) hx (List.mem_singleton_self x)
    rw [List.foldl_append, List.foldl_cons, List.foldl_nil, chainOf_addNode]
    have hacc : accesses line tid (l ++ [x]) =
        accesses line tid l ++ (access line tid x).toList := by
      unfold accesses
      rw [List.filterMap_append]
      cases h : access line tid x <;> simp [h]
    rw [hacc]
    cases h : access line tid x with
    | none => simpa using ih hl
    | some n =>
      have hn : n ∉ accesses line tid l := by
        intro hn
        exact hx ((access_eq_some.mp h).1 ▸ (mem_accesses.mp hn).1)
      simp only [Option.toList_some]
      cases hw : isWrite n with
      | true => simpa using (ih hl).addWriteNode (nodup_accesses hl) hn hw
      | false => simpa using (ih hl).addReadNode hn hw

/-- The chain of a thread yields its writes to the line in order. -/
theorem getChainByThread_eq {l : List Node} (hnd : l.Nodup) (tid : ThreadId) (line : Cacheline) :
    (l.foldl addNode new).getChainByThread tid line = .ok ((accesses line tid l).filter isWrite) :=
  (represents_addNodes hnd line tid).getChain_none (nodup_accesses hnd)

/-- The chain from an access on yields the writes from there on. -/
theorem getChainByNode_eq {l pre post : List Node} {n : InstructionNode} (hnd : l.Nodup)
    (hl : l = pre ++ .instruction n :: post) (hn : n.itype.isReadWriteType = true) :
    (l.foldl addNode new).getChainByNode n =
      .ok ((n :: accesses n.getCachelineAddress n.tid post).filter isWrite) := by
  have hsplit : accesses n.getCachelineAddress n.tid l =
      accesses n.getCachelineAddress n.tid pre ++
        n :: accesses n.getCachelineAddress n.tid post := by
    rw [hl]
    unfold accesses
    rw [List.filterMap_append, List.filterMap_cons_some]
    exact access_eq_some.mpr ⟨rfl, hn, rfl, rfl⟩
  exact (represents_addNodes hnd _ _).getChain_some (nodup_accesses hnd) hsplit

end DaisyChains

end Prd.Pycprd
