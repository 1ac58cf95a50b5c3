import Prd.Pycprd.FindBugs

/-!
# What the clocks of a forward sweep show

A forward sweep spreads the news of every line: its accesses and its flushes. A
clock shows a set of news when its two parts summarize the accesses in the set and
the accesses that were spread to a flush in the set. This holds for both sweeps,
which only differ in what they spread.
-/
namespace Prd.Pycprd

open Prd.Foundation Relation

def Flags.isFlush (flags : Flags) (itype : NodeType) : Bool :=
  itype == .flush && !flags.ignoreFlushNodes

/-- The types of the nodes that change the clocks of their line. -/
def Flags.isNews (flags : Flags) (itype : NodeType) : Bool :=
  itype.isReadWriteType || flags.isFlush itype

/-- A relation on the nodes for every line: the first is known at the second. -/
abbrev Spread := Cacheline → Node → Node → Prop

/-- The access is spread to a flush of the line, and the flush to the node. -/
def PersistedBy (flags : Flags) (knows : Spread) (line : Cacheline) (y x : Node) : Prop :=
  ∃ f, f.On flags.isFlush line ∧ knows line y f ∧ knows line f x

variable {hbg : HBG} {pdg : PDG} {flags : Flags} {knows : Spread} {line : Cacheline}

theorem Node.On.imp {p q : NodeType → Bool} (hpq : ∀ k, p k = true → q k = true) {n : Node}
    (h : n.On p line) : n.On q line := by
  cases n with
  | epoch _ => exact h
  | instruction n => exact ⟨hpq _ h.1, h.2⟩

theorem Node.On.access_news {n : Node} (h : n.On NodeType.isReadWriteType line) :
    n.On flags.isNews line :=
  h.imp fun k hk => by simp [Flags.isNews, hk]

theorem Node.On.flush_news {n : Node} (h : n.On flags.isFlush line) : n.On flags.isNews line :=
  h.imp fun k hk => by simp [Flags.isNews, hk]

theorem Node.On.not_flush {n : Node} (h : n.On NodeType.isReadWriteType line) {line' : Cacheline} :
    ¬ n.On flags.isFlush line' := by
  cases n with
  | epoch _ => exact id
  | instruction n =>
    rintro ⟨hf, -⟩
    have ha := h.1
    cases hi : n.itype <;> simp [hi, Flags.isFlush, NodeType.isReadWriteType] at hf ha

/-- What both sweeps need of the spreading of news along the graph. -/
structure Spreads (h : hbg.WellFormed) (flags : Flags) (knows : Spread) : Prop where
  self : ∀ {line n}, n ∈ hbg.nodes → n.On flags.isNews line → knows line n n
  later : ∀ {line y x x'}, knows line y x → (h.dag flags.ignoreInterThreadEdges).Le x x' →
    knows line y x'
  trans : ∀ {line y f x}, knows line y f → knows line f x → knows line y x
  reach : ∀ {line y x}, knows line y x →
    ReflTransGen (h.dag flags.ignoreInterThreadEdges).Step y x
  point : ∀ {line y x}, knows line y x → y ∈ hbg.nodes ∧ x ∈ hbg.nodes
  comes : ∀ {line y n}, knows line y n →
    (∀ m, n ∉ (h.dag flags.ignoreInterThreadEdges).kids m) →
      (n.On flags.isNews line ∧ y = n) ∨
        ∃ x, (h.dag flags.ignoreInterThreadEdges).Lt x n ∧ knows line y x

/-- The clock shows the news in `K`. -/
structure Shows (hbg : HBG) (flags : Flags) (knows : Spread) (line : Cacheline)
    (pvc : PersistencyVectorClock) (K : Node → Prop) : Prop where
  seen : Summarizes Node.tid hbg.stamp pvc.seen
    (fun y => y.On NodeType.isReadWriteType line ∧ K y)
  persisted : Summarizes Node.tid hbg.stamp pvc.persisted
    (fun y => y.On NodeType.isReadWriteType line ∧
      ∃ f, f.On flags.isFlush line ∧ knows line y f ∧ K f)

namespace Shows

variable {a b : PersistencyVectorClock} {K K' : Node → Prop}

theorem new (t : ThreadId) (hK : ∀ y, ¬ K y) : Shows hbg flags knows line (.new t) K where
  seen := .bot (by simp) (fun y hy => hK y hy.2)
  persisted := .bot (by simp) (fun y hy => hy.2.elim fun f hf => hK f hf.2.2)

theorem congr (h : Shows hbg flags knows line a K) (hK : ∀ y, K y ↔ K' y) :
    Shows hbg flags knows line a K' where
  seen := h.seen.congr (fun y => by rw [hK])
  persisted := h.persisted.congr (fun y => by simp only [hK])

theorem congr_clock (h : Shows hbg flags knows line a K) (hs : b.seen = a.seen)
    (hp : b.persisted = a.persisted) : Shows hbg flags knows line b K where
  seen := by rw [hs]; exact h.seen
  persisted := by rw [hp]; exact h.persisted

theorem merge (h : Shows hbg flags knows line a K) (h' : Shows hbg flags knows line b K') :
    Shows hbg flags knows line (a.merge b) (fun y => K y ∨ K' y) where
  seen := by
    refine ((h.seen.sup h'.seen).congr_clock (fun s => ?_)).congr (fun y => and_or_left.symm)
    exact PersistencyVectorClock.seen_merge a b s
  persisted := by
    refine ((h.persisted.sup h'.persisted).congr_clock (fun s => ?_)).congr (fun y => ?_)
    · exact PersistencyVectorClock.persisted_merge a b s
    · rw [← and_or_left, ← exists_or]
      simp only [← and_or_left]

/-- An access is added to what was seen. -/
theorem insert (h : Shows hbg flags knows line a K) {n : Node}
    (hn : n.On NodeType.isReadWriteType line) (hle : a.seen n.tid ≤ hbg.stamp n)
    (hseen : ∀ s, b.seen s = if s = n.tid then hbg.stamp n else a.seen s)
    (hpers : ∀ s, b.persisted s = a.persisted s) :
    Shows hbg flags knows line b (fun y => K y ∨ y = n) where
  seen := by
    refine (h.seen.insert hle hseen).congr (fun y => ?_)
    rw [and_or_left]
    refine or_congr_right ⟨?_, And.right⟩
    rintro rfl
    exact ⟨hn, rfl⟩
  persisted := by
    refine (h.persisted.congr_clock hpers).congr (fun y => and_congr_right fun _ => ?_)
    constructor
    · rintro ⟨f, hf, hy, hk⟩
      exact ⟨f, hf, hy, Or.inl hk⟩
    · rintro ⟨f, hf, hy, hk | rfl⟩
      · exact ⟨f, hf, hy, hk⟩
      · exact absurd hf hn.not_flush

/-- A flush persists all that was seen. -/
theorem flush (h : Shows hbg flags knows line a K) {n : Node} (hn : n.On flags.isFlush line)
    (hto : ∀ y, K y → knows line y n) (hfrom : ∀ y, knows line y n → K y ∨ y = n)
    (htrans : ∀ y f, knows line y f → K f → K y) :
    Shows hbg flags knows line a.flush (fun y => K y ∨ y = n) where
  seen := by
    refine h.seen.congr (fun y => and_congr_right fun ha => ⟨Or.inl, ?_⟩)
    rintro (hk | rfl)
    · exact hk
    · exact absurd hn ha.not_flush
  persisted := by
    have hle : ∀ s, a.persisted s ≤ a.seen s := h.persisted.mono h.seen (by
      rintro y ⟨ha, f, -, hy, hk⟩
      exact ⟨ha, htrans y f hy hk⟩)
    refine (h.seen.congr_clock (fun s => PersistencyVectorClock.persisted_flush (hle s))).congr
      (fun y => and_congr_right fun ha => ?_)
    constructor
    · intro hk
      exact ⟨n, hn, hto y hk, Or.inr rfl⟩
    · rintro ⟨f, -, hy, hk | rfl⟩
      · exact htrans y f hy hk
      · rcases hfrom y hy with hk | rfl
        · exact hk
        · exact absurd hn ha.not_flush

/-- Every component is the stamp of an access that is known, if there is one. -/
theorem stamped (h : Shows hbg flags knows line a K)
    (hknows : ∀ y f, knows line y f → y ∈ hbg.nodes) : Stamped hbg line a.persisted := by
  intro t
  rcases h.persisted.eq_bot_or_greatest (fun y _ => Epoch.bot_lt _) t with
    ⟨hb, -⟩ | ⟨y, ⟨ha, f, -, hy, -⟩, ht, hs, -⟩
  · exact Or.inl hb
  · right
    cases y with
    | epoch _ => exact absurd ha id
    | instruction y => exact ⟨y, hknows _ f hy, ha.1, ha.2, ht, hs⟩

end Shows

/-- The next node of a forward sweep, and the nodes that were handled before it. -/
structure Forward (h : hbg.WellFormed) (i : Bool) (seen : List Node) (n : Node) : Prop where
  mem : n ∈ hbg.nodes
  notMem : n ∉ seen
  seen_of_step : ∀ y, (h.dag i).Step y n → y ∈ seen
  notMem_of_step : ∀ y, (h.dag i).Step n y → y ∉ seen
  lt_of_seen : ∀ x ∈ seen, x.tid = n.tid → (h.dag i).Lt x n

theorem forward_of_split (h : hbg.WellFormed) (i : Bool) {order seen rest : List Node} {n : Node}
    (ht : hbg.graph.IsTopological order) (ho : order = seen ++ n :: rest) :
    Forward h i seen n := by
  have hmem : ∀ x, x ∈ order ↔ x ∈ hbg.nodes := by
    intro x
    rw [ht.mem_iff, h.mem_graph]
  have hn : n ∈ hbg.nodes := (hmem n).mp (by rw [ho]; simp)
  have hdisj : seen.Disjoint (n :: rest) := by
    have hnd := ht.nodup
    rw [ho] at hnd
    exact List.disjoint_of_nodup_append hnd
  have hnotMem : n ∉ seen := fun hx => hdisj hx List.mem_cons_self
  refine ⟨hn, hnotMem, ?_, ?_, ?_⟩
  · intro y hy
    exact ht.mem_of_reaches ho (h.step_reaches hy)
  · intro y hy hys
    have hpost := ht.mem_of_reaches' ho (h.step_reaches hy)
    exact hdisj hys (List.mem_cons_of_mem n hpost)
  · intro x hx hxt
    have hxn : x ∈ hbg.nodes := (hmem x).mp (by rw [ho]; simp [hx])
    have hcmp : (h.dag i).Le n x ∨ (h.dag i).Lt x n := ThreadDag.le_or_lt hn hxn hxt.symm
    rcases hcmp with hle | hlt
    · rcases hle.eq_or_lt with rfl | hlt
      · exact absurd hx hnotMem
      · have hpost := ht.mem_of_reaches' ho (h.step_reaches (Or.inl hlt))
        exact absurd (List.mem_cons_of_mem n hpost) (hdisj hx)
    · exact hlt

/-- The news a thread knows after the nodes in `seen`. -/
def KnownBy (knows : Spread) (seen : List Node) (t : ThreadId) (line : Cacheline) (y : Node) :
    Prop :=
  ∃ x ∈ seen, x.tid = t ∧ knows line y x

/-- The clocks of the threads after the nodes in `seen`. -/
structure Clocks (hbg : HBG) (flags : Flags) (knows : Spread) (seen : List Node)
    (found : Findings) : Prop where
  tid : ∀ t line, (found.pvc t line).lastSeen.tid = t
  shows : ∀ t line, Shows hbg flags knows line (found.pvc t line) (KnownBy knows seen t line)

theorem Clocks.congr {seen : List Node} {found found' : Findings}
    (h : Clocks hbg flags knows seen found) (hs : found'.SameClocks found) :
    Clocks hbg flags knows seen found' where
  tid := by
    intro t line
    rw [hs.tid]
    exact h.tid t line
  shows := fun t line => (h.shows t line).congr_clock (hs.seen t line) (hs.persisted t line)

theorem clocks_new (hbg : HBG) (flags : Flags) (knows : Spread) (vcs : ReversedClocks Node) :
    Clocks hbg flags knows [] ⟨∅, vcs, .new, 0⟩ where
  tid := by
    intro t line
    simp [Findings.pvc, LineClocks.clock, PersistencyVectorClock.new]
  shows := by
    intro t line
    have hnew : Findings.pvc ⟨∅, vcs, .new, 0⟩ t line = .new t := by
      simp [Findings.pvc, LineClocks.clock]
    rw [hnew]
    exact .new t (by simp [KnownBy])

section Step

variable {h : hbg.WellFormed} {seen : List Node} {n : Node} {found : Findings}

theorem Spreads.arises_iff (hk : Spreads h flags knows)
    (hf : Forward h flags.ignoreInterThreadEdges seen n)
    (hmail : ∀ m, n ∉ (h.dag flags.ignoreInterThreadEdges).kids m) (y : Node) :
    knows line y n ↔ (n.On flags.isNews line ∧ y = n) ∨ KnownBy knows seen n.tid line y := by
  constructor
  · intro hy
    refine (hk.comes hy hmail).imp_right ?_
    rintro ⟨x, hlt, hx⟩
    exact ⟨x, hf.seen_of_step x (Or.inl hlt), hlt.2.2.1, hx⟩
  · rintro (⟨hn, rfl⟩ | ⟨x, hx, ht, hy⟩)
    · exact hk.self hf.mem hn
    · exact hk.later hy (hf.lt_of_seen x hx ht).le

/-- What a thread knows after a node that gets no mail. -/
theorem Spreads.knownBy_append (hk : Spreads h flags knows)
    (hf : Forward h flags.ignoreInterThreadEdges seen n)
    (hmail : ∀ m, n ∉ (h.dag flags.ignoreInterThreadEdges).kids m) (t : ThreadId) (y : Node) :
    KnownBy knows (seen ++ [n]) t line y ↔
      KnownBy knows seen t line y ∨ (n.tid = t ∧ n.On flags.isNews line ∧ y = n) := by
  unfold KnownBy
  rw [exists_seen_append, hk.arises_iff hf hmail]
  refine ⟨?_, ?_⟩
  · rintro (hx | ⟨rfl, hn | hx⟩)
    · exact Or.inl hx
    · exact Or.inr ⟨rfl, hn⟩
    · exact Or.inl hx
  · rintro (hx | ⟨rfl, hn⟩)
    · exact Or.inl hx
    · exact Or.inr ⟨rfl, Or.inl hn⟩

/-- A node that is no news leaves the clocks as they are. -/
theorem Clocks.idle (hc : Clocks hbg flags knows seen found) (hk : Spreads h flags knows)
    (hf : Forward h flags.ignoreInterThreadEdges seen n)
    (hmail : ∀ m, n ∉ (h.dag flags.ignoreInterThreadEdges).kids m)
    (hn : ∀ line, ¬ n.On flags.isNews line) : Clocks hbg flags knows (seen ++ [n]) found where
  tid := hc.tid
  shows := by
    intro t line
    refine (hc.shows t line).congr (fun y => ?_)
    rw [hk.knownBy_append hf hmail]
    simp [hn line]

/-- The own component of a thread stays behind its next node. -/
theorem Clocks.seen_lt (hc : Clocks hbg flags knows seen found) (hk : Spreads h flags knows)
    (hf : Forward h flags.ignoreInterThreadEdges seen n) (line : Cacheline) :
    (found.pvc n.tid line).seen n.tid < hbg.stamp n := by
  by_contra hle
  obtain ⟨y, ⟨-, x, hx, ht, hy⟩, hyt, hstamp⟩ :=
    ((hc.shows n.tid line).seen n.tid _ (Epoch.bot_lt _)).mp (not_lt.mp hle)
  have hreach : (h.dag flags.ignoreInterThreadEdges).Reach y n :=
    TransGen.tail' (hk.reach hy) (Or.inl (hf.lt_of_seen x hx ht))
  have hlt := (h.dag_acyclic _).lt_of_reach hreach hyt
  exact absurd (Epoch.ofInt_le.mp hstamp) (not_le.mpr hlt.2.2.2)

theorem Findings.pvc_setClock {found found' : Findings} {t : ThreadId} {line : Cacheline}
    {pvc : PersistencyVectorClock}
    (hs : found'.pvcPerThread = found.pvcPerThread.setClock t line pvc)
    (t' : ThreadId) (line' : Cacheline) :
    found'.pvc t' line' = if t' = t ∧ line' = line then pvc else found.pvc t' line' := by
  unfold Findings.pvc
  rw [hs, LineClocks.clock_setClock]

/-- One clock is replaced by one that also shows the next node. -/
theorem Clocks.setClock (hc : Clocks hbg flags knows seen found) (hk : Spreads h flags knows)
    (hf : Forward h flags.ignoreInterThreadEdges seen n)
    (hmail : ∀ m, n ∉ (h.dag flags.ignoreInterThreadEdges).kids m)
    (hn : n.On flags.isNews line) (hother : ∀ line', line' ≠ line → ¬ n.On flags.isNews line')
    {pvc : PersistencyVectorClock} {found' : Findings}
    (hs : found'.pvcPerThread = found.pvcPerThread.setClock n.tid line pvc)
    (htid : pvc.lastSeen.tid = n.tid)
    (hshow : Shows hbg flags knows line pvc (fun y => KnownBy knows seen n.tid line y ∨ y = n)) :
    Clocks hbg flags knows (seen ++ [n]) found' where
  tid := by
    intro t line'
    rw [Findings.pvc_setClock hs]
    split_ifs with ht
    · rw [htid, ht.1]
    · exact hc.tid t line'
  shows := by
    intro t line'
    rw [Findings.pvc_setClock hs]
    split_ifs with ht
    · obtain ⟨rfl, rfl⟩ := ht
      refine hshow.congr (fun y => ?_)
      rw [hk.knownBy_append hf hmail]
      simp [hn]
    · refine (hc.shows t line').congr (fun y => ?_)
      rw [hk.knownBy_append hf hmail]
      refine (or_iff_left ?_).symm
      rintro ⟨rfl, hn', -⟩
      exact hother line' (fun hl => ht ⟨rfl, hl⟩) hn'

end Step

section Instruction

variable {h : hbg.WellFormed} {seen : List Node} {n : InstructionNode} {found : Findings}

theorem kids_instruction (h : hbg.WellFormed) (i : Bool) (n : InstructionNode) :
    (h.dag i).kids (.instruction n) = [] :=
  h.kids_eq_nil i n.itype_ne_epoch

theorem not_mem_kids_instruction (h : hbg.WellFormed) (i : Bool) (n : InstructionNode) (m : Node) :
    Node.instruction n ∉ (h.dag i).kids m :=
  h.not_mem_kids i n.itype_ne_epoch

theorem addAccess_spec (hc : Clocks hbg flags knows seen found) (hk : Spreads h flags knows)
    (hf : Forward h flags.ignoreInterThreadEdges seen (.instruction n))
    (hn : n.itype.isReadWriteType = true) :
    ∃ found', addAccess hbg found n = .ok found' ∧
      Clocks hbg flags knows (seen ++ [.instruction n]) found' ∧
      found'.races = found.races ∧ ∀ r, found'.after r = found.after r := by
  have hlt := hc.seen_lt hk hf n.getCachelineAddress
  have htid := hc.tid n.tid n.getCachelineAddress
  have hlt' : (found.pvc n.tid n.getCachelineAddress).seen
      (found.pvc n.tid n.getCachelineAddress).lastSeen.tid < hbg.stamp (.instruction n) := by
    rw [htid]
    exact hlt
  obtain ⟨pvc, hok, hptid, hseen, hpers⟩ := PersistencyVectorClock.addEpoch_spec hlt'
  rw [htid] at hptid hseen
  have hok' : (LineClocks.clock found.pvcPerThread n.tid n.tid n.getCachelineAddress).addEpoch
      (Epoch.ofInt (hbg.index (.instruction n))) = .ok pvc := hok
  refine ⟨{ found with
    pvcPerThread := found.pvcPerThread.setClock n.tid n.getCachelineAddress pvc }, ?_, ?_, rfl,
    fun r => rfl⟩
  · unfold addAccess
    simp only [h.location _ hf.mem, ok_bind, hok']
    rfl
  · have hnews : (Node.instruction n).On flags.isNews n.getCachelineAddress :=
      Node.On.access_news ⟨hn, rfl⟩
    refine hc.setClock hk hf (not_mem_kids_instruction h _ n) hnews
      (fun line' hl hon => hl hon.2.symm) rfl hptid ?_
    exact (hc.shows n.tid _).insert ⟨hn, rfl⟩ hlt.le hseen hpers

theorem flushLine_spec (hc : Clocks hbg flags knows seen found) (hk : Spreads h flags knows)
    (hf : Forward h flags.ignoreInterThreadEdges seen (.instruction n))
    (hn : flags.isFlush n.itype = true) :
    Clocks hbg flags knows (seen ++ [.instruction n]) (flushLine found n) := by
  have hnews : (Node.instruction n).On flags.isNews n.getCachelineAddress :=
    Node.On.flush_news ⟨hn, rfl⟩
  have harises : ∀ y, knows n.getCachelineAddress y (.instruction n) ↔
      ((Node.instruction n).On flags.isNews n.getCachelineAddress ∧ y = .instruction n) ∨
        KnownBy knows seen n.tid n.getCachelineAddress y :=
    fun y => hk.arises_iff hf (not_mem_kids_instruction h _ n) y
  refine hc.setClock hk hf (not_mem_kids_instruction h _ n) hnews
    (fun line' hl hon => hl hon.2.symm) rfl (hc.tid n.tid _) ?_
  have hon : (Node.instruction n).On flags.isFlush n.getCachelineAddress := ⟨hn, rfl⟩
  refine (hc.shows n.tid _).flush hon ?_ ?_ ?_
  · intro y hy
    exact (harises y).mpr (Or.inr hy)
  · intro y hy
    exact ((harises y).mp hy).symm.imp_right And.right
  · rintro y f hy ⟨x, hx, ht, hfx⟩
    exact ⟨x, hx, ht, hk.trans hy hfx⟩

end Instruction

/-- The first `i` messages of `n` are out, and all those of the nodes before it. -/
def SentUpTo (seen : List Node) (n : Node) (i : ℕ) (m : Node) (j : ℕ) : Prop :=
  m ∈ seen ∨ m = n ∧ j < i

theorem sentUpTo_zero (seen : List Node) (n m : Node) (j : ℕ) :
    SentUpTo seen n 0 m j ↔ m ∈ seen := by
  simp [SentUpTo]

theorem sentUpTo_succ (seen : List Node) (n m : Node) (i j : ℕ) :
    SentUpTo seen n (i + 1) m j ↔ SentUpTo seen n i m j ∨ m = n ∧ j = i := by
  unfold SentUpTo
  rw [Nat.lt_succ_iff_lt_or_eq]
  tauto

/-- The message that goes out is the `i`-th of `n`. -/
theorem exists_sentUpTo_succ {seen : List Node} {n : Node} {i : ℕ} {p : Node → ℕ → Prop} :
    (∃ m j, SentUpTo seen n (i + 1) m j ∧ p m j) ↔
      (∃ m j, SentUpTo seen n i m j ∧ p m j) ∨ p n i := by
  simp only [sentUpTo_succ, or_and_right, exists_or]
  refine or_congr_right ⟨?_, fun hp => ⟨n, i, ⟨rfl, rfl⟩, hp⟩⟩
  rintro ⟨m, j, ⟨rfl, rfl⟩, hp⟩
  exact hp

/-- When the loop over the children has ended, all messages of `n` are out. -/
theorem sentUpTo_of_drop_eq_nil {kids : Node → List Node} {seen : List Node} {n m c : Node}
    {i j : ℕ} (hrest : (kids n).drop i = []) (hk : (kids m)[j]? = some c) :
    SentUpTo seen n i m j ↔ m ∈ seen ++ [n] := by
  rw [List.mem_append, List.mem_singleton]
  refine or_congr_right (and_iff_left_of_imp ?_)
  rintro rfl
  exact lt_of_lt_of_le (List.getElem?_eq_some_iff.mp hk).1 (List.drop_eq_nil_iff.mp hrest)

/-- The child whose turn it is, and those that are left. -/
theorem getElem?_of_drop_eq_cons {kids children : List Node} {c : Node} {i : ℕ}
    (hrest : kids.drop i = c :: children) :
    kids[i]? = some c ∧ kids.drop (i + 1) = children := by
  refine ⟨?_, ?_⟩
  · rw [← Nat.add_zero i, ← List.getElem?_drop, hrest]
    rfl
  · rw [← List.tail_drop, hrest]
    rfl

/-- No message went to a thread from certain nodes: after the message to `c` as well, unless `n` is
one of them and `c` is of that thread. -/
theorem silent_sentUpTo_succ {h : hbg.WellFormed} {ig : Bool} {seen : List Node} {n c : Node}
    {i : ℕ} (hkid : ((h.dag ig).kids n)[i]? = some c) {p : Node → Prop} {v : ThreadId} :
    (∀ x j c', SentUpTo seen n (i + 1) x j → ((h.dag ig).kids x)[j]? = some c' → p x → c'.tid ≠ v) ↔
      (∀ x j c', SentUpTo seen n i x j → ((h.dag ig).kids x)[j]? = some c' → p x → c'.tid ≠ v) ∧
        (p n → v ≠ c.tid) := by
  constructor
  · intro hsilent
    refine ⟨fun x j c' hx => hsilent x j c' ((sentUpTo_succ ..).mpr (Or.inl hx)), fun hp => ?_⟩
    exact (hsilent n i c ((sentUpTo_succ ..).mpr (Or.inr ⟨rfl, rfl⟩)) hkid hp).symm
  · rintro ⟨hsilent, hc⟩ x j c' hx hk hp
    rcases (sentUpTo_succ ..).mp hx with hx | ⟨rfl, rfl⟩
    · exact hsilent x j c' hx hk hp
    · rw [hkid] at hk
      obtain rfl := Option.some.inj hk
      exact (hc hp).symm

theorem kids_tid (h : hbg.WellFormed) {i : Bool} {n c : Node} (hc : c ∈ (h.dag i).kids n) :
    n.tid ≠ c.tid ∧ n.tid ∈ hbg.tids ∧ c.tid ∈ hbg.tids := by
  have hp := (h.dag i).kids_point hc
  exact ⟨(h.dag i).kids_track hc, (h.mem_tids _).mpr ⟨n, hp.1, rfl⟩,
    (h.mem_tids _).mpr ⟨c, hp.2, rfl⟩⟩

section Mail

variable {h : hbg.WellFormed} {seen : List Node} {n : Node} {found : Findings}

/-- Telling a child the clocks of some lines shows what they showed. -/
theorem shows_tellLines {clocks : LineClocks ThreadId} {t : ThreadId} {child : Node}
    {known : Cacheline → Node → Prop}
    (hclocks : ∀ line, Shows hbg flags knows line (clocks.clock t t line) (known line))
    (lines : List Cacheline) (epochs : LineClocks Node) (c : Node) (line : Cacheline)
    {K : Node → Prop} (hepochs : Shows hbg flags knows line (epochs.clock c c.tid line) K) :
    Shows hbg flags knows line ((tellLines clocks t child lines epochs).clock c c.tid line)
      (fun y => K y ∨ (c = child ∧ line ∈ lines) ∧ known line y) := by
  unfold tellLines
  induction lines generalizing epochs K with
  | nil => exact hepochs.congr (by simp)
  | cons l lines ih =>
    rw [List.foldl_cons]
    have hstep : Shows hbg flags knows line
        ((epochs.setClock child l ((epochs.clock child child.tid l).merge
          (clocks.clock t t l))).clock c c.tid line)
        (fun y => K y ∨ (c = child ∧ line = l) ∧ known line y) := by
      rw [LineClocks.clock_setClock]
      split_ifs with hcl
      · obtain ⟨rfl, rfl⟩ := hcl
        exact (hepochs.merge (hclocks line)).congr (by simp)
      · exact hepochs.congr (by simp [hcl])
    refine (ih _ hstep).congr (fun y => ?_)
    rw [List.mem_cons]
    tauto

theorem clock_mergeLines_loop (epochs : LineClocks Node) (n : Node) (lines : List Cacheline)
    (hnd : lines.Nodup) (clocks : LineClocks ThreadId) (t : ThreadId) (line : Cacheline) :
    (lines.foldl (fun clocks line => clocks.setClock n.tid line
      ((clocks.clock n.tid n.tid line).merge (epochs.clock n n.tid line))) clocks).clock t t line =
      if t = n.tid ∧ line ∈ lines then
        (clocks.clock t t line).merge (epochs.clock n n.tid line)
      else clocks.clock t t line := by
  induction lines generalizing clocks with
  | nil => simp
  | cons l lines ih =>
    obtain ⟨hl, hnd⟩ := List.nodup_cons.mp hnd
    rw [List.foldl_cons, ih hnd, LineClocks.clock_setClock]
    by_cases ht : t = n.tid
    · subst ht
      by_cases hll : line = l
      · subst hll
        simp [hl]
      · simp [hll]
    · simp [ht]

/-- Merging what was told shows it, also on the lines that nothing was told about. -/
theorem shows_mergeLines {epochs : LineClocks Node} {K : ThreadId → Cacheline → Node → Prop}
    {told : Cacheline → Node → Prop}
    (hclocks : ∀ t line, Shows hbg flags knows line (found.pvc t line) (K t line))
    (hepochs : ∀ line, Shows hbg flags knows line (epochs.clock n n.tid line) (told line))
    (found' : Findings) (hs : found'.pvcPerThread = mergeLines epochs n found.pvcPerThread)
    (t : ThreadId) (line : Cacheline) :
    (found'.pvc t line).lastSeen.tid = (found.pvc t line).lastSeen.tid ∧
      Shows hbg flags knows line (found'.pvc t line)
        (fun y => K t line y ∨ t = n.tid ∧ told line y) := by
  have hclock : found'.pvc t line =
      if t = n.tid ∧ line ∈ (epochs.getD n ∅).keys then
        (found.pvc t line).merge (epochs.clock n n.tid line)
      else found.pvc t line := by
    unfold Findings.pvc
    rw [hs]
    exact clock_mergeLines_loop epochs n _ (epochs.getD n ∅).keys_nodup _ t line
  rw [hclock]
  by_cases ht : t = n.tid
  · subst ht
    by_cases hl : line ∈ (epochs.getD n ∅).keys
    · simp only [hl, and_self, if_true, true_and]
      exact ⟨PersistencyVectorClock.ownTid_merge _ _, (hclocks _ line).merge (hepochs line)⟩
    · simp only [hl, and_false, if_false, true_and]
      have hnone : epochs.clock n n.tid line = .new n.tid :=
        Dict.getD_of_notMem (fun hm => hl (AList.mem_keys.mpr hm)) _
      have hmerge := (hclocks n.tid line).merge (hepochs line)
      rw [hnone] at hmerge
      refine hmerge.congr_clock ?_ ?_
      · funext s
        rw [PersistencyVectorClock.seen_merge, PersistencyVectorClock.seen_new, max_bot_right]
      · funext s
        rw [PersistencyVectorClock.persisted_merge, PersistencyVectorClock.persisted_new,
          max_bot_right]
  · simp only [ht, false_and, if_false, or_false]
    exact ⟨trivial, hclocks t line⟩

end Mail

section Races

variable {h : hbg.WellFormed} {seen : List Node} {found : Findings} {d : InstructionNode}

/-- What the thread of a node knows right after it is known at the node. -/
theorem Forward.knownBy_iff {n : Node} (hf : Forward h flags.ignoreInterThreadEdges seen n)
    (hk : Spreads h flags knows) (y : Node) :
    KnownBy knows (seen ++ [n]) n.tid line y ↔ knows line y n := by
  unfold KnownBy
  rw [exists_seen_append]
  constructor
  · rintro (⟨x, hx, ht, hy⟩ | ⟨-, hy⟩)
    · exact hk.later hy (hf.lt_of_seen x hx ht).le
    · exact hy
  · exact fun hy => Or.inr ⟨rfl, hy⟩

/-- A clock dominates exactly the accesses below the ones it summarizes. -/
theorem upTo_iff_of_summarizes {clock : ThreadId → Epoch} {P : Node → Prop}
    (hs : Summarizes Node.tid hbg.stamp clock P) {w : InstructionNode}
    (hP : ∀ y, P y → y.tid = w.tid → hbg.index (.instruction w) ≤ hbg.index y →
      P (.instruction w)) :
    hbg.UpTo clock w ↔ P (.instruction w) := by
  unfold HBG.UpTo
  rw [hs w.tid (hbg.stamp (.instruction w)) (Epoch.bot_lt _)]
  constructor
  · rintro ⟨y, hy, ht, hle⟩
    exact hP y hy ht (Epoch.ofInt_le.mp hle)
  · exact fun hw => ⟨_, hw, rfl, le_rfl⟩

/-- News of an earlier access of a thread goes wherever news of a later one goes. -/
theorem Spreads.of_le (hk : Spreads h flags knows) {w y x : Node} (hw : w ∈ hbg.nodes)
    (hn : w.On NodeType.isReadWriteType line) (hy : knows line y x) (ht : y.tid = w.tid)
    (hle : hbg.index w ≤ hbg.index y) : knows line w x :=
  hk.trans (hk.later (hk.self hw hn.access_news) ⟨hw, (hk.point hy).1, ht.symm, hle⟩) hy

theorem upTo_seen_iff (hc : Clocks hbg flags knows (seen ++ [.instruction d]) found)
    (hk : Spreads h flags knows)
    (hf : Forward h flags.ignoreInterThreadEdges seen (.instruction d)) {w : InstructionNode}
    (hw : Node.instruction w ∈ hbg.nodes) (hi : w.itype.isReadWriteType = true)
    (hl : w.getCachelineAddress = line) :
    hbg.UpTo (found.pvc d.tid line).seen w ↔ knows line (.instruction w) (.instruction d) := by
  have hon : (Node.instruction w).On NodeType.isReadWriteType line := ⟨hi, hl⟩
  have hs := (hc.shows d.tid line).seen.congr (fun y =>
    and_congr_right fun _ => hf.knownBy_iff hk y)
  rw [upTo_iff_of_summarizes hs]
  · exact and_iff_right hon
  · rintro y ⟨-, hy⟩ ht hle
    exact ⟨hon, hk.of_le hw hon hy ht hle⟩

theorem upTo_persisted_iff (hc : Clocks hbg flags knows (seen ++ [.instruction d]) found)
    (hk : Spreads h flags knows)
    (hf : Forward h flags.ignoreInterThreadEdges seen (.instruction d)) {w : InstructionNode}
    (hw : Node.instruction w ∈ hbg.nodes) (hi : w.itype.isReadWriteType = true)
    (hl : w.getCachelineAddress = line) :
    hbg.UpTo (found.pvc d.tid line).persisted w ↔
      PersistedBy flags knows line (.instruction w) (.instruction d) := by
  have hon : (Node.instruction w).On NodeType.isReadWriteType line := ⟨hi, hl⟩
  have hs := (hc.shows d.tid line).persisted.congr (fun y =>
    and_congr_right fun _ => exists_congr fun f => and_congr_right fun _ =>
      and_congr_right fun _ => hf.knownBy_iff hk f)
  rw [upTo_iff_of_summarizes hs]
  · exact and_iff_right hon
  · rintro y ⟨-, f, hff, hy, hfd⟩ ht hle
    exact ⟨hon, f, hff, hk.of_le hw hon hy ht hle, hfd⟩

theorem from_iff {clock : ThreadId → ReversedEpoch} {r : Node} {i : Bool}
    (hs : Summarizes Node.tid hbg.reversedStamp clock
      (fun w => w.itype = .write ∧ (h.dag i).Ahead r w)) {w : InstructionNode}
    (hw : Node.instruction w ∈ hbg.nodes) (hi : w.itype = .write) :
    hbg.From clock w ↔ (h.dag i).Ahead r (.instruction w) := by
  unfold HBG.From
  rw [hs w.tid (hbg.reversedStamp (.instruction w)) (ReversedEpoch.bot_lt _)]
  constructor
  · rintro ⟨y, ⟨-, hy⟩, ht, hle⟩
    have hyn : y ∈ hbg.nodes := hy.reach.point.2
    have hle' : (h.dag i).Le y (.instruction w) := ⟨hyn, hw, ht, ReversedEpoch.ofInt_le.mp hle⟩
    rcases hle'.eq_or_lt with rfl | hlt
    · exact hy
    · exact hy.trans_lt hlt
  · exact fun hy => ⟨.instruction w, ⟨hi, hy⟩, rfl, le_rfl⟩

/-- The reported triples, given what is spread to where. -/
def Race (h : hbg.WellFormed) (pdg : PDG) (flags : Flags) (knows : Spread) :
    InstructionNode → InstructionNode → InstructionNode → Prop :=
  RaceWith hbg pdg flags
    (fun line y d => PersistedBy flags knows line (.instruction y) (.instruction d))
    (fun r w => (h.dag flags.ignoreInterThreadEdges).Ahead (.instruction r) (.instruction w))

/-- Only the writes to the line of the read matter. -/
theorem RaceWith.congr {persisted persisted' : Cacheline → InstructionNode → InstructionNode → Prop}
    {after after' : InstructionNode → InstructionNode → Prop} {r w : InstructionNode}
    (hr : r ∈ pdg.getDependencies d →
      (persisted r.getCachelineAddress r d ↔ persisted' r.getCachelineAddress r d))
    (hw : r ∈ pdg.getDependencies d → ∀ v, WritesTo hbg r.getCachelineAddress v.tid v →
      (persisted r.getCachelineAddress v d ↔ persisted' r.getCachelineAddress v d) ∧
        (after r v ↔ after' r v)) :
    RaceWith hbg pdg flags persisted after r w d ↔
      RaceWith hbg pdg flags persisted' after' r w d := by
  unfold RaceWith
  refine and_congr_right fun hdep => ?_
  rw [hr hdep]
  refine and_congr_right fun _ => ?_
  have hs : ∀ v, WritesTo hbg r.getCachelineAddress v.tid v →
      (Survives flags r (persisted r.getCachelineAddress · d) (after r) v ↔
        Survives flags r (persisted' r.getCachelineAddress · d) (after' r) v) := by
    intro v hv
    unfold Survives
    simp only [(hw hdep v hv).1, (hw hdep v hv).2]
  unfold Reported
  refine and_congr_right fun hwl => ?_
  rw [hs w hwl]
  refine and_congr_right fun _ => forall_congr' fun _ => forall_congr' fun v => ?_
  refine forall_congr' fun hv => ?_
  have hv' : WritesTo hbg r.getCachelineAddress v.tid v := by
    rw [hv.2.2.2]
    exact hv
  rw [hs v hv']

/-- What was reported for the writes in `seen`. -/
structure Verdicts (h : hbg.WellFormed) (pdg : PDG) (flags : Flags) (knows : Spread)
    (seen : List Node) (found : Findings) : Prop where
  after : ∀ r, Node.instruction r ∈ hbg.nodes → r.itype = .read →
    Summarizes Node.tid hbg.reversedStamp (found.after r) (fun w => w.itype = .write ∧
      (h.dag flags.ignoreInterThreadEdges).Ahead (.instruction r) w)
  reports : ∀ r w d, found.races.Reports r w d ↔
    Node.instruction d ∈ seen ∧ Race h pdg flags knows r w d
  labels : ∀ x ∈ found.races.races, ∃ b, x.isWriteHbDependent = some b ∧ (b = true ↔
    knows x.readNode.getCachelineAddress (.instruction x.writeNode) (.instruction x.dependentNode))

theorem Verdicts.mono {found' : Findings} (hv : Verdicts h pdg flags knows seen found)
    (hr : found'.races = found.races) (ha : ∀ r, found'.after r = found.after r) :
    Verdicts h pdg flags knows seen found' where
  after := by
    intro r hr hi
    rw [ha]
    exact hv.after r hr hi
  reports := by
    rw [hr]
    exact hv.reports
  labels := by
    rw [hr]
    exact hv.labels

/-- A node that is no write changes no report. -/
theorem Verdicts.skip (hin : Input hbg pdg) {n : Node}
    (hv : Verdicts h pdg flags knows seen found) (hn : n.itype ≠ .write) :
    Verdicts h pdg flags knows (seen ++ [n]) found where
  after := hv.after
  reports := by
    intro r w d
    rw [hv.reports, List.mem_append, List.mem_singleton]
    refine ⟨fun hd => ⟨Or.inl hd.1, hd.2⟩, ?_⟩
    rintro ⟨hd | rfl, hrace⟩
    · exact ⟨hd, hrace⟩
    · exact absurd (hin.dependency d r hrace.1).2.2.1 hn
  labels := hv.labels

theorem raceAt_iff (hin : Input hbg pdg) (hk : Spreads h flags knows)
    (hf : Forward h flags.ignoreInterThreadEdges seen (.instruction d))
    (hc : Clocks hbg flags knows (seen ++ [.instruction d]) found)
    (hv : Verdicts h pdg flags knows seen found) (r w : InstructionNode) :
    RaceAt hbg pdg flags found r w d ↔ Race h pdg flags knows r w d := by
  refine RaceWith.congr (fun hdep => ?_) (fun hdep v hwv => ⟨?_, ?_⟩)
  · obtain ⟨-, hrn, -, hri, -⟩ := hin.dependency d r hdep
    exact upTo_persisted_iff hc hk hf hrn (by rw [hri]; rfl) rfl
  · exact upTo_persisted_iff hc hk hf hwv.1 (by rw [hwv.2.1]; rfl) hwv.2.2.1
  · obtain ⟨-, hrn, -, hri, -⟩ := hin.dependency d r hdep
    exact from_iff (hv.after r hrn hri) hwv.1 hwv.2.1

/-- The search for races at a write keeps the invariant. -/
theorem findBugs_verdicts (hin : Input hbg pdg) (hk : Spreads h flags knows)
    (hf : Forward h flags.ignoreInterThreadEdges seen (.instruction d))
    (hc : Clocks hbg flags knows (seen ++ [.instruction d]) found)
    (hv : Verdicts h pdg flags knows seen found) :
    ∃ found', findBugs hbg pdg flags found d = .ok found' ∧
      Clocks hbg flags knows (seen ++ [.instruction d]) found' ∧
      Verdicts h pdg flags knows (seen ++ [.instruction d]) found' := by
  have hst : ∀ line, Stamped hbg line (found.pvc d.tid line).persisted :=
    fun line => (hc.shows d.tid line).stamped (fun y f hy => (hk.point hy).1)
  obtain ⟨found', hok, hsame, hrep, hlab⟩ := findBugs_spec hin flags found hst
  refine ⟨found', hok, hc.congr hsame, ?_, ?_, ?_⟩
  · intro r hr hri
    rw [hsame.after]
    exact hv.after r hr hri
  · intro r w d'
    rw [hrep, hv.reports, List.mem_append, List.mem_singleton]
    constructor
    · rintro (⟨hd, hrace⟩ | ⟨rfl, hrace⟩)
      · exact ⟨Or.inl hd, hrace⟩
      · exact ⟨Or.inr rfl, (raceAt_iff hin hk hf hc hv r w).mp hrace⟩
    · rintro ⟨hd | hd, hrace⟩
      · exact Or.inl ⟨hd, hrace⟩
      · cases hd
        exact Or.inr ⟨rfl, (raceAt_iff hin hk hf hc hv r w).mpr hrace⟩
  · intro x hx
    rcases hlab x hx with hx' | ⟨hxd, hlabel⟩
    · exact hv.labels x hx'
    refine ⟨_, hlabel, ?_⟩
    have hreport : found'.races.Reports x.readNode x.writeNode x.dependentNode :=
      List.mem_map_of_mem hx
    have hrace : Race h pdg flags knows x.readNode x.writeNode d := by
      rcases (hrep _ _ _).mp hreport with hold | ⟨-, hnew⟩
      · have hold := ((hv.reports _ _ _).mp hold).1
        rw [hxd] at hold
        exact absurd hold hf.notMem
      · rw [hxd] at hnew
        exact (raceAt_iff hin hk hf hc hv _ _).mp hnew
    have hwt := hrace.2.2.1
    rw [decide_eq_true_iff, hxd]
    exact upTo_seen_iff hc hk hf hwt.1 (by rw [hwt.2.1]; rfl) hwt.2.2.1

end Races

end Prd.Pycprd
