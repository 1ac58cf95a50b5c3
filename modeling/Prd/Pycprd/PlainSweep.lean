import Prd.Foundation.LateGossip
import Prd.Pycprd.Spreading

/-!
# What the plain forward sweep computes

An epoch node tells its children the state of its thread before it merges what it
was told itself. So the sweep spreads news as `ThreadDag.KnowsLate` does: what
comes in at an epoch node goes on from a later epoch node of the thread only.
-/
namespace Prd.Pycprd

open Prd.Foundation Relation

variable {hbg : HBG} {pdg : PDG} {flags : Flags}

/-- The news of a line as the plain sweep spreads it. -/
def PlainKnows (h : hbg.WellFormed) (flags : Flags) : Spread := fun line =>
  (h.dag flags.ignoreInterThreadEdges).KnowsLate (Node.On flags.isNews line)

theorem plainKnows_spreads (h : hbg.WellFormed) (flags : Flags) :
    Spreads h flags (PlainKnows h flags) where
  self := fun hn hon => .self hon hn
  later := fun hy hle => .later hy hle
  trans := fun hy hf => hy.trans hf
  reach := fun hy => hy.reach
  point := fun hy => hy.point
  comes := by
    intro line y n hy hmail
    rcases (ThreadDag.knowsLate_iff hy.point.2).mp hy with hn | hx | ⟨m, j, ht, -⟩
    · exact Or.inl hn
    · exact Or.inr hx
    · exact absurd ht.mem (hmail m)

/-- After `q` no message that is out went to the thread. -/
def QuietAfter (h : hbg.WellFormed) (i : Bool) (sent : Node → ℕ → Prop) (v : ThreadId)
    (q : Node) : Prop :=
  ∀ (x : Node) (j : ℕ) (c : Node), sent x j → ((h.dag i).kids x)[j]? = some c →
    (h.dag i).Lt q x → c.tid ≠ v

/-- The state of the messages, when `merged` have merged their mail and `sent m j` holds
for the messages that are out. -/
structure PlainMail (h : hbg.WellFormed) (flags : Flags) (merged : List Node)
    (sent : Node → ℕ → Prop) (s : PlainState) : Prop where
  epochs : ∀ c, c ∉ merged → ∀ line, Shows hbg flags (PlainKnows h flags) line
    (s.pvcPerEpochNode.clock c c.tid line) (fun y => ∃ m j, sent m j ∧
      (h.dag flags.ignoreInterThreadEdges).TellsLate (Node.On flags.isNews line) m j c ∧
        ∃ x, (h.dag flags.ignoreInterThreadEdges).Lt x m ∧ PlainKnows h flags line y x)
  lines : ∀ c, c ∉ merged → ∀ line, line ∈ s.pvcPerEpochNode.getD c ∅ ↔ ∃ m j, sent m j ∧
    (h.dag flags.ignoreInterThreadEdges).TellsLate (Node.On flags.isNews line) m j c
  dirty : ∀ t v line, v ∈ hbg.tids → v ≠ t → (line ∈ s.dirty t ∨ line ∈ s.cell t v ↔
    ∃ q ∈ merged, q.tid = t ∧
      (h.dag flags.ignoreInterThreadEdges).SourceLate (Node.On flags.isNews line) q ∧
        QuietAfter h flags.ignoreInterThreadEdges sent v q)

theorem plainMail_new (h : hbg.WellFormed) (flags : Flags) (vcs : ReversedClocks Node) :
    PlainMail h flags [] (fun m _ => m ∈ []) (.new vcs) where
  epochs := by
    intro c _ line
    have hnew : (PlainState.new vcs).pvcPerEpochNode.clock c c.tid line = .new c.tid := by
      simp [PlainState.new, LineClocks.clock]
    rw [hnew]
    exact .new _ (by simp)
  lines := by
    intro c _ line
    simp [PlainState.new]
  dirty := by
    intro t v line _ _
    simp [PlainState.new, PlainState.dirty, PlainState.cell]

theorem PlainMail.congr_sent {h : hbg.WellFormed} {merged : List Node}
    {sent sent' : Node → ℕ → Prop} {s : PlainState} (hm : PlainMail h flags merged sent s)
    (hs : ∀ m j c, ((h.dag flags.ignoreInterThreadEdges).kids m)[j]? = some c →
      (sent m j ↔ sent' m j)) : PlainMail h flags merged sent' s where
  epochs := by
    intro c hc line
    refine (hm.epochs c hc line).congr (fun y => ?_)
    refine exists_congr fun m => exists_congr fun j => and_congr_left fun ⟨ht, _⟩ => ?_
    exact hs m j c ht.1
  lines := by
    intro c hc line
    rw [hm.lines c hc line]
    exact exists_congr fun m => exists_congr fun j => and_congr_left fun ht => hs m j c ht.1
  dirty := by
    intro t v line hv hvt
    rw [hm.dirty t v line hv hvt]
    refine exists_congr fun q => and_congr_right fun _ => and_congr_right fun _ =>
      and_congr_right fun _ => ?_
    constructor
    · intro hq x j c hx hc
      exact hq x j c ((hs x j c hc).mpr hx) hc
    · intro hq x j c hx hc
      exact hq x j c ((hs x j c hc).mp hx) hc

namespace PlainState

variable (s : PlainState) (t t' v v' : ThreadId) (lines : List Cacheline) (line : Cacheline)

@[simp] theorem cell_setCell :
    (s.setCell t v lines).cell t' v' = if t' = t ∧ v' = v then lines else s.cell t' v' := by
  unfold cell setCell
  simp only [Dict.getD_insert]
  by_cases ht : t' = t
  · subst ht
    rw [if_pos rfl, Dict.getD_insert]
    simp
  · simp [ht]

@[simp] theorem dirty_setCell : (s.setCell t v lines).dirty t' = s.dirty t' := rfl

@[simp] theorem cell_addDirty : (s.addDirty t lines).cell t' v = s.cell t' v := rfl

@[simp] theorem mem_dirty_addDirty :
    line ∈ (s.addDirty t lines).dirty t' ↔ line ∈ s.dirty t' ∨ t' = t ∧ line ∈ lines := by
  unfold addDirty dirty
  simp only [Dict.getD_insert]
  by_cases ht : t' = t
  · subst ht
    simp
  · simp [ht]

@[simp] theorem races_mergeEpoch (n : Node) : (s.mergeEpoch n).found.races = s.found.races := rfl

@[simp] theorem after_mergeEpoch (n : Node) (r : InstructionNode) :
    (s.mergeEpoch n).found.after r = s.found.after r := rfl

/-- The loop over the other threads adds the dirty lines to their cells. -/
theorem spread_loop (threads : List ThreadId) (s₀ s' : PlainState)
    (hs : threads.foldl (fun s thread => s.setCell t thread (s.cell t thread ∪ s.dirty t)) s₀ =
      s') :
    s'.found = s₀.found ∧ s'.pvcPerEpochNode = s₀.pvcPerEpochNode ∧
      s'.dirtyCachelines = s₀.dirtyCachelines ∧
      ∀ t' v line, line ∈ s'.cell t' v ↔
        line ∈ s₀.cell t' v ∨ t' = t ∧ v ∈ threads ∧ line ∈ s₀.dirty t := by
  induction threads generalizing s₀ with
  | nil =>
    subst hs
    simp
  | cons a threads ih =>
    obtain ⟨hf, he, hd, hc⟩ := ih (s₀.setCell t a (s₀.cell t a ∪ s₀.dirty t)) hs
    refine ⟨hf, he, hd, fun t' v line => ?_⟩
    rw [hc, cell_setCell, dirty_setCell, List.mem_cons]
    by_cases ha : t' = t ∧ v = a
    · obtain ⟨rfl, rfl⟩ := ha
      simp only [and_self, if_true, List.mem_union_iff]
      tauto
    · rw [if_neg ha]
      tauto

/-- Spreading keeps what is owed and empties the buffer of the thread. -/
theorem spreadDirty_spec (hbg : HBG) :
    (s.spreadDirty hbg t).found = s.found ∧
      (s.spreadDirty hbg t).pvcPerEpochNode = s.pvcPerEpochNode ∧
      (s.spreadDirty hbg t).dirty t = [] ∧
      ∀ t' v line, v ∈ hbg.tids → v ≠ t' →
        (line ∈ (s.spreadDirty hbg t).dirty t' ∨ line ∈ (s.spreadDirty hbg t).cell t' v ↔
          line ∈ s.dirty t' ∨ line ∈ s.cell t' v) := by
  unfold spreadDirty
  split_ifs with hd
  · exact ⟨rfl, rfl, hd, fun t' v line _ _ => Iff.rfl⟩
  · generalize hs : (hbg.tids.filter (· ≠ t)).foldl
      (fun s thread => s.setCell t thread (s.cell t thread ∪ s.dirty t)) s = s'
    obtain ⟨hf, he, hdirty, hcell⟩ := spread_loop t _ s s' hs
    have hdirty' : ∀ t', dirty { s' with dirtyCachelines := s'.dirtyCachelines.insert t [] } t' =
        if t' = t then [] else s.dirty t' := by
      intro t'
      unfold dirty
      rw [Dict.getD_insert, hdirty]
    refine ⟨hf, he, by rw [hdirty', if_pos rfl], fun t' v line hv hvt => ?_⟩
    rw [hdirty']
    show _ ∨ line ∈ s'.cell t' v ↔ _
    rw [hcell, List.mem_filter, decide_eq_true_eq]
    by_cases ht : t' = t
    · subst ht
      simp [hv, hvt, or_comm]
    · simp [ht]

end PlainState

section Instruction

variable {h : hbg.WellFormed} {seen : List Node} {n : Node} {s s' : PlainState}

/-- A node without children that gets no mail adds at most its own news. -/
theorem PlainMail.append (hm : PlainMail h flags seen (fun m _ => m ∈ seen) s)
    (hf : Forward h flags.ignoreInterThreadEdges seen n)
    (hkids : (h.dag flags.ignoreInterThreadEdges).kids n = [])
    (hmail : ∀ m, n ∉ (h.dag flags.ignoreInterThreadEdges).kids m)
    (hepochs : s'.pvcPerEpochNode = s.pvcPerEpochNode)
    (hdirty : ∀ t v line, v ∈ hbg.tids → v ≠ t → (line ∈ s'.dirty t ∨ line ∈ s'.cell t v ↔
      (line ∈ s.dirty t ∨ line ∈ s.cell t v) ∨ n.tid = t ∧ n.On flags.isNews line)) :
    PlainMail h flags (seen ++ [n]) (fun m _ => m ∈ seen ++ [n]) s' := by
  have hnot : ∀ {c}, c ∉ seen ++ [n] → c ∉ seen := fun hc hs => hc (List.mem_append_left _ hs)
  have hsame : PlainMail h flags (seen ++ [n]) (fun m _ => m ∈ seen) s' := by
    refine ⟨?_, ?_, ?_⟩
    · intro c hc line
      rw [hepochs]
      exact hm.epochs c (hnot hc) line
    · intro c hc line
      rw [hepochs]
      exact hm.lines c (hnot hc) line
    · intro t v line hv hvt
      rw [hdirty t v line hv hvt, hm.dirty t v line hv hvt, exists_seen_append]
      refine or_congr_right ⟨?_, ?_⟩
      · rintro ⟨ht, hon⟩
        refine ⟨ht, Or.inl hon, ?_⟩
        intro x j c hx _ hlt
        have hlt' := hf.lt_of_seen x hx hlt.2.2.1.symm
        exact absurd hlt.2.2.2 (not_lt.mpr hlt'.2.2.2.le)
      · rintro ⟨ht, hon | ⟨m, j, ht', -⟩, -⟩
        · exact ⟨ht, hon⟩
        · exact absurd (List.mem_of_getElem? ht') (hmail m)
  refine hsame.congr_sent (fun m j c hc => ?_)
  rw [List.mem_append, List.mem_singleton]
  refine (or_iff_left ?_).symm
  rintro rfl
  rw [hkids] at hc
  cases hc

/-- An instruction makes its line dirty for all other threads. -/
theorem addDirty_mail {n : InstructionNode} (hm : PlainMail h flags seen (fun m _ => m ∈ seen) s)
    (hf : Forward h flags.ignoreInterThreadEdges seen (.instruction n))
    (hn : flags.isNews n.itype = true) (found : Findings) :
    PlainMail h flags (seen ++ [.instruction n]) (fun m _ => m ∈ seen ++ [.instruction n])
      ({ s with found := found }.addDirty n.tid [n.getCachelineAddress]) := by
  refine hm.append hf (kids_instruction h _ n) (not_mem_kids_instruction h _ n) rfl ?_
  intro t v line _ _
  rw [PlainState.mem_dirty_addDirty, PlainState.cell_addDirty, List.mem_singleton]
  have hon : (Node.instruction n).On flags.isNews line ↔ line = n.getCachelineAddress :=
    ⟨fun h => h.2.symm, fun h => ⟨hn, h.symm⟩⟩
  rw [hon, eq_comm (a := t)]
  show (line ∈ s.dirty t ∨ _) ∨ line ∈ s.cell t v ↔ _
  tauto

end Instruction

section Epoch

variable {h : hbg.WellFormed} {seen : List Node} {n c : Node} {s : PlainState} {i : ℕ}

/-- What the thread of a node owes while the node is telling its children. -/
theorem Forward.owesLate_iff (hf : Forward h flags.ignoreInterThreadEdges seen n)
    {news : Node → Prop} {v : ThreadId} (hv : v ≠ n.tid) (i : ℕ) :
    (∃ q ∈ seen, q.tid = n.tid ∧ (h.dag flags.ignoreInterThreadEdges).SourceLate news q ∧
        QuietAfter h flags.ignoreInterThreadEdges (SentUpTo seen n i) v q) ↔
      (h.dag flags.ignoreInterThreadEdges).OwesLate news v n i := by
  rw [ThreadDag.owesLate_iff]
  constructor
  · rintro ⟨q, hq, hqt, hsrc, hquiet⟩
    have hlt := hf.lt_of_seen q hq hqt
    refine ⟨q, hsrc, hlt, Ne.symm hv, ?_, ?_⟩
    · intro x hqx hxn c hc
      obtain ⟨j, hj⟩ := List.mem_iff_getElem?.mp hc
      exact hquiet x j c (Or.inl (hf.seen_of_step x (Or.inl hxn))) hj hqx
    · intro c hc
      obtain ⟨j, hj⟩ := List.mem_iff_getElem?.mp hc
      rw [List.getElem?_take] at hj
      split_ifs at hj with hji
      exact hquiet n j c (Or.inr ⟨rfl, hji⟩) hj hlt
  · rintro ⟨q, hsrc, hlt, -, hsil⟩
    refine ⟨q, hf.seen_of_step q (Or.inl hlt), hlt.2.2.1, hsrc, ?_⟩
    rintro x j c (hx | ⟨rfl, hj⟩) hc hqx
    · have hxt : x.tid = n.tid := hqx.2.2.1.symm.trans hlt.2.2.1
      exact hsil.1 x hqx (hf.lt_of_seen x hx hxt) c (List.mem_of_getElem? hc)
    · have htake : (((h.dag flags.ignoreInterThreadEdges).kids x).take i)[j]? = some c := by
        rw [List.getElem?_take, if_pos hj]
        exact hc
      exact hsil.2 c (List.mem_of_getElem? htake)

/-- What the thread of a node knows before its turn is known strictly before the node. -/
theorem Forward.knownBefore_iff (hf : Forward h flags.ignoreInterThreadEdges seen n)
    (line : Cacheline) (y : Node) : KnownBy (PlainKnows h flags) seen n.tid line y ↔
      ∃ x, (h.dag flags.ignoreInterThreadEdges).Lt x n ∧ PlainKnows h flags line y x := by
  constructor
  · rintro ⟨x, hx, ht, hy⟩
    exact ⟨x, hf.lt_of_seen x hx ht, hy⟩
  · rintro ⟨x, hlt, hy⟩
    exact ⟨x, hf.seen_of_step x (Or.inl hlt), hlt.2.2.1, hy⟩

/-- While an epoch node tells its children, its buffer is empty. -/
structure Telling (h : hbg.WellFormed) (flags : Flags) (seen : List Node) (n : Node) (i : ℕ)
    (s : PlainState) : Prop where
  mail : PlainMail h flags seen (SentUpTo seen n i) s
  empty : s.dirty n.tid = []

theorem mem_tellLines (clocks : LineClocks ThreadId) (t : ThreadId) (child c : Node)
    (lines : List Cacheline) (epochs : LineClocks Node) (line : Cacheline) :
    line ∈ (tellLines clocks t child lines epochs).getD c ∅ ↔
      line ∈ epochs.getD c ∅ ∨ c = child ∧ line ∈ lines := by
  unfold tellLines
  induction lines generalizing epochs with
  | nil => simp
  | cons l lines ih =>
    rw [List.foldl_cons, ih, List.mem_cons]
    unfold LineClocks.setClock
    rw [Dict.getD_insert]
    by_cases hc : c = child
    · subst hc
      rw [if_pos rfl, AList.mem_insert]
      tauto
    · rw [if_neg hc]
      tauto

/-- The cell of a child holds the lines of the message to it. -/
theorem Telling.tellsLate_iff (hf : Forward h flags.ignoreInterThreadEdges seen n)
    (hm : Telling h flags seen n i s)
    (hkid : ((h.dag flags.ignoreInterThreadEdges).kids n)[i]? = some c) (line : Cacheline)
    (c' : Node) :
    (h.dag flags.ignoreInterThreadEdges).TellsLate (Node.On flags.isNews line) n i c' ↔
      c' = c ∧ line ∈ s.cell n.tid c.tid := by
  obtain ⟨hne, -, hct⟩ := kids_tid h (List.mem_of_getElem? hkid)
  have hcell : line ∈ s.cell n.tid c.tid ↔
      (h.dag flags.ignoreInterThreadEdges).OwesLate (Node.On flags.isNews line) c.tid n i := by
    rw [← hf.owesLate_iff hne.symm i, ← hm.mail.dirty n.tid c.tid line hct hne.symm, hm.empty]
    simp
  constructor
  · intro ht
    have hk := ht.1
    rw [hkid] at hk
    obtain rfl := Option.some.inj hk
    exact ⟨rfl, hcell.mpr ht.2⟩
  · rintro ⟨rfl, hl⟩
    exact ⟨hkid, hcell.mp hl⟩

/-- The message to a child ends the quiet of its thread, for the nodes before the teller. -/
theorem Forward.quietAfter_sentUpTo_succ (hf : Forward h flags.ignoreInterThreadEdges seen n)
    (hkid : ((h.dag flags.ignoreInterThreadEdges).kids n)[i]? = some c) {q : Node}
    (hq : q ∈ seen) (v : ThreadId) :
    QuietAfter h flags.ignoreInterThreadEdges (SentUpTo seen n (i + 1)) v q ↔
      QuietAfter h flags.ignoreInterThreadEdges (SentUpTo seen n i) v q ∧
        (q.tid = n.tid → v ≠ c.tid) := by
  have hlt : (h.dag flags.ignoreInterThreadEdges).Lt q n ↔ q.tid = n.tid :=
    ⟨fun hlt => hlt.2.2.1, hf.lt_of_seen q hq⟩
  rw [← hlt]
  exact silent_sentUpTo_succ hkid

/-- One child is told what is owed to its thread. -/
theorem tellChild_telling (hf : Forward h flags.ignoreInterThreadEdges seen n)
    (hc : Clocks hbg flags (PlainKnows h flags) seen s.found) (hm : Telling h flags seen n i s)
    (hkid : ((h.dag flags.ignoreInterThreadEdges).kids n)[i]? = some c) :
    Telling h flags seen n (i + 1) (s.tellChild n c) := by
  refine ⟨⟨?_, ?_, ?_⟩, hm.empty⟩
  · intro c' hc' line
    have hshow := fun line => (hc.shows n.tid line).congr (hf.knownBefore_iff line)
    refine (shows_tellLines hshow (s.cell n.tid c.tid) s.pvcPerEpochNode c' line
      (hm.mail.epochs c' hc' line)).congr (fun y => ?_)
    rw [exists_sentUpTo_succ, hm.tellsLate_iff hf hkid]
  · intro c' hc' line
    have hold := hm.mail.lines c' hc' line
    show line ∈ Dict.getD (tellLines s.found.pvcPerThread n.tid c (s.cell n.tid c.tid)
      s.pvcPerEpochNode) c' ∅ ↔ _
    rw [mem_tellLines, hold, exists_sentUpTo_succ, hm.tellsLate_iff hf hkid]
  · intro t v line hv hvt
    have hold := hm.mail.dirty t v line hv hvt
    unfold PlainState.tellChild
    rw [PlainState.cell_setCell, PlainState.dirty_setCell]
    show line ∈ s.dirty t ∨ line ∈ (if _ then [] else s.cell t v) ↔ _
    by_cases htv : t = n.tid ∧ v = c.tid
    · obtain ⟨rfl, rfl⟩ := htv
      rw [hm.empty, if_pos ⟨rfl, rfl⟩]
      simp only [List.not_mem_nil, or_self, false_iff]
      rintro ⟨q, hq, hqt, -, hquiet⟩
      exact ((hf.quietAfter_sentUpTo_succ hkid hq _).mp hquiet).2 hqt rfl
    · rw [if_neg htv, hold]
      refine exists_congr fun q => and_congr_right fun hq => and_congr_right fun hqt => ?_
      have hvc : q.tid = n.tid → v ≠ c.tid := fun ht hv => htv ⟨hqt.symm.trans ht, hv⟩
      rw [hf.quietAfter_sentUpTo_succ hkid hq v, and_iff_left hvc]

theorem found_tellChildren (n : Node) (children : List Node) (s : PlainState) :
    (children.foldl (PlainState.tellChild n) s).found = s.found := by
  induction children generalizing s with
  | nil => rfl
  | cons c children ih => exact ih (s.tellChild n c)

/-- The loop over the children. -/
theorem tellChildren_telling (hf : Forward h flags.ignoreInterThreadEdges seen n)
    (children : List Node) {i : ℕ}
    (hrest : ((h.dag flags.ignoreInterThreadEdges).kids n).drop i = children) {s : PlainState}
    (hc : Clocks hbg flags (PlainKnows h flags) seen s.found) (hm : Telling h flags seen n i s) :
    PlainMail h flags seen (fun m _ => m ∈ seen ++ [n])
      (children.foldl (PlainState.tellChild n) s) := by
  induction children generalizing i s with
  | nil =>
    exact hm.mail.congr_sent (fun m j c hk => sentUpTo_of_drop_eq_nil hrest hk)
  | cons c children ih =>
    obtain ⟨hkid, hrest'⟩ := getElem?_of_drop_eq_cons hrest
    exact ih hrest' hc (tellChild_telling hf hc hm hkid)

/-- What is known at an epoch node was known before in its thread or came in. -/
theorem plainKnows_epoch (hf : Forward h flags.ignoreInterThreadEdges seen n)
    (hn : n.itype = .epoch) (line : Cacheline) (y : Node) :
    PlainKnows h flags line y n ↔ KnownBy (PlainKnows h flags) seen n.tid line y ∨ ∃ m j,
      (h.dag flags.ignoreInterThreadEdges).TellsLate (Node.On flags.isNews line) m j n ∧
        ∃ x, (h.dag flags.ignoreInterThreadEdges).Lt x m ∧ PlainKnows h flags line y x := by
  rw [hf.knownBefore_iff]
  unfold PlainKnows
  rw [ThreadDag.knowsLate_iff hf.mem]
  refine or_iff_right ?_
  rintro ⟨hon, -⟩
  exact Node.not_on_of_epoch hn hon

/-- An epoch node takes in its mail. -/
theorem mergeEpoch_mail (hf : Forward h flags.ignoreInterThreadEdges seen n)
    (hn : n.itype = .epoch) (hc : Clocks hbg flags (PlainKnows h flags) seen s.found)
    (hm : PlainMail h flags seen (fun m _ => m ∈ seen ++ [n]) s) :
    Clocks hbg flags (PlainKnows h flags) (seen ++ [n]) (s.mergeEpoch n).found ∧
      PlainMail h flags (seen ++ [n]) (fun m _ => m ∈ seen ++ [n]) (s.mergeEpoch n) := by
  have hnot : ∀ {c}, c ∉ seen ++ [n] → c ∉ seen ∧ c ≠ n := by
    intro c hc
    rw [List.mem_append, List.mem_singleton, not_or] at hc
    exact hc
  have hsent : ∀ {m j} {line : Cacheline},
      (h.dag flags.ignoreInterThreadEdges).TellsLate (Node.On flags.isNews line) m j n →
        m ∈ seen ++ [n] := fun ht =>
    List.mem_append_left _ (hf.seen_of_step _ (Or.inr ht.mem))
  refine ⟨?_, ?_, ?_, ?_⟩
  · have hshow := fun t line => shows_mergeLines hc.shows (hm.epochs n hf.notMem)
      (s.mergeEpoch n).found rfl t line
    refine ⟨fun t line => (hshow t line).1.trans (hc.tid t line), fun t line => ?_⟩
    refine (hshow t line).2.congr (fun y => ?_)
    unfold KnownBy
    rw [exists_seen_append, plainKnows_epoch hf hn]
    constructor
    · rintro (hx | ⟨rfl, m, j, -, ht, hy⟩)
      · exact Or.inl hx
      · exact Or.inr ⟨rfl, Or.inr ⟨m, j, ht, hy⟩⟩
    · rintro (hx | ⟨rfl, hx | ⟨m, j, ht, hy⟩⟩)
      · exact Or.inl hx
      · exact Or.inl hx
      · exact Or.inr ⟨rfl, m, j, hsent ht, ht, hy⟩
  · intro c hc line
    have hclock : LineClocks.clock (s.pvcPerEpochNode.erase n) c c.tid line =
        s.pvcPerEpochNode.clock c c.tid line := by
      unfold LineClocks.clock
      rw [Dict.getD_erase, if_neg (hnot hc).2]
    show Shows hbg flags _ line (LineClocks.clock (s.pvcPerEpochNode.erase n) c c.tid line) _
    rw [hclock]
    exact hm.epochs c (hnot hc).1 line
  · intro c hc line
    show line ∈ Dict.getD (s.pvcPerEpochNode.erase n) c ∅ ↔ _
    rw [Dict.getD_erase, if_neg (hnot hc).2]
    exact hm.lines c (hnot hc).1 line
  · intro t v line hv hvt
    have hold := hm.dirty t v line hv hvt
    unfold PlainState.mergeEpoch
    rw [PlainState.mem_dirty_addDirty, PlainState.cell_addDirty, exists_seen_append, ← hold,
      AList.mem_keys.symm, hm.lines n hf.notMem line]
    show (line ∈ s.dirty t ∨ _) ∨ line ∈ s.cell t v ↔ _
    rw [or_right_comm]
    refine or_congr_right ⟨?_, ?_⟩
    · rintro ⟨rfl, m, j, -, ht⟩
      refine ⟨rfl, Or.inr ⟨m, j, ht⟩, fun x j c hx _ hlt => ?_⟩
      rcases List.mem_append.mp hx with hx | hx
      · exact absurd hlt.2.2.2 (not_lt.mpr (hf.lt_of_seen x hx hlt.2.2.1.symm).2.2.2.le)
      · rw [List.mem_singleton.mp hx] at hlt
        exact absurd hlt.2.2.2 (lt_irrefl _)
    · rintro ⟨rfl, hon | ⟨m, j, ht⟩, -⟩
      · exact absurd hon (Node.not_on_of_epoch hn)
      · exact ⟨rfl, m, j, hsent ht, ht⟩

end Epoch

/-- The invariant of the plain sweep after the nodes in `seen`. -/
structure PlainInvariant (h : hbg.WellFormed) (pdg : PDG) (flags : Flags) (seen : List Node)
    (s : PlainState) : Prop where
  clocks : Clocks hbg flags (PlainKnows h flags) seen s.found
  mail : PlainMail h flags seen (fun m _ => m ∈ seen) s
  verdicts : Verdicts h pdg flags (PlainKnows h flags) seen s.found

section Step

variable {h : hbg.WellFormed} {seen : List Node} {s : PlainState}

theorem plainStep_epoch (hin : Input hbg pdg) {e : EpochNode}
    (hf : Forward h flags.ignoreInterThreadEdges seen (.epoch e))
    (hI : PlainInvariant h pdg flags seen s) :
    ∃ s', plainStep hbg pdg flags s (.epoch e) = .ok s' ∧
      PlainInvariant h pdg flags (seen ++ [.epoch e]) s' := by
  have hnw : (Node.epoch e).itype ≠ .write := NodeType.noConfusion
  simp only [plainStep]
  cases hi : flags.ignoreInterThreadEdges with
  | true =>
    have hkids : ∀ m, (h.dag flags.ignoreInterThreadEdges).kids m = [] := by
      intro m
      rw [hi]
      rfl
    have hmail : ∀ m, Node.epoch e ∉ (h.dag flags.ignoreInterThreadEdges).kids m := by
      intro m
      rw [hkids m]
      exact List.not_mem_nil
    refine ⟨s, rfl, hI.clocks.idle (plainKnows_spreads h flags) hf hmail (fun _ => id), ?_,
      hI.verdicts.skip hin hnw⟩
    exact hI.mail.append hf (hkids _) hmail rfl (by simp [Node.On])
  | false =>
    obtain ⟨hfound, hepochs, hempty, hdirty⟩ := s.spreadDirty_spec e.tid hbg
    have htelling : Telling h flags seen (.epoch e) 0 (s.spreadDirty hbg e.tid) := by
      refine ⟨PlainMail.congr_sent ⟨?_, ?_, ?_⟩ (fun m j c _ => (sentUpTo_zero seen _ m j).symm),
        hempty⟩
      · rw [hepochs]
        exact hI.mail.epochs
      · rw [hepochs]
        exact hI.mail.lines
      · intro t v line hv hvt
        rw [hdirty t v line hv hvt]
        exact hI.mail.dirty t v line hv hvt
    have hkids : (h.dag flags.ignoreInterThreadEdges).kids (.epoch e) =
        hbg.getInterChildren (.epoch e) := by
      rw [hi]
      rfl
    have hc : Clocks hbg flags (PlainKnows h flags) seen (s.spreadDirty hbg e.tid).found := by
      rw [hfound]
      exact hI.clocks
    have htold := tellChildren_telling hf (hbg.getInterChildren (.epoch e))
      (by rw [List.drop_zero, hkids]) hc htelling
    have hf' := found_tellChildren (.epoch e) (hbg.getInterChildren (.epoch e))
      (s.spreadDirty hbg e.tid)
    obtain ⟨hc', hm'⟩ := mergeEpoch_mail hf rfl (by rw [hf']; exact hc) htold
    refine ⟨_, rfl, hc', hm', Verdicts.skip hin (hI.verdicts.mono ?_ fun r => ?_) hnw⟩
    · rw [PlainState.races_mergeEpoch, hf', hfound]
    · rw [PlainState.after_mergeEpoch, hf', hfound]

theorem plainStep_instruction (hin : Input hbg pdg) {n : InstructionNode}
    (hf : Forward h flags.ignoreInterThreadEdges seen (.instruction n))
    (hI : PlainInvariant h pdg flags seen s) :
    ∃ s', plainStep hbg pdg flags s (.instruction n) = .ok s' ∧
      PlainInvariant h pdg flags (seen ++ [.instruction n]) s' := by
  have hk := plainKnows_spreads h flags
  simp only [plainStep]
  cases hi : n.itype with
  | epoch => exact absurd hi n.itype_ne_epoch
  | write =>
    have hrw : n.itype.isReadWriteType = true := by rw [hi]; rfl
    have hnews : flags.isNews n.itype = true := by simp [Flags.isNews, hrw]
    obtain ⟨found, hok, hc, hraces, hafter⟩ := addAccess_spec hI.clocks hk hf hrw
    obtain ⟨found', hok', hc', hv'⟩ :=
      findBugs_verdicts hin hk hf hc (hI.verdicts.mono hraces hafter)
    have hm := addDirty_mail hI.mail hf hnews found
    refine ⟨{ { s with found := found }.addDirty n.tid [n.getCachelineAddress] with
      found := found' }, ?_, hc', ⟨hm.epochs, hm.lines, hm.dirty⟩, hv'⟩
    rw [hok]
    simp only [ok_bind]
    show (findBugs hbg pdg flags found n >>= _) = _
    rw [hok']
    rfl
  | read =>
    have hrw : n.itype.isReadWriteType = true := by rw [hi]; rfl
    have hnews : flags.isNews n.itype = true := by simp [Flags.isNews, hrw]
    obtain ⟨found, hok, hc, hraces, hafter⟩ := addAccess_spec hI.clocks hk hf hrw
    refine ⟨_, by rw [hok]; rfl, hc, addDirty_mail hI.mail hf hnews found,
      Verdicts.skip hin (hI.verdicts.mono hraces hafter) ?_⟩
    rw [show (Node.instruction n).itype = .read from hi]
    exact NodeType.noConfusion
  | flush =>
    have hnw : (Node.instruction n).itype ≠ .write := by
      rw [show (Node.instruction n).itype = .flush from hi]
      exact NodeType.noConfusion
    cases hfl : flags.ignoreFlushNodes with
    | true =>
      have hnews : ∀ line, ¬ (Node.instruction n).On flags.isNews line := by
        rintro line ⟨hon, -⟩
        rw [hi] at hon
        simp [Flags.isNews, Flags.isFlush, NodeType.isReadWriteType, hfl] at hon
      refine ⟨s, rfl, hI.clocks.idle hk hf (not_mem_kids_instruction h _ n) hnews, ?_,
        hI.verdicts.skip hin hnw⟩
      exact hI.mail.append hf (kids_instruction h _ n) (not_mem_kids_instruction h _ n) rfl
        (by simp [hnews])
    | false =>
      have hflush : flags.isFlush n.itype = true := by simp [Flags.isFlush, hi, hfl]
      have hnews : flags.isNews n.itype = true := by simp [Flags.isNews, hflush]
      refine ⟨_, rfl, flushLine_spec hI.clocks hk hf hflush,
        addDirty_mail hI.mail hf hnews (flushLine s.found n), ?_⟩
      exact Verdicts.skip hin (hI.verdicts.mono rfl (fun r => rfl)) hnw

end Step

/-- The plain sweep never fails and keeps its invariant up to every node. -/
theorem persistedBeforeAnalysis_spec (h : hbg.WellFormed) (hin : Input hbg pdg)
    {vcs : ReversedClocks Node} (hvcs : ∀ r ∈ hbg.nodes, r.itype = .read →
      Summarizes Node.tid hbg.reversedStamp (vcs.getD r (.new r.tid)).epochAt
        (fun w => w.itype = .write ∧ (h.dag flags.ignoreInterThreadEdges).Ahead r w))
    {order pre post : List Node} (ht : hbg.graph.IsTopological order) (ho : order = pre ++ post) :
    ∃ s, persistedBeforeAnalysis hbg pdg flags vcs pre = .ok s ∧
      PlainInvariant h pdg flags pre s := by
  have h₀ : PlainInvariant h pdg flags [] (.new vcs) := by
    refine ⟨clocks_new hbg flags _ vcs, plainMail_new h flags vcs, ?_, by simp [PlainState.new], ?_⟩
    · intro r hr hi
      exact hvcs _ hr hi
    · intro x hx
      cases hx
  refine foldlM_invariant h₀ (fun seen n rest s ho hI => ?_) ho
  have hf := forward_of_split h flags.ignoreInterThreadEdges ht ho
  cases n with
  | epoch e => exact plainStep_epoch hin hf hI
  | instruction n => exact plainStep_instruction hin hf hI

end Prd.Pycprd
