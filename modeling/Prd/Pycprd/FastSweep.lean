import Prd.Pycprd.Spreading

/-!
# What the fast forward sweep computes

The news of a line is told to an epoch node only when the teller owes it to the
thread of that node, and what was received is merged before anything is told. So
the sweep spreads news as `ThreadDag.Knows` does, and on a graph without redundant
edges that is along every path.
-/
namespace Prd.Pycprd

open Prd.Foundation Relation

variable {hbg : HBG} {pdg : PDG} {flags : Flags}

/-- The news of a line as the fast sweep spreads it. -/
def FastKnows (h : hbg.WellFormed) (flags : Flags) : Spread := fun line =>
  (h.dag flags.ignoreInterThreadEdges).Knows (Node.On flags.isNews line)

theorem fastKnows_spreads (h : hbg.WellFormed) (flags : Flags) :
    Spreads h flags (FastKnows h flags) where
  self := fun hn hon => .self hon hn
  later := fun hy hle => .later hy hle
  trans := fun hy hf => hy.trans hf
  reach := fun hy => hy.reach
  point := fun hy => hy.point
  comes := by
    intro line y n hy hmail
    rcases (ThreadDag.knows_iff hy.point.2).mp hy with hn | hx | ⟨m, j, ht, -⟩
    · exact Or.inl hn
    · exact Or.inr hx
    · exact absurd ht.mem (hmail m)

/-- Since `q` no message that is out went to the thread. -/
def Quiet (h : hbg.WellFormed) (i : Bool) (sent : Node → ℕ → Prop) (v : ThreadId) (q : Node) :
    Prop :=
  ∀ (x : Node) (j : ℕ) (c : Node), sent x j → ((h.dag i).kids x)[j]? = some c →
    (h.dag i).Le q x → c.tid ≠ v

/-- The state of the messages, when `merged` have merged their mail and `sent m j` holds
for the messages that are out. -/
structure FastMail (h : hbg.WellFormed) (flags : Flags) (merged : List Node)
    (sent : Node → ℕ → Prop) (s : FastState) : Prop where
  epochs : ∀ c, c ∉ merged → ∀ line, Shows hbg flags (FastKnows h flags) line
    (s.pvcPerEpochNode.clock c c.tid line) (fun y => ∃ m j, sent m j ∧
      (h.dag flags.ignoreInterThreadEdges).Tells (Node.On flags.isNews line) m j c ∧
        FastKnows h flags line y m)
  dirtyWf : ∀ t, (s.dirty hbg t).WellFormed t hbg.tids
  dirty : ∀ t v line, v ∈ hbg.tids → v ≠ t → ((s.dirty hbg t).Owes v line ↔
    ∃ q ∈ merged, q.tid = t ∧
      (h.dag flags.ignoreInterThreadEdges).Source (Node.On flags.isNews line) v q ∧
        Quiet h flags.ignoreInterThreadEdges sent v q)
  epochWf : ∀ c, (s.dirtyAtEpoch hbg c).WellFormed c.tid hbg.tids
  epochPending : ∀ c, (s.dirtyAtEpoch hbg c).pendingDirtyCachelines = []
  dirtyAtEpoch : ∀ c, c ∉ merged → ∀ v line, v ∈ hbg.tids → v ≠ c.tid →
    ((s.dirtyAtEpoch hbg c).Owes v line ↔ ∃ m j, sent m j ∧
      ((h.dag flags.ignoreInterThreadEdges).kids m)[j]? = some c ∧
        (h.dag flags.ignoreInterThreadEdges).Owes (Node.On flags.isNews line) v m j)

theorem fastMail_new (h : hbg.WellFormed) (flags : Flags) (vcs : ReversedClocks Node) :
    FastMail h flags [] (fun m _ => m ∈ []) (.new vcs) where
  epochs := by
    intro c _ line
    have hnew : (FastState.new vcs).pvcPerEpochNode.clock c c.tid line = .new c.tid := by
      simp [FastState.new, LineClocks.clock]
    rw [hnew]
    exact .new _ (by simp)
  dirtyWf := by
    intro t
    simpa [FastState.dirty, FastState.new] using DirtyCachelinesVector.wellFormed_new t hbg.tids
  dirty := by
    intro t v line _ _
    simpa [FastState.dirty, FastState.new] using
      DirtyCachelinesVector.not_owes_new t v hbg.tids line
  epochWf := by
    intro c
    simpa [FastState.dirtyAtEpoch, FastState.new] using
      DirtyCachelinesVector.wellFormed_new c.tid hbg.tids
  epochPending := by
    intro c
    simp [FastState.dirtyAtEpoch, FastState.new, DirtyCachelinesVector.new]
  dirtyAtEpoch := by
    intro c _ v line _ _
    simpa [FastState.dirtyAtEpoch, FastState.new] using
      DirtyCachelinesVector.not_owes_new c.tid v hbg.tids line

theorem FastMail.congr_sent {h : hbg.WellFormed} {merged : List Node} {sent sent' : Node → ℕ → Prop}
    {s : FastState} (hm : FastMail h flags merged sent s)
    (hs : ∀ m j c, ((h.dag flags.ignoreInterThreadEdges).kids m)[j]? = some c →
      (sent m j ↔ sent' m j)) : FastMail h flags merged sent' s where
  epochs := by
    intro c hc line
    refine (hm.epochs c hc line).congr (fun y => ?_)
    refine exists_congr fun m => exists_congr fun j => and_congr_left fun ⟨ht, _⟩ => ?_
    exact hs m j c ht.1
  dirtyWf := hm.dirtyWf
  dirty := by
    intro t v line hv hvt
    rw [hm.dirty t v line hv hvt]
    refine exists_congr fun q => and_congr_right fun _ => and_congr_right fun _ =>
      and_congr_right fun _ => ?_
    constructor
    · intro hq x j c hx hc
      exact hq x j c ((hs x j c hc).mpr hx) hc
    · intro hq x j c hx hc
      exact hq x j c ((hs x j c hc).mp hx) hc
  epochWf := hm.epochWf
  epochPending := hm.epochPending
  dirtyAtEpoch := by
    intro c hc v line hv hvc
    rw [hm.dirtyAtEpoch c hc v line hv hvc]
    refine exists_congr fun m => exists_congr fun j => and_congr_left fun ⟨ht, _⟩ => ?_
    exact hs m j c ht

section Instruction

variable {h : hbg.WellFormed} {seen : List Node} {n : Node} {s s' : FastState}

/-- A node without children that gets no mail adds at most its own news. -/
theorem FastMail.append (hm : FastMail h flags seen (fun m _ => m ∈ seen) s)
    (hf : Forward h flags.ignoreInterThreadEdges seen n)
    (hkids : (h.dag flags.ignoreInterThreadEdges).kids n = [])
    (hmail : ∀ m, n ∉ (h.dag flags.ignoreInterThreadEdges).kids m)
    (hepochs : s'.pvcPerEpochNode = s.pvcPerEpochNode)
    (hatEpoch : s'.dirtyCachelinesPerEpoch = s.dirtyCachelinesPerEpoch)
    (hwf : ∀ t, (s'.dirty hbg t).WellFormed t hbg.tids)
    (hdirty : ∀ t v line, v ∈ hbg.tids → v ≠ t → ((s'.dirty hbg t).Owes v line ↔
      (s.dirty hbg t).Owes v line ∨ n.tid = t ∧ n.On flags.isNews line)) :
    FastMail h flags (seen ++ [n]) (fun m _ => m ∈ seen ++ [n]) s' := by
  have hnot : ∀ {c}, c ∉ seen ++ [n] → c ∉ seen := fun hc hs => hc (List.mem_append_left _ hs)
  have hat : ∀ c, s'.dirtyAtEpoch hbg c = s.dirtyAtEpoch hbg c := by
    intro c
    unfold FastState.dirtyAtEpoch
    rw [hatEpoch]
  have hsame : FastMail h flags (seen ++ [n]) (fun m _ => m ∈ seen) s' := by
    refine ⟨?_, hwf, ?_, ?_, ?_, ?_⟩
    · intro c hc line
      rw [hepochs]
      exact hm.epochs c (hnot hc) line
    · intro t v line hv hvt
      rw [hdirty t v line hv hvt, hm.dirty t v line hv hvt, exists_seen_append]
      refine or_congr_right ⟨?_, ?_⟩
      · rintro ⟨ht, hon⟩
        refine ⟨ht, Or.inl hon, ?_⟩
        intro x j c hx _ hle
        have hlt := hf.lt_of_seen x hx hle.2.2.1.symm
        exact absurd hle.2.2.2 (not_le.mpr hlt.2.2.2)
      · rintro ⟨ht, hon | ⟨m, j, -, hc⟩, -⟩
        · exact ⟨ht, hon⟩
        · exact absurd (List.mem_of_getElem? hc) (hmail m)
    · intro c
      rw [hat]
      exact hm.epochWf c
    · intro c
      rw [hat]
      exact hm.epochPending c
    · intro c hc v line hv hvc
      rw [hat]
      exact hm.dirtyAtEpoch c (hnot hc) v line hv hvc
  refine hsame.congr_sent (fun m j c hc => ?_)
  rw [List.mem_append, List.mem_singleton]
  refine (or_iff_left ?_).symm
  rintro rfl
  rw [hkids] at hc
  cases hc

theorem FastMail.idle (hm : FastMail h flags seen (fun m _ => m ∈ seen) s)
    (hf : Forward h flags.ignoreInterThreadEdges seen n)
    (hkids : (h.dag flags.ignoreInterThreadEdges).kids n = [])
    (hmail : ∀ m, n ∉ (h.dag flags.ignoreInterThreadEdges).kids m)
    (hn : ∀ line, ¬ n.On flags.isNews line) :
    FastMail h flags (seen ++ [n]) (fun m _ => m ∈ seen ++ [n]) s :=
  hm.append hf hkids hmail rfl rfl hm.dirtyWf (by simp [hn])

theorem FastState.dirty_insert (s : FastState) (t t' : ThreadId) (dv : DirtyCachelinesVector)
    (hs : s'.dirtyCachelines = s.dirtyCachelines.insert t dv) :
    s'.dirty hbg t' = if t' = t then dv else s.dirty hbg t' := by
  unfold FastState.dirty
  rw [hs, Dict.getD_insert]

theorem FastState.wellFormed_insert {t : ThreadId} {dv : DirtyCachelinesVector}
    (hwf : ∀ t', (s.dirty hbg t').WellFormed t' hbg.tids) (hdv : dv.WellFormed t hbg.tids)
    (hs : s'.dirtyCachelines = s.dirtyCachelines.insert t dv) (t' : ThreadId) :
    (s'.dirty hbg t').WellFormed t' hbg.tids := by
  rw [FastState.dirty_insert s t t' dv hs]
  split_ifs with ht
  · rw [ht]
    exact hdv
  · exact hwf t'

theorem FastState.dirtyAtEpoch_insert (s : FastState) (c c' : Node) (dv : DirtyCachelinesVector)
    (hs : s'.dirtyCachelinesPerEpoch = s.dirtyCachelinesPerEpoch.insert c dv) :
    s'.dirtyAtEpoch hbg c' = if c' = c then dv else s.dirtyAtEpoch hbg c' := by
  unfold FastState.dirtyAtEpoch
  rw [hs, Dict.getD_insert]

theorem FastState.dirtyAtEpoch_erase (s : FastState) (c c' : Node)
    (hs : s'.dirtyCachelinesPerEpoch = s.dirtyCachelinesPerEpoch.erase c) :
    s'.dirtyAtEpoch hbg c' =
      if c' = c then .new c'.tid hbg.tids else s.dirtyAtEpoch hbg c' := by
  unfold FastState.dirtyAtEpoch
  rw [hs, Dict.getD_erase]

/-- An instruction makes its line dirty for all other threads. -/
theorem setCachelineDirty_mail {n : InstructionNode}
    (hm : FastMail h flags seen (fun m _ => m ∈ seen) s)
    (hf : Forward h flags.ignoreInterThreadEdges seen (.instruction n)) (hline : n.InOneLine)
    (hn : flags.isNews n.itype = true) (found : Findings) :
    ∃ s', { s with found := found }.setCachelineDirty hbg n = .ok s' ∧ s'.found = found ∧
      FastMail h flags (seen ++ [.instruction n]) (fun m _ => m ∈ seen ++ [.instruction n]) s' := by
  obtain ⟨dv, hok, hwf, howes⟩ :=
    DirtyCachelinesVector.setCachelineDirty_spec (hm.dirtyWf n.tid) hline n.size_ne_zero
  have hok' : ({ s with found := found }.dirty hbg n.tid).setCachelineDirty n.address n.size =
      .ok dv := hok
  refine ⟨{ s with found := found, dirtyCachelines := s.dirtyCachelines.insert n.tid dv }, ?_, rfl,
    ?_⟩
  · unfold FastState.setCachelineDirty
    rw [hok']
    rfl
  · refine hm.append hf (kids_instruction h _ n) (not_mem_kids_instruction h _ n) rfl rfl ?_ ?_
    · exact FastState.wellFormed_insert hm.dirtyWf hwf rfl
    · intro t v line hv hvt
      rw [FastState.dirty_insert s n.tid t dv rfl]
      split_ifs with ht
      · subst ht
        rw [howes]
        refine or_congr_right ⟨?_, ?_⟩
        · rintro ⟨-, -, rfl⟩
          exact ⟨rfl, hn, rfl⟩
        · rintro ⟨-, -, rfl⟩
          exact ⟨hv, hvt, rfl⟩
      · refine (or_iff_left ?_).symm
        rintro ⟨rfl, -⟩
        exact ht rfl

end Instruction

section Epoch

variable {h : hbg.WellFormed} {seen : List Node} {n c : Node} {s s' : FastState} {i : ℕ}

theorem Forward.le_of_seen (hf : Forward h flags.ignoreInterThreadEdges seen n) {q : Node}
    (hq : q ∈ seen ++ [n]) (ht : q.tid = n.tid) :
    (h.dag flags.ignoreInterThreadEdges).Le q n := by
  rcases List.mem_append.mp hq with hq | hq
  · exact (hf.lt_of_seen q hq ht).le
  · rw [List.mem_singleton.mp hq]
    exact ThreadDag.Le.refl hf.mem

/-- What the thread of a node owes while the node is telling its children. -/
theorem Forward.owes_iff (hf : Forward h flags.ignoreInterThreadEdges seen n) {news : Node → Prop}
    {v : ThreadId} (hv : v ≠ n.tid) (i : ℕ) :
    (∃ q ∈ seen ++ [n], q.tid = n.tid ∧ (h.dag flags.ignoreInterThreadEdges).Source news v q ∧
        Quiet h flags.ignoreInterThreadEdges (SentUpTo seen n i) v q) ↔
      (h.dag flags.ignoreInterThreadEdges).Owes news v n i := by
  rw [ThreadDag.owes_iff]
  constructor
  · rintro ⟨q, hq, hqt, hsrc, hquiet⟩
    have hle := hf.le_of_seen hq hqt
    refine ⟨q, hsrc, hle, Ne.symm hv, ?_, ?_⟩
    · intro x hqx hxn c hc
      obtain ⟨j, hj⟩ := List.mem_iff_getElem?.mp hc
      exact hquiet x j c (Or.inl (hf.seen_of_step x (Or.inl hxn))) hj hqx
    · intro c hc
      obtain ⟨j, hj⟩ := List.mem_iff_getElem?.mp hc
      rw [List.getElem?_take] at hj
      split_ifs at hj with hlt
      exact hquiet n j c (Or.inr ⟨rfl, hlt⟩) hj hle
  · rintro ⟨q, hsrc, hle, -, hsil⟩
    refine ⟨q, ?_, hle.2.2.1, hsrc, ?_⟩
    · rcases hle.eq_or_lt with rfl | hlt
      · simp
      · exact List.mem_append_left _ (hf.seen_of_step q (Or.inl hlt))
    · rintro x j c (hx | ⟨rfl, hj⟩) hc hqx
      · have hxt : x.tid = n.tid := hqx.2.2.1.symm.trans hle.2.2.1
        exact hsil.1 x hqx (hf.lt_of_seen x hx hxt) c (List.mem_of_getElem? hc)
      · have htake : (((h.dag flags.ignoreInterThreadEdges).kids x).take i)[j]? = some c := by
          rw [List.getElem?_take, if_pos hj]
          exact hc
        exact hsil.2 c (List.mem_of_getElem? htake)

/-- The vector of the thread holds what it owes, line by line. -/
theorem Forward.dirty_owes_iff (hf : Forward h flags.ignoreInterThreadEdges seen n)
    (hm : FastMail h flags (seen ++ [n]) (SentUpTo seen n i) s) {v : ThreadId} (hv : v ∈ hbg.tids)
    (hvn : v ≠ n.tid) (line : Cacheline) : (s.dirty hbg n.tid).Owes v line ↔
      (h.dag flags.ignoreInterThreadEdges).Owes (Node.On flags.isNews line) v n i := by
  rw [hm.dirty n.tid v line hv hvn]
  exact hf.owes_iff hvn i

/-- The message to a child ends the quiet of its thread, for the nodes up to the teller. -/
theorem Forward.quiet_sentUpTo_succ (hf : Forward h flags.ignoreInterThreadEdges seen n)
    (hkid : ((h.dag flags.ignoreInterThreadEdges).kids n)[i]? = some c) {q : Node}
    (hq : q ∈ seen ++ [n]) (v : ThreadId) :
    Quiet h flags.ignoreInterThreadEdges (SentUpTo seen n (i + 1)) v q ↔
      Quiet h flags.ignoreInterThreadEdges (SentUpTo seen n i) v q ∧
      (q.tid = n.tid → v ≠ c.tid) := by
  have hle : (h.dag flags.ignoreInterThreadEdges).Le q n ↔ q.tid = n.tid :=
    ⟨fun hle => hle.2.2.1, hf.le_of_seen hq⟩
  rw [← hle]
  exact silent_sentUpTo_succ hkid

/-- The clocks that a child is given show what was told to it. -/
theorem FastMail.epochs_told (hf : Forward h flags.ignoreInterThreadEdges seen n)
    (hc : Clocks hbg flags (FastKnows h flags) (seen ++ [n]) s.found)
    (hm : FastMail h flags (seen ++ [n]) (SentUpTo seen n i) s)
    (hkid : ((h.dag flags.ignoreInterThreadEdges).kids n)[i]? = some c) {lines : List Cacheline}
    (hlines : ∀ line, line ∈ lines ↔
      (h.dag flags.ignoreInterThreadEdges).Owes (Node.On flags.isNews line) c.tid n i)
    (c' : Node) (hc' : c' ∉ seen ++ [n]) (line : Cacheline) :
    Shows hbg flags (FastKnows h flags) line
      ((tellLines s.found.pvcPerThread n.tid c lines s.pvcPerEpochNode).clock c' c'.tid line)
      (fun y => ∃ m j, SentUpTo seen n (i + 1) m j ∧
        (h.dag flags.ignoreInterThreadEdges).Tells (Node.On flags.isNews line) m j c' ∧
          FastKnows h flags line y m) := by
  have hshow := fun line => (hc.shows n.tid line).congr (hf.knownBy_iff (fastKnows_spreads h flags))
  refine (shows_tellLines hshow lines s.pvcPerEpochNode c' line (hm.epochs c' hc' line)).congr
    (fun y => ?_)
  rw [exists_sentUpTo_succ]
  refine or_congr_right (and_congr_left fun _ => ⟨?_, ?_⟩)
  · rintro ⟨rfl, hl⟩
    exact ⟨hkid, (hlines line).mp hl⟩
  · rintro ⟨hk, ho⟩
    rw [hkid] at hk
    obtain rfl := Option.some.inj hk
    exact ⟨rfl, (hlines line).mpr ho⟩

/-- The teller no longer owes anything to the thread of the child. -/
theorem FastMail.dirty_told (hf : Forward h flags.ignoreInterThreadEdges seen n)
    (hm : FastMail h flags (seen ++ [n]) (SentUpTo seen n i) s)
    (hkid : ((h.dag flags.ignoreInterThreadEdges).kids n)[i]? = some c)
    {dv : DirtyCachelinesVector}
    (hdv : ∀ v line, dv.Owes v line ↔ v ≠ c.tid ∧ (s.dirty hbg n.tid).Owes v line)
    (hs : s'.dirtyCachelines = s.dirtyCachelines.insert n.tid dv) (t v : ThreadId)
    (line : Cacheline) (hv : v ∈ hbg.tids) (hvt : v ≠ t) : (s'.dirty hbg t).Owes v line ↔
      ∃ q ∈ seen ++ [n], q.tid = t ∧
        (h.dag flags.ignoreInterThreadEdges).Source (Node.On flags.isNews line) v q ∧
          Quiet h flags.ignoreInterThreadEdges (SentUpTo seen n (i + 1)) v q := by
  rw [FastState.dirty_insert s n.tid t dv hs]
  have hold := hm.dirty t v line hv hvt
  split_ifs with ht
  · subst ht
    rw [hdv, hold]
    constructor
    · rintro ⟨hvc, q, hq, hqt, hsrc, hquiet⟩
      exact ⟨q, hq, hqt, hsrc, (hf.quiet_sentUpTo_succ hkid hq v).mpr ⟨hquiet, fun _ => hvc⟩⟩
    · rintro ⟨q, hq, hqt, hsrc, hquiet⟩
      obtain ⟨hquiet', hvc⟩ := (hf.quiet_sentUpTo_succ hkid hq v).mp hquiet
      exact ⟨hvc hqt, q, hq, hqt, hsrc, hquiet'⟩
  · rw [hold]
    refine exists_congr fun q => and_congr_right fun hq => and_congr_right fun hqt => ?_
    rw [hf.quiet_sentUpTo_succ hkid hq v]
    simp [hqt, ht]

/-- The vector of the child takes over what is owed to the other threads. -/
theorem FastMail.dirtyAtEpoch_told (hf : Forward h flags.ignoreInterThreadEdges seen n)
    (hm : FastMail h flags (seen ++ [n]) (SentUpTo seen n i) s)
    (hkid : ((h.dag flags.ignoreInterThreadEdges).kids n)[i]? = some c)
    {child : DirtyCachelinesVector}
    (hchild : ∀ v line, child.Owes v line ↔
      (s.dirtyAtEpoch hbg c).Owes v line ∨ v ≠ c.tid ∧ (s.dirty hbg n.tid).Owes v line)
    (hs : s'.dirtyCachelinesPerEpoch = s.dirtyCachelinesPerEpoch.insert c child) (c' : Node)
    (hc' : c' ∉ seen ++ [n]) (v : ThreadId) (line : Cacheline) (hv : v ∈ hbg.tids)
    (hvc : v ≠ c'.tid) : (s'.dirtyAtEpoch hbg c').Owes v line ↔
      ∃ m j, SentUpTo seen n (i + 1) m j ∧
        ((h.dag flags.ignoreInterThreadEdges).kids m)[j]? = some c' ∧
          (h.dag flags.ignoreInterThreadEdges).Owes (Node.On flags.isNews line) v m j := by
  rw [FastState.dirtyAtEpoch_insert s c c' child hs, exists_sentUpTo_succ]
  have hold := hm.dirtyAtEpoch c' hc' v line hv hvc
  split_ifs with hcc
  · subst hcc
    rw [hchild, hold]
    refine or_congr_right ⟨?_, ?_⟩
    · rintro ⟨-, ho⟩
      have hvn := ((hm.dirtyWf n.tid).owes_imp ho).2
      exact ⟨hkid, (hf.dirty_owes_iff hm hv hvn line).mp ho⟩
    · rintro ⟨-, ho⟩
      obtain ⟨-, -, -, hvn, -⟩ := ThreadDag.owes_iff.mp ho
      exact ⟨hvc, (hf.dirty_owes_iff hm hv (Ne.symm hvn) line).mpr ho⟩
  · rw [hold]
    refine (or_iff_left ?_).symm
    rintro ⟨hk, -⟩
    rw [hkid] at hk
    exact hcc (Option.some.inj hk).symm

/-- One child is told what is owed to its thread. -/
theorem tellChild_spec (hf : Forward h flags.ignoreInterThreadEdges seen n)
    (hc : Clocks hbg flags (FastKnows h flags) (seen ++ [n]) s.found)
    (hm : FastMail h flags (seen ++ [n]) (SentUpTo seen n i) s)
    (hkid : ((h.dag flags.ignoreInterThreadEdges).kids n)[i]? = some c) :
    ∃ s', s.tellChild hbg n c = .ok s' ∧ s'.found = s.found ∧
      FastMail h flags (seen ++ [n]) (SentUpTo seen n (i + 1)) s' := by
  obtain ⟨hne, hnt, hct⟩ := kids_tid h (List.mem_of_getElem? hkid)
  obtain ⟨lines, hget, hlines⟩ :=
    DirtyCachelinesVector.getDirtyCachelines_spec (hm.dirtyWf n.tid) hct hne.symm
  obtain ⟨dv, child, hupd, hdvwf, hchildwf, -, hchildpend, hdv, hchild⟩ :=
    DirtyCachelinesVector.updateChild_spec (hm.dirtyWf n.tid).clearPending
      (hm.epochWf c) hne hnt hct (DirtyCachelinesVector.pending_clearPending _) (hm.epochPending c)
  simp only [DirtyCachelinesVector.owes_clearPending] at hdv hchild
  refine ⟨{ s with
    pvcPerEpochNode := tellLines s.found.pvcPerThread n.tid c lines s.pvcPerEpochNode
    dirtyCachelines := s.dirtyCachelines.insert n.tid dv
    dirtyCachelinesPerEpoch := s.dirtyCachelinesPerEpoch.insert c child }, ?_, rfl, ?_⟩
  · unfold FastState.tellChild
    simp only [hget, hupd, ok_bind]
    rfl
  refine ⟨?_, FastState.wellFormed_insert hm.dirtyWf hdvwf rfl, hm.dirty_told hf hkid hdv rfl, ?_,
    ?_, hm.dirtyAtEpoch_told hf hkid hchild rfl⟩
  · refine hm.epochs_told hf hc hkid (fun line => ?_)
    rw [hlines, hf.dirty_owes_iff hm hct hne.symm]
  · intro c'
    rw [FastState.dirtyAtEpoch_insert s c c' child rfl]
    split_ifs with hcc
    · rw [hcc]
      exact hchildwf
    · exact hm.epochWf c'
  · intro c'
    rw [FastState.dirtyAtEpoch_insert s c c' child rfl]
    split_ifs
    · exact hchildpend
    · exact hm.epochPending c'

/-- What is known at an epoch node was known before in its thread or came in. -/
theorem fastKnows_epoch (hf : Forward h flags.ignoreInterThreadEdges seen n)
    (hn : n.itype = .epoch) (line : Cacheline) (y : Node) :
    FastKnows h flags line y n ↔ KnownBy (FastKnows h flags) seen n.tid line y ∨ ∃ m j, m ∈ seen ∧
      (h.dag flags.ignoreInterThreadEdges).Tells (Node.On flags.isNews line) m j n ∧
        FastKnows h flags line y m := by
  have hnews : ¬ n.On flags.isNews line := Node.not_on_of_epoch hn
  unfold FastKnows
  rw [ThreadDag.knows_iff hf.mem]
  constructor
  · rintro (⟨hon, -⟩ | ⟨x, hlt, hy⟩ | ⟨m, j, ht, hy⟩)
    · exact absurd hon hnews
    · exact Or.inl ⟨x, hf.seen_of_step x (Or.inl hlt), hlt.2.2.1, hy⟩
    · exact Or.inr ⟨m, j, hf.seen_of_step m (Or.inr ht.mem), ht, hy⟩
  · rintro (⟨x, hx, ht, hy⟩ | ⟨m, j, -, ht, hy⟩)
    · exact Or.inr (Or.inl ⟨x, hf.lt_of_seen x hx ht, hy⟩)
    · exact Or.inr (Or.inr ⟨m, j, ht, hy⟩)

theorem clocks_mergeLines (hf : Forward h flags.ignoreInterThreadEdges seen n)
    (hn : n.itype = .epoch) (hc : Clocks hbg flags (FastKnows h flags) seen s.found)
    (hm : FastMail h flags seen (fun m _ => m ∈ seen) s) :
    Clocks hbg flags (FastKnows h flags) (seen ++ [n]) { s.found with
      pvcPerThread := mergeLines s.pvcPerEpochNode n s.found.pvcPerThread } := by
  have hshow := fun t line => shows_mergeLines hc.shows (hm.epochs n hf.notMem) { s.found with
    pvcPerThread := mergeLines s.pvcPerEpochNode n s.found.pvcPerThread } rfl t line
  refine ⟨fun t line => (hshow t line).1.trans (hc.tid t line), fun t line => ?_⟩
  refine (hshow t line).2.congr (fun y => ?_)
  unfold KnownBy
  rw [exists_seen_append, fastKnows_epoch hf hn]
  constructor
  · rintro (hx | ⟨rfl, hx⟩)
    · exact Or.inl hx
    · exact Or.inr ⟨rfl, Or.inr hx⟩
  · rintro (hx | ⟨rfl, hx | hx⟩)
    · exact Or.inl hx
    · exact Or.inl hx
    · exact Or.inr ⟨rfl, hx⟩

/-- The thread owes in addition what the epoch node was told. -/
theorem FastMail.dirty_merged (hf : Forward h flags.ignoreInterThreadEdges seen n)
    (hn : n.itype = .epoch) (hm : FastMail h flags seen (fun m _ => m ∈ seen) s)
    {dv : DirtyCachelinesVector}
    (hdv : ∀ v line, dv.Owes v line ↔
      (s.dirty hbg n.tid).Owes v line ∨ (s.dirtyAtEpoch hbg n).Owes v line)
    (hs : s'.dirtyCachelines = s.dirtyCachelines.insert n.tid dv) (t v : ThreadId)
    (line : Cacheline) (hv : v ∈ hbg.tids) (hvt : v ≠ t) : (s'.dirty hbg t).Owes v line ↔
      ∃ q ∈ seen ++ [n], q.tid = t ∧
        (h.dag flags.ignoreInterThreadEdges).Source (Node.On flags.isNews line) v q ∧
          Quiet h flags.ignoreInterThreadEdges (SentUpTo seen n 0) v q := by
  rw [FastState.dirty_insert s n.tid t dv hs, exists_seen_append]
  simp only [Quiet, sentUpTo_zero]
  have hold := hm.dirty t v line hv hvt
  unfold Quiet at hold
  split_ifs with ht
  · subst ht
    rw [hdv, hold, hm.dirtyAtEpoch n hf.notMem v line hv hvt]
    refine or_congr_right ⟨?_, ?_⟩
    · rintro ⟨m, j, hms, hk, ho⟩
      refine ⟨rfl, Or.inr ⟨m, j, ho, hk⟩, fun x j c hx _ hle => ?_⟩
      have hlt := hf.lt_of_seen x hx hle.2.2.1.symm
      exact absurd hle.2.2.2 (not_le.mpr hlt.2.2.2)
    · rintro ⟨-, hon | ⟨m, j, ho, hk⟩, -⟩
      · exact absurd hon (Node.not_on_of_epoch hn)
      · exact ⟨m, j, hf.seen_of_step m (Or.inr (List.mem_of_getElem? hk)), hk, ho⟩
  · rw [hold]
    refine (or_iff_left ?_).symm
    rintro ⟨hnt, -⟩
    exact ht hnt.symm

/-- An epoch node takes in its mail. -/
theorem mergeEpoch_spec (hf : Forward h flags.ignoreInterThreadEdges seen n)
    (hn : n.itype = .epoch) (hc : Clocks hbg flags (FastKnows h flags) seen s.found)
    (hm : FastMail h flags seen (fun m _ => m ∈ seen) s) :
    ∃ s', s.mergeEpoch hbg n = .ok s' ∧
      Clocks hbg flags (FastKnows h flags) (seen ++ [n]) s'.found ∧
      FastMail h flags (seen ++ [n]) (SentUpTo seen n 0) s' ∧ s'.found.races = s.found.races ∧
      ∀ r, s'.found.after r = s.found.after r := by
  obtain ⟨dv, hok, hwf, hdv⟩ := DirtyCachelinesVector.merge_spec (hm.dirtyWf n.tid) (hm.epochWf n)
    (hm.epochPending n)
  have hnot : ∀ {c}, c ∉ seen ++ [n] → c ∉ seen ∧ c ≠ n := by
    intro c hc
    rw [List.mem_append, List.mem_singleton, not_or] at hc
    exact hc
  refine ⟨{
    found := { s.found with pvcPerThread := mergeLines s.pvcPerEpochNode n s.found.pvcPerThread }
    pvcPerEpochNode := s.pvcPerEpochNode.erase n
    dirtyCachelines := s.dirtyCachelines.insert n.tid dv
    dirtyCachelinesPerEpoch := s.dirtyCachelinesPerEpoch.erase n }, ?_,
    clocks_mergeLines hf hn hc hm, ?_, rfl, fun r => rfl⟩
  · unfold FastState.mergeEpoch
    rw [hok]
    rfl
  refine ⟨?_, FastState.wellFormed_insert hm.dirtyWf hwf rfl, hm.dirty_merged hf hn hdv rfl, ?_, ?_,
    ?_⟩
  · intro c hc line
    have hclock : (LineClocks.clock (s.pvcPerEpochNode.erase n) c c.tid line) =
        s.pvcPerEpochNode.clock c c.tid line := by
      unfold LineClocks.clock
      rw [Dict.getD_erase, if_neg (hnot hc).2]
    rw [hclock]
    refine (hm.epochs c (hnot hc).1 line).congr (fun y => ?_)
    simp only [sentUpTo_zero]
  · intro c
    rw [FastState.dirtyAtEpoch_erase s n c rfl]
    split_ifs
    · exact DirtyCachelinesVector.wellFormed_new _ _
    · exact hm.epochWf c
  · intro c
    rw [FastState.dirtyAtEpoch_erase s n c rfl]
    split_ifs
    · rfl
    · exact hm.epochPending c
  · intro c hc v line hv hvc
    rw [FastState.dirtyAtEpoch_erase s n c rfl, if_neg (hnot hc).2]
    simp only [sentUpTo_zero]
    exact hm.dirtyAtEpoch c (hnot hc).1 v line hv hvc

/-- The loop over the children. -/
theorem tellChildren_spec (hf : Forward h flags.ignoreInterThreadEdges seen n)
    (children : List Node) {i : ℕ}
    (hrest : ((h.dag flags.ignoreInterThreadEdges).kids n).drop i = children) {s : FastState}
    (hc : Clocks hbg flags (FastKnows h flags) (seen ++ [n]) s.found)
    (hm : FastMail h flags (seen ++ [n]) (SentUpTo seen n i) s) :
    ∃ s', children.foldlM (FastState.tellChild hbg n) s = .ok s' ∧ s'.found = s.found ∧
      FastMail h flags (seen ++ [n]) (fun m _ => m ∈ seen ++ [n]) s' := by
  induction children generalizing i s with
  | nil =>
    exact ⟨s, rfl, rfl, hm.congr_sent (fun m j c hk => sentUpTo_of_drop_eq_nil hrest hk)⟩
  | cons c children ih =>
    obtain ⟨hkid, hrest'⟩ := getElem?_of_drop_eq_cons hrest
    obtain ⟨s₁, hok₁, hfound₁, hm₁⟩ := tellChild_spec hf hc hm hkid
    obtain ⟨s₂, hok₂, hfound₂, hm₂⟩ := ih hrest' (by rw [hfound₁]; exact hc) hm₁
    refine ⟨s₂, ?_, hfound₂.trans hfound₁, hm₂⟩
    rw [List.foldlM_cons, hok₁]
    exact hok₂

end Epoch

/-- The invariant of the fast sweep after the nodes in `seen`. -/
structure FastInvariant (h : hbg.WellFormed) (pdg : PDG) (flags : Flags) (seen : List Node)
    (s : FastState) : Prop where
  clocks : Clocks hbg flags (FastKnows h flags) seen s.found
  mail : FastMail h flags seen (fun m _ => m ∈ seen) s
  verdicts : Verdicts h pdg flags (FastKnows h flags) seen s.found

section Step

variable {h : hbg.WellFormed} {seen : List Node} {s : FastState}

/-- The cases `WRITE` and `READ` up to the search for bugs. -/
theorem access_spec (hin : Input hbg pdg) {n : InstructionNode}
    (hf : Forward h flags.ignoreInterThreadEdges seen (.instruction n))
    (hI : FastInvariant h pdg flags seen s) (hn : n.itype.isReadWriteType = true) :
    ∃ s', s.access hbg n = .ok s' ∧
      Clocks hbg flags (FastKnows h flags) (seen ++ [.instruction n]) s'.found ∧
      FastMail h flags (seen ++ [.instruction n]) (fun m _ => m ∈ seen ++ [.instruction n]) s' ∧
      Verdicts h pdg flags (FastKnows h flags) seen s'.found := by
  obtain ⟨found, hok, hc, hraces, hafter⟩ :=
    addAccess_spec hI.clocks (fastKnows_spreads h flags) hf hn
  have hnews : flags.isNews n.itype = true := by simp [Flags.isNews, hn]
  obtain ⟨s', hok', hfound, hm⟩ :=
    setCachelineDirty_mail hI.mail hf (hin.oneLine n hf.mem) hnews found
  refine ⟨s',
    ?_, by rw [hfound]; exact hc, hm, by rw [hfound]; exact hI.verdicts.mono hraces hafter⟩
  unfold FastState.access
  rw [hok]
  exact hok'

theorem fastStep_epoch (hin : Input hbg pdg) {e : EpochNode}
    (hf : Forward h flags.ignoreInterThreadEdges seen (.epoch e))
    (hI : FastInvariant h pdg flags seen s) :
    ∃ s', fastStep hbg pdg flags s (.epoch e) = .ok s' ∧
      FastInvariant h pdg flags (seen ++ [.epoch e]) s' := by
  have hnw : (Node.epoch e).itype ≠ .write := NodeType.noConfusion
  simp only [fastStep]
  cases hi : flags.ignoreInterThreadEdges with
  | true =>
    have hkids : ∀ m, (h.dag flags.ignoreInterThreadEdges).kids m = [] := by
      intro m
      rw [hi]
      rfl
    have hmail : ∀ m, Node.epoch e ∉ (h.dag flags.ignoreInterThreadEdges).kids m := by
      intro m
      rw [hkids m]
      exact List.not_mem_nil
    exact ⟨s, rfl, hI.clocks.idle (fastKnows_spreads h flags) hf hmail (fun _ => id),
      hI.mail.idle hf (hkids _) hmail (fun _ => id), hI.verdicts.skip hin hnw⟩
  | false =>
    obtain ⟨s₁, hok₁, hc₁, hm₁, hraces, hafter⟩ := mergeEpoch_spec hf rfl hI.clocks hI.mail
    have hkids : (h.dag flags.ignoreInterThreadEdges).kids (.epoch e) =
        hbg.getInterChildren (.epoch e) := by
      rw [hi]
      rfl
    obtain ⟨s₂, hok₂, hfound, hm₂⟩ := tellChildren_spec hf (hbg.getInterChildren (.epoch e))
      (by rw [List.drop_zero, hkids]) hc₁ hm₁
    refine ⟨s₂, ?_, by rw [hfound]; exact hc₁, hm₂, ?_⟩
    · rw [if_neg Bool.false_ne_true, hok₁]
      exact hok₂
    · rw [hfound]
      exact (hI.verdicts.mono hraces hafter).skip hin hnw

theorem fastStep_instruction (hin : Input hbg pdg) {n : InstructionNode}
    (hf : Forward h flags.ignoreInterThreadEdges seen (.instruction n))
    (hI : FastInvariant h pdg flags seen s) :
    ∃ s', fastStep hbg pdg flags s (.instruction n) = .ok s' ∧
      FastInvariant h pdg flags (seen ++ [.instruction n]) s' := by
  simp only [fastStep]
  cases hi : n.itype with
  | epoch => exact absurd hi n.itype_ne_epoch
  | write =>
    obtain ⟨s₁, hok₁, hc₁, hm₁, hv₁⟩ := access_spec hin hf hI (by rw [hi]; rfl)
    obtain ⟨found, hok₂, hc₂, hv₂⟩ := findBugs_verdicts hin (fastKnows_spreads h flags) hf hc₁ hv₁
    refine ⟨{ s₁ with found := found }, ?_, hc₂, ?_, hv₂⟩
    · simp only [hok₁, hok₂, ok_bind]
      rfl
    · exact ⟨hm₁.epochs, hm₁.dirtyWf, hm₁.dirty, hm₁.epochWf, hm₁.epochPending, hm₁.dirtyAtEpoch⟩
  | read =>
    obtain ⟨s₁, hok₁, hc₁, hm₁, hv₁⟩ := access_spec hin hf hI (by rw [hi]; rfl)
    refine ⟨s₁, hok₁, hc₁, hm₁, hv₁.skip hin ?_⟩
    rw [show (Node.instruction n).itype = .read from hi]
    exact NodeType.noConfusion
  | flush =>
    have hnw : (Node.instruction n).itype ≠ .write := by
      rw [show (Node.instruction n).itype = .flush from hi]
      exact NodeType.noConfusion
    cases hfl : flags.ignoreFlushNodes with
    | true =>
      have hnews : ∀ line, ¬ (Node.instruction n).On flags.isNews line := by
        rintro line ⟨hon, -⟩
        rw [hi] at hon
        simp [Flags.isNews, Flags.isFlush, NodeType.isReadWriteType, hfl] at hon
      exact ⟨s, rfl, hI.clocks.idle (fastKnows_spreads h flags) hf (not_mem_kids_instruction h _ n)
        hnews, hI.mail.idle hf (kids_instruction h _ n) (not_mem_kids_instruction h _ n) hnews,
        hI.verdicts.skip hin hnw⟩
    | false =>
      have hflush : flags.isFlush n.itype = true := by simp [Flags.isFlush, hi, hfl]
      have hnews : flags.isNews n.itype = true := by simp [Flags.isNews, hflush]
      have hc := flushLine_spec hI.clocks (fastKnows_spreads h flags) hf hflush
      obtain ⟨s', hok', hfound, hm⟩ := setCachelineDirty_mail hI.mail hf (hin.oneLine n hf.mem)
        hnews (flushLine s.found n)
      refine ⟨s', hok', by rw [hfound]; exact hc, hm, ?_⟩
      rw [hfound]
      exact Verdicts.skip hin (hI.verdicts.mono rfl (fun r => rfl)) hnw

end Step

/-- The fast sweep never fails and keeps its invariant up to every node. -/
theorem persistedBeforeAnalysisFast_spec (h : hbg.WellFormed) (hin : Input hbg pdg)
    {vcs : ReversedClocks Node} (hvcs : ∀ r ∈ hbg.nodes, r.itype = .read →
      Summarizes Node.tid hbg.reversedStamp (vcs.getD r (.new r.tid)).epochAt
        (fun w => w.itype = .write ∧ (h.dag flags.ignoreInterThreadEdges).Ahead r w))
    {order pre post : List Node} (ht : hbg.graph.IsTopological order) (ho : order = pre ++ post) :
    ∃ s, persistedBeforeAnalysisFast hbg pdg flags vcs pre = .ok s ∧
      FastInvariant h pdg flags pre s := by
  have h₀ : FastInvariant h pdg flags [] (.new vcs) := by
    refine ⟨clocks_new hbg flags _ vcs, fastMail_new h flags vcs, ?_, by simp [FastState.new], ?_⟩
    · intro r hr hi
      exact hvcs _ hr hi
    · intro x hx
      cases hx
  refine foldlM_invariant h₀ (fun seen n rest s ho hI => ?_) ho
  have hf := forward_of_split h flags.ignoreInterThreadEdges ht ho
  cases n with
  | epoch e => exact fastStep_epoch hin hf hI
  | instruction n => exact fastStep_instruction hin hf hI

end Prd.Pycprd
