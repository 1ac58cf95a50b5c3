import Prd.Pycprd.TraceGraphs
import Prd.Foundation.LoggedClocks

/-!
# The graph of a log

The builder has the epochs and the edges of logged clocks and other nodes between them. What it
builds is acyclic, and a path between two threads leads through a path of the log.
-/
namespace Prd.Runtime

open Relation Prd.Foundation Prd.Pycprd

def epochNode (a : ℕ × ℕ) : EpochNode := ⟨a.1, a.2⟩

def epochOf (a : ℕ × ℕ) : Node := .epoch (epochNode a)

theorem epochOf_inj {a b : ℕ × ℕ} (h : epochOf a = epochOf b) : a = b := by
  have hnode : epochNode a = epochNode b := Node.epoch.inj h
  obtain ⟨t, e⟩ := a
  obtain ⟨t', e'⟩ := b
  simpa [epochNode] using hnode

@[simp] theorem tid_epochOf (a : ℕ × ℕ) : (epochOf a).tid = a.1 := rfl

/-- The nodes are of one thread and stand in this order. -/
def Earlier (l : List Node) (u v : Node) : Prop :=
  u ∈ l ∧ v ∈ l ∧ u.tid = v.tid ∧ (threadOf u.tid l).idxOf u < (threadOf v.tid l).idxOf v

section Earlier

variable {l : List Node} {u v w : Node}

theorem Earlier.trans (h : Earlier l u v) (h' : Earlier l v w) : Earlier l u w :=
  ⟨h.1, h'.2.1, h.2.2.1.trans h'.2.2.1, h.2.2.2.trans h'.2.2.2⟩

theorem not_earlier_self : ¬ Earlier l u u := fun h => lt_irrefl _ h.2.2.2

theorem earlier_of_append {a b : List Node} (hnd : (a ++ b).Nodup) (hu : u ∈ a) (hv : v ∈ b)
    (htid : u.tid = v.tid) : Earlier (a ++ b) u v := by
  refine ⟨List.mem_append_left _ hu, List.mem_append_right _ hv, htid, ?_⟩
  have hthread : threadOf v.tid (a ++ b) = threadOf v.tid a ++ threadOf v.tid b :=
    List.filter_append ..
  have hua : u ∈ threadOf v.tid a := mem_threadOf.mpr ⟨hu, htid⟩
  have hva : v ∉ threadOf v.tid a := fun hva =>
    List.disjoint_of_nodup_append hnd (mem_threadOf.mp hva).1 hv
  rw [htid, hthread, List.idxOf_append_of_mem hua, List.idxOf_append_of_notMem hva]
  have hlt := List.idxOf_lt_length_of_mem hua
  omega

theorem earlier_of_consecutive {pre post : List Node} (hnd : l.Nodup)
    (hl : threadOf v.tid l = pre ++ u :: v :: post) : Earlier l u v := by
  have hu := mem_threadOf.mp (show u ∈ threadOf v.tid l by rw [hl]; simp)
  have hv := mem_threadOf.mp (show v ∈ threadOf v.tid l by rw [hl]; simp)
  refine ⟨hu.1, hv.1, hu.2, ?_⟩
  rw [hu.2]
  exact idxOf_lt_of_consecutive (hnd.filter _) hl

theorem Earlier.split (h : Earlier l u v) :
    ∃ pre mid post, threadOf v.tid l = pre ++ u :: (mid ++ v :: post) := by
  obtain ⟨hu, hv, htid, hlt⟩ := h
  rw [htid] at hlt
  obtain ⟨pre, rest, hl, hpre⟩ := List.eq_append_cons_of_mem (mem_threadOf.mpr ⟨hu, htid⟩)
  have hmem := mem_threadOf.mpr ⟨hv, rfl⟩
  rw [hl, List.idxOf_append_of_notMem hpre, List.idxOf_cons_self, Nat.add_zero] at hlt
  rw [hl] at hmem
  have hvrest : v ∈ rest := by
    rcases List.mem_append.mp hmem with hm | hm
    · have hle := List.idxOf_lt_length_of_mem hm
      rw [List.idxOf_append_of_mem hm] at hlt
      omega
    · rcases List.mem_cons.mp hm with rfl | hm
      · rw [List.idxOf_append_of_notMem hpre, List.idxOf_cons_self] at hlt
        omega
      · exact hm
  obtain ⟨mid, post, rfl⟩ := List.append_of_mem hvrest
  exact ⟨pre, mid, post, hl⟩

end Earlier

/-- The builder has the epochs and the edges of the vectors. -/
structure HoldsLog (b : HBGBuilder) (c : LoggedClocks ℕ ℕ) : Prop where
  nodup : b.nodes.Nodup
  epochs : (b.nodes.filter fun n => n.itype = .epoch) = c.nodes.map epochOf
  edges : ∀ e, e ∈ b.edges ↔ ∃ x ∈ c.edges, e = (epochNode x.1, epochNode x.2)

/-- A step along a thread or along an edge of the log. -/
def Next (l : List Node) (c : LoggedClocks ℕ ℕ) (u v : Node) : Prop :=
  Earlier l u v ∨ ∃ x y, (x, y) ∈ c.edges ∧ u = epochOf x ∧ v = epochOf y

namespace HoldsLog

variable {b : HBGBuilder} {c : LoggedClocks ℕ ℕ} {u v : Node} {x y : ℕ × ℕ}

theorem mem_iff (hb : HoldsLog b c) : epochOf x ∈ b.nodes ↔ x ∈ c.nodes := by
  have hmem : epochOf x ∈ (b.nodes.filter fun n => n.itype = .epoch) ↔ epochOf x ∈ b.nodes := by
    simp [epochOf, Node.itype]
  rw [← hmem, hb.epochs, List.mem_map]
  constructor
  · rintro ⟨a, ha, he⟩
    rw [← epochOf_inj he]
    exact ha
  · exact fun hx => ⟨x, hx, rfl⟩

/-- The epochs of a thread are listed in their order. -/
theorem earlier_epochs (hb : HoldsLog b c) (h : c.Logged) (hx : x ∈ c.nodes) (hy : y ∈ c.nodes)
    (htid : x.1 = y.1) (hlt : x.2 < y.2) : Earlier b.nodes (epochOf x) (epochOf y) := by
  obtain ⟨l₁, l₂, hsplit⟩ := List.append_of_mem hx
  have hinc := h.increasing
  rw [hsplit] at hinc hy
  have hy₂ : y ∈ l₂ := by
    rcases List.mem_append.mp hy with hy | hy
    · exact absurd ((List.pairwise_append.mp hinc).2.2 y hy x List.mem_cons_self htid.symm)
        (lt_asymm hlt)
    · rcases List.mem_cons.mp hy with rfl | hy
      · exact absurd hlt (lt_irrefl _)
      · exact hy
  have hepochs := hb.epochs
  rw [hsplit, List.append_cons, List.map_append] at hepochs
  obtain ⟨a, d, hnodes, ha, hd⟩ := List.filter_eq_append_iff.mp hepochs
  have hxa : epochOf x ∈ a := by
    refine List.mem_of_mem_filter (p := fun n => n.itype = .epoch) ?_
    rw [ha]
    simp
  have hyd : epochOf y ∈ d := by
    refine List.mem_of_mem_filter (p := fun n => n.itype = .epoch) ?_
    rw [hd]
    exact List.mem_map_of_mem hy₂
  have hnd := hb.nodup
  rw [hnodes] at hnd ⊢
  exact earlier_of_append hnd hxa hyd htid

theorem before_of_earlier (hb : HoldsLog b c) (h : c.Logged)
    (he : Earlier b.nodes (epochOf x) (epochOf y)) : c.Before x y := by
  have hx := hb.mem_iff.mp he.1
  have hy := hb.mem_iff.mp he.2.1
  have htid : x.1 = y.1 := he.2.2.1
  refine Or.inl ⟨hx, hy, htid, ?_⟩
  by_contra hle
  rcases (not_lt.mp hle).eq_or_lt with heq | hlt
  · rw [show x = y from Prod.ext htid heq.symm] at he
    exact not_earlier_self he
  · exact not_earlier_self (he.trans (hb.earlier_epochs h hy hx htid.symm hlt))

theorem eq_or_before (hb : HoldsLog b c) (h : c.Logged)
    (he : epochOf x = epochOf y ∨ Earlier b.nodes (epochOf x) (epochOf y)) : x = y ∨ c.Before x y :=
  he.imp epochOf_inj (hb.before_of_earlier h)

/-- A path stays on its thread or leads through a path of the log. -/
theorem path_cases (hb : HoldsLog b c) (h : c.Logged) (hpath : TransGen (Next b.nodes c) u v) :
    Earlier b.nodes u v ∨ ∃ x y, (u = epochOf x ∨ Earlier b.nodes u (epochOf x)) ∧
      TransGen c.Before x y ∧ (epochOf y = v ∨ Earlier b.nodes (epochOf y) v) := by
  induction hpath with
  | single hnext =>
    rcases hnext with he | ⟨x, y, hxy, rfl, rfl⟩
    · exact Or.inl he
    · exact Or.inr ⟨x, y, Or.inl rfl, .single (Or.inr hxy), Or.inl rfl⟩
  | @tail v w _ hnext ih =>
    rcases hnext with he | ⟨y', z, hyz, rfl, rfl⟩
    · rcases ih with ih | ⟨x, y, hux, hxy, hyv⟩
      · exact Or.inl (ih.trans he)
      · refine Or.inr ⟨x, y, hux, hxy, Or.inr ?_⟩
        rcases hyv with rfl | hyv
        · exact he
        · exact hyv.trans he
    · have hlast : c.Before y' z := Or.inr hyz
      rcases ih with ih | ⟨x, y, hux, hxy, hyv⟩
      · exact Or.inr ⟨y', z, Or.inr ih, .single hlast, Or.inl rfl⟩
      · refine Or.inr ⟨x, z, hux, ?_, Or.inl rfl⟩
        rcases hb.eq_or_before h hyv with rfl | hyy
        · exact hxy.tail hlast
        · exact (hxy.tail hyy).tail hlast

theorem not_path_self (hb : HoldsLog b c) (h : c.Logged) : ¬ TransGen (Next b.nodes c) u u := by
  intro hpath
  rcases hb.path_cases h hpath with he | ⟨x, y, hux, hxy, hyu⟩
  · exact not_earlier_self he
  · have hyx : epochOf y = epochOf x ∨ Earlier b.nodes (epochOf y) (epochOf x) := by
      rcases hux with rfl | hux
      · exact hyu
      · rcases hyu with rfl | hyu
        · exact Or.inr hux
        · exact Or.inr (hyu.trans hux)
    rcases hb.eq_or_before h hyx with rfl | hyx
    · exact h.acyclic y hxy
    · exact h.acyclic x (hxy.tail hyx)

/-- Epochs are ordered by the log. -/
theorem path_epochs (hb : HoldsLog b c) (h : c.Logged) :
    TransGen (Next b.nodes c) (epochOf x) (epochOf y) ↔ TransGen c.Before x y := by
  constructor
  · intro hpath
    rcases hb.path_cases h hpath with he | ⟨x', y', hx, hxy, hy⟩
    · exact .single (hb.before_of_earlier h he)
    · have hxy : TransGen c.Before x y' := by
        rcases hb.eq_or_before h hx with rfl | hx
        · exact hxy
        · exact .head hx hxy
      rcases hb.eq_or_before h hy with rfl | hy
      · exact hxy
      · exact hxy.tail hy
  · intro hpath
    refine TransGen.lift epochOf (fun x y hxy => ?_) _ _ hpath
    rcases hxy with ⟨hx, hy, htid, hlt⟩ | hxy
    · exact Or.inl (hb.earlier_epochs h hx hy htid hlt)
    · exact Or.inr ⟨x, y, hxy, rfl, rfl⟩

variable {es : List (EpochNode × EpochNode)} {it : IntervalTreeApi} {o : HBGBuilder.BuildOptions}
  {b' : HBGBuilder} {hbg : HBG}

/-- The filter keeps epochs. -/
theorem filterIfAsked (hb : HoldsLog b c) (h : b.filterIfAsked it o = .ok b') : HoldsLog b' c := by
  unfold HBGBuilder.filterIfAsked at h
  split_ifs at h
  · obtain ⟨p, hp, rfl⟩ := HBGBuilder.filterVolatileNodes_spec h
    refine ⟨hb.nodup.filter _, ?_, hb.edges⟩
    rw [← hb.epochs, List.filter_filter]
    refine List.filter_congr fun n _ => ?_
    cases n with
    | epoch e => simp [hp]
    | instruction n => simp [Node.itype, n.itype_ne_epoch]
  · cases h
    exact hb

/-- The edges that a build makes are steps. -/
theorem next_of_edge (hb : HoldsLog b c) (hes : ∀ e, e ∈ es ↔ e ∈ b.edges)
    (huv : HBGBuilder.Linked es u v ∨ ∃ pre post, threadOf v.tid b.nodes = pre ++ u :: v :: post) :
    Next b.nodes c u v := by
  rcases huv with ⟨e, he, rfl, rfl⟩ | ⟨pre, post, hl⟩
  · obtain ⟨x, hx, rfl⟩ := (hb.edges e).mp ((hes e).mp he)
    exact Or.inr ⟨x.1, x.2, hx, rfl, rfl⟩
  · exact Or.inl (earlier_of_consecutive hb.nodup hl)

theorem reaches_iff (hb : HoldsLog b c) (hes : ∀ e, e ∈ es ↔ e ∈ b.edges)
    (hnodes : hbg.nodes = b.nodes) (hedges : ∀ u v k, (u, v, k) ∈ hbg.graph.edges ↔
      k = .interThread ∧ HBGBuilder.Linked es u v ∨
      k = .intraThread ∧ ∃ pre post, threadOf v.tid hbg.nodes = pre ++ u :: v :: post) :
    hbg.graph.Reaches u v ↔ TransGen (Next b.nodes c) u v := by
  constructor
  · intro hr
    refine TransGen.mono (fun u v huv => ?_) _ _ hr
    obtain ⟨k, hk⟩ := huv
    refine hb.next_of_edge hes ?_
    rw [← hnodes]
    exact ((hedges u v k).mp hk).imp And.right And.right
  · intro hpath
    have hstep : ∀ u v, Next b.nodes c u v → hbg.graph.Reaches u v := by
      rintro u v (he | ⟨x, y, hxy, rfl, rfl⟩)
      · obtain ⟨pre, mid, post, hl⟩ := he.split
        refine reaches_of_consecutive (fun pre u w post hl => ?_) hl
        have hw := mem_threadOf.mp (show w ∈ threadOf v.tid b.nodes by rw [hl]; simp)
        refine ⟨_, (hedges u w .intraThread).mpr (Or.inr ⟨rfl, pre, post, ?_⟩)⟩
        rw [hnodes, hw.2, hl]
      · have he : (epochNode x, epochNode y) ∈ es :=
          (hes _).mpr ((hb.edges _).mpr ⟨(x, y), hxy, rfl⟩)
        exact .single ⟨_, (hedges _ _ .interThread).mpr (Or.inl ⟨rfl, _, he, rfl, rfl⟩)⟩
    induction hpath with
    | single h => exact hstep _ _ h
    | tail _ h ih => exact ih.trans (hstep _ _ h)

/-- The log is built into a graph whose paths are those of the log. -/
theorem exists_build (hb : HoldsLog b c) (h : c.Logged) (hes : ∀ e, e ∈ es ↔ e ∈ b.edges)
    (hfilter : b.filterIfAsked it o = .ok b') (hfits : HBGBuilder.FitsLines b'.nodes) :
    ∃ hbg, b.build it es o = .ok hbg ∧ hbg.nodes = b'.nodes ∧
      ∀ u v, hbg.graph.Reaches u v ↔ TransGen (Next b'.nodes c) u v := by
  have hb' := hb.filterIfAsked hfilter
  have hes' : ∀ e, e ∈ es ↔ e ∈ b'.edges := fun e => by rw [hes, hb.edges, hb'.edges]
  have htid : ∀ e ∈ es, e.1.tid ≠ e.2.tid := by
    intro e he
    obtain ⟨x, hx, rfl⟩ := (hb.edges e).mp ((hes e).mp he)
    exact (h.edge x.1 x.2 hx).2.2
  obtain ⟨g, hg⟩ := HBGBuilder.exists_addHappensBeforeEdges htid
    (b'.nodes.foldl ThreadTables.addNode .new).graph
  have hlists := ThreadTables.lists_addNodes b'.nodes
  have hacyclic : g.Acyclic := by
    intro v hv
    refine hb'.not_path_self h (TransGen.mono (fun u v huv => ?_) _ _ hv)
    obtain ⟨k, hk⟩ := huv
    refine hb'.next_of_edge hes' ?_
    rcases ((HBGBuilder.addHappensBeforeEdges_spec hg).2.2 u v k).mp hk with
      ⟨-, hlinked⟩ | ⟨hold, -⟩
    · exact Or.inl hlinked
    · exact Or.inr ((hlists.edge u v k).mp hold).2
  obtain ⟨hbg, hbuild, hnodes⟩ := HBGBuilder.build_ok hfilter hfits hg hacyclic
  exact ⟨hbg, hbuild, hnodes, fun u v => hb'.reaches_iff hes' hnodes
    (HBGBuilder.build_edges hbuild)⟩

end HoldsLog

end Prd.Runtime
