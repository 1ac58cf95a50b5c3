import Mathlib.Data.List.Induction
import Mathlib.Logic.Function.Basic
import Prd.Foundation.FirstMatch
import Prd.Pycprd.EagerDirtyVector

/-!
# Calls on a family of vectors of dirty cache lines

The calls are those of the detector. Epoch vectors are never made dirty, so their buffers stay
empty, and a child is updated right after its own cell was read, which has dumped the buffer of
the vector that updates it. Along such calls no assertion fails but the one on an interval of
not exactly one line, and what a caller sees is what the eager vectors show.
-/
namespace Prd.Pycprd

open Prd.Foundation

/-- A family of vectors of some of the threads `tids`, one kind of which belongs to epoch nodes. -/
structure DirtyFamily (ι : Type) where
  tids : List ThreadId
  owner : ι → ThreadId
  isEpoch : ι → Bool
  owner_mem : ∀ i, owner i ∈ tids

namespace DirtyFamily

variable {ι : Type}

inductive Call (ι : Type) where
  | setCachelineDirty (i : ι) (address size : ℕ)
  | getDirtyCachelines (i : ι) (tid : ThreadId)
  | vector (i : ι)
  | updateChild (i child : ι)
  | merge (i other : ι)

inductive Answer where
  | done
  | lines (l : List Cacheline)
  | cells (d : Dict ThreadId (List Cacheline))

/-- The answers are equal as sets and as dictionaries of sets. -/
def Answer.Same : Answer → Answer → Prop
  | done, done => True
  | lines l, lines l' => ∀ line, line ∈ l ↔ line ∈ l'
  | cells d, cells d' => DirtyCachelinesVector.SameCells d d'
  | _, _ => False

/-- Both calls return the same or raise the same. -/
def SameResult : Py Answer → Py Answer → Prop
  | .ok a, .ok a' => a.Same a'
  | .error e, .error e' => e = e'
  | _, _ => False

section Steps

variable [DecidableEq ι]

/-- The run goes on after a call that raises. What a failed update or merge would leave behind is
not modelled, as no call of the detector comes to it. -/
def step (s : ι → DirtyCachelinesVector) : Call ι → Py Answer × (ι → DirtyCachelinesVector)
  | .setCachelineDirty i address size =>
    match (s i).setCachelineDirty address size with
    | .ok dv => (.ok .done, Function.update s i dv)
    | .error e => (.error e, s)
  | .getDirtyCachelines i tid =>
    (((s i).getDirtyCachelines tid).map fun r => .lines r.1,
      Function.update s i (s i).clearPending)
  | .vector i =>
    (.ok (.cells (s i).clearPending.vector), Function.update s i (s i).clearPending)
  | .updateChild i child =>
    match (s i).updateChild (s child) with
    | .ok (dv, dc) => (.ok .done, Function.update (Function.update s i dv) child dc)
    | .error e => (.error e, s)
  | .merge i other =>
    match (s i).merge (s other) with
    | .ok dv => (.ok .done, Function.update s i dv)
    | .error e => (.error e, s)

def eagerStep (s : ι → EagerDirtyVector) : Call ι → Py Answer × (ι → EagerDirtyVector)
  | .setCachelineDirty i address size =>
    match (s i).setCachelineDirty address size with
    | .ok ev => (.ok .done, Function.update s i ev)
    | .error e => (.error e, s)
  | .getDirtyCachelines i tid => (((s i).getDirtyCachelines tid).map .lines, s)
  | .vector i => (.ok (.cells (s i).vector), s)
  | .updateChild i child =>
    match (s i).updateChild (s child) with
    | .ok (ev, ec) => (.ok .done, Function.update (Function.update s i ev) child ec)
    | .error e => (.error e, s)
  | .merge i other =>
    match (s i).merge (s other) with
    | .ok ev => (.ok .done, Function.update s i ev)
    | .error e => (.error e, s)

variable (F : DirtyFamily ι)

def run (calls : List (Call ι)) : ι → DirtyCachelinesVector :=
  calls.foldl (fun s call => (step s call).2) fun i => .new (F.owner i) F.tids

def eagerRun (calls : List (Call ι)) : ι → EagerDirtyVector :=
  calls.foldl (fun s call => (eagerStep s call).2) fun i => .new (F.owner i) F.tids

end Steps

variable (F : DirtyFamily ι)

/-- The detector makes the call after the call `prev`. -/
def Allowed (prev : Option (Call ι)) : Call ι → Prop
  | .setCachelineDirty i _ _ => F.isEpoch i = false
  | .getDirtyCachelines _ _ => True
  | .vector _ => True
  | .updateChild i child => F.isEpoch child = true ∧ F.owner child ≠ F.owner i ∧
      prev = some (.getDirtyCachelines i (F.owner child))
  | .merge i other => F.isEpoch other = true ∧ F.owner other = F.owner i

def Disciplined (calls : List (Call ι)) : Prop :=
  ∀ pre call post, calls = pre ++ call :: post → F.Allowed pre.getLast? call

/-- An assertion fails only in the division of an interval into lines. -/
def AssertionsHold (call : Call ι) (r : Py Answer) : Prop :=
  ∀ msg, r = .error (.assertionError msg) → ∃ i address size,
    call = .setCachelineDirty i address size ∧
      getCachelineAddresses address size defaultCachelineSize = .error (.assertionError msg)

/-- What holds between the two families after the call `prev`. -/
structure Mirrored (prev : Option (Call ι)) (s : ι → DirtyCachelinesVector)
    (e : ι → EagerDirtyVector) : Prop where
  mirrors : ∀ i, (s i).Mirrors (e i) (F.owner i) F.tids
  epoch : ∀ i, F.isEpoch i = true → (s i).pendingDirtyCachelines = []
  cleared : ∀ i tid, prev = some (.getDirtyCachelines i tid) → (s i).pendingDirtyCachelines = []

variable {F} {prev : Option (Call ι)} {s : ι → DirtyCachelinesVector} {e : ι → EagerDirtyVector}

theorem disciplined_append_singleton {calls : List (Call ι)} {call : Call ι} :
    F.Disciplined (calls ++ [call]) ↔ F.Disciplined calls ∧ F.Allowed calls.getLast? call :=
  forall_split_append_singleton (P := fun pre call => F.Allowed pre.getLast? call)

theorem Disciplined.append {calls : List (Call ι)} (h : F.Disciplined calls) {call : Call ι}
    (hcall : F.Allowed calls.getLast? call) : F.Disciplined (calls ++ [call]) :=
  disciplined_append_singleton.mpr ⟨h, hcall⟩

theorem disciplined_nil : F.Disciplined [] := by
  intro pre call post heq
  exact absurd heq (by simp)

theorem assertionsHold_ok (call : Call ι) (a : Answer) : AssertionsHold call (.ok a) :=
  fun _ h => by cases h

theorem assertionsHold_keyError (call : Call ι) : AssertionsHold call (.error .keyError) :=
  fun _ h => by cases h

theorem mirrored_new : F.Mirrored none (fun i => .new (F.owner i) F.tids)
    (fun i => .new (F.owner i) F.tids) where
  mirrors := fun i => DirtyCachelinesVector.mirrors_new (F.owner i) F.tids
  epoch := fun _ _ => rfl
  cleared := fun _ _ h => by cases h

variable [DecidableEq ι]

theorem mirrors_update (h : ∀ k, (s k).Mirrors (e k) (F.owner k) F.tids) (i : ι)
    {dv : DirtyCachelinesVector} {ev : EagerDirtyVector} (hi : dv.Mirrors ev (F.owner i) F.tids) :
    ∀ k, (Function.update s i dv k).Mirrors (Function.update e i ev k) (F.owner k) F.tids :=
  forall_update (R := fun k (a : DirtyCachelinesVector) b => a.Mirrors b (F.owner k) F.tids) h i hi

/-- Both steps of a call return the same, and the families mirror each other after it. -/
structure StepsAgree (F : DirtyFamily ι) (call : Call ι)
    (r : Py Answer × (ι → DirtyCachelinesVector)) (r' : Py Answer × (ι → EagerDirtyVector)) :
    Prop where
  same : SameResult r.1 r'.1
  assertions : AssertionsHold call r.1
  mirrored : F.Mirrored (some call) r.2 r'.2

theorem Mirrored.setCachelineDirty (h : F.Mirrored prev s e) {i : ι} (hi : F.isEpoch i = false)
    (address size : ℕ) :
    F.StepsAgree (.setCachelineDirty i address size) (step s (.setCachelineDirty i address size))
      (eagerStep e (.setCachelineDirty i address size)) := by
  cases hlines : getCachelineAddresses address size defaultCachelineSize with
  | error err =>
    have hs : (s i).setCachelineDirty address size = .error err := by
      unfold DirtyCachelinesVector.setCachelineDirty
      rw [hlines]
      rfl
    have he : (e i).setCachelineDirty address size = .error err := by
      unfold EagerDirtyVector.setCachelineDirty
      rw [hlines]
      rfl
    simp only [step, eagerStep, hs, he]
    refine ⟨rfl, ?_, h.mirrors, h.epoch, fun j t hj => by cases hj⟩
    intro msg hmsg
    exact ⟨i, address, size, rfl, by rw [hlines]; exact congrArg _ (Except.error.inj hmsg)⟩
  | ok lines =>
    have hs : (s i).setCachelineDirty address size = .ok { s i with
        pendingDirtyCachelines := (s i).pendingDirtyCachelines ∪ lines } := by
      unfold DirtyCachelinesVector.setCachelineDirty
      rw [hlines]
      rfl
    have he : (e i).setCachelineDirty address size =
        .ok { e i with vector := (e i).vector.mapVal (· ∪ lines) } := by
      unfold EagerDirtyVector.setCachelineDirty
      rw [hlines]
      rfl
    simp only [step, eagerStep, hs, he]
    refine ⟨trivial, assertionsHold_ok _ _,
      mirrors_update h.mirrors i ((h.mirrors i).addLines lines), ?_, fun j t hj => by cases hj⟩
    intro j hj
    have hji : j ≠ i := by
      intro hji
      rw [hji, hi] at hj
      cases hj
    dsimp only
    rw [Function.update_of_ne hji]
    exact h.epoch j hj

/-- A read of the property keeps the invariant and leaves an empty buffer. -/
theorem Mirrored.clearPending (h : F.Mirrored prev s e) (i : ι) {call : Call ι}
    (hcall : ∀ j t, call = .getDirtyCachelines j t → j = i) :
    F.Mirrored (some call) (Function.update s i (s i).clearPending) e where
  mirrors := forall_update_left
    (R := fun k (a : DirtyCachelinesVector) b => a.Mirrors b (F.owner k) F.tids) h.mirrors i
    (h.mirrors i).clearPending
  epoch := by
    intro j hj
    by_cases hji : j = i
    · rw [hji, Function.update_self]
      exact DirtyCachelinesVector.pending_clearPending (s i)
    · rw [Function.update_of_ne hji]
      exact h.epoch j hj
  cleared := by
    intro j t hj
    rw [hcall j t (Option.some.inj hj), Function.update_self]
    exact DirtyCachelinesVector.pending_clearPending (s i)

theorem Mirrored.vector (h : F.Mirrored prev s e) (i : ι) :
    F.StepsAgree (.vector i) (step s (.vector i)) (eagerStep e (.vector i)) where
  same := (h.mirrors i).sameCells
  assertions := assertionsHold_ok _ _
  mirrored := h.clearPending i fun _ _ hj => by cases hj

theorem Mirrored.getDirtyCachelines (h : F.Mirrored prev s e) (i : ι) (t : ThreadId) :
    F.StepsAgree (.getDirtyCachelines i t) (step s (.getDirtyCachelines i t))
      (eagerStep e (.getDirtyCachelines i t)) := by
  have hcells := (h.mirrors i).sameCells
  have hmirrored : F.Mirrored (some (.getDirtyCachelines i t))
      (Function.update s i (s i).clearPending) e := by
    refine h.clearPending i (fun j u hj => ?_)
    cases hj
    rfl
  by_cases ht : t ∈ (e i).vector
  · have hs : (s i).getDirtyCachelines t =
        .ok ((s i).clearPending.vector.getD t [], (s i).clearPending) := by
      unfold DirtyCachelinesVector.getDirtyCachelines
      simp only [pyGet_eq ((hcells.mem_iff t).mpr ht) []]
      rfl
    have he : (e i).getDirtyCachelines t = .ok ((e i).vector.getD t []) := pyGet_eq ht []
    simp only [step, eagerStep, hs, he]
    exact ⟨hcells.lines_iff t, assertionsHold_ok _ _, hmirrored⟩
  · have hs : (s i).getDirtyCachelines t = .error .keyError := by
      unfold DirtyCachelinesVector.getDirtyCachelines
      simp only [pyGet_of_notMem (mt (hcells.mem_iff t).mp ht)]
      rfl
    have he : (e i).getDirtyCachelines t = .error .keyError := pyGet_of_notMem ht
    simp only [step, eagerStep, hs, he]
    exact ⟨rfl, assertionsHold_keyError _, hmirrored⟩

theorem Mirrored.updateChild (h : F.Mirrored prev s e) {i child : ι}
    (ha : F.Allowed prev (.updateChild i child)) :
    F.StepsAgree (.updateChild i child) (step s (.updateChild i child))
      (eagerStep e (.updateChild i child)) := by
  obtain ⟨hepoch, hne, hprev⟩ := ha
  obtain ⟨dv, dc, ev, ec, hs, he, hdv, hdc, hp, hcp⟩ :=
    (h.mirrors i).updateChild (h.mirrors child) (Ne.symm hne) (F.owner_mem i) (F.owner_mem child)
      (h.cleared i _ hprev) (h.epoch child hepoch)
  simp only [step, eagerStep, hs, he]
  refine ⟨trivial, assertionsHold_ok _ _, mirrors_update (mirrors_update h.mirrors i hdv) child hdc,
    ?_, fun j t hj => by cases hj⟩
  intro j hj
  show (Function.update (Function.update s i dv) child dc j).pendingDirtyCachelines = []
  rw [Function.update_apply, Function.update_apply]
  split_ifs
  · exact hcp
  · exact hp
  · exact h.epoch j hj

theorem Mirrored.merge (h : F.Mirrored prev s e) {i other : ι}
    (ha : F.Allowed prev (.merge i other)) :
    F.StepsAgree (.merge i other) (step s (.merge i other)) (eagerStep e (.merge i other)) := by
  obtain ⟨hepoch, howner⟩ := ha
  have hother := h.mirrors other
  rw [howner] at hother
  obtain ⟨dv, ev, hs, he, hdv, hp⟩ := (h.mirrors i).merge hother (h.epoch other hepoch)
  simp only [step, eagerStep, hs, he]
  refine ⟨trivial, assertionsHold_ok _ _, mirrors_update h.mirrors i hdv, ?_,
    fun j t hj => by cases hj⟩
  intro j hj
  by_cases hji : j = i
  · rw [hji] at hj ⊢
    show (Function.update s i dv i).pendingDirtyCachelines = []
    rw [Function.update_self, hp]
    exact h.epoch i hj
  · show (Function.update s i dv j).pendingDirtyCachelines = []
    rw [Function.update_of_ne hji]
    exact h.epoch j hj

theorem Mirrored.step (h : F.Mirrored prev s e) {call : Call ι} (ha : F.Allowed prev call) :
    F.StepsAgree call (step s call) (eagerStep e call) := by
  cases call with
  | setCachelineDirty i address size => exact h.setCachelineDirty ha address size
  | getDirtyCachelines i t => exact h.getDirtyCachelines i t
  | vector i => exact h.vector i
  | updateChild i child => exact h.updateChild ha
  | merge i other => exact h.merge ha

theorem Disciplined.mirrored {calls : List (Call ι)} (h : F.Disciplined calls) :
    F.Mirrored calls.getLast? (F.run calls) (F.eagerRun calls) := by
  induction calls using List.reverseRecOn with
  | nil => exact mirrored_new
  | append_singleton calls call ih =>
    obtain ⟨hcalls, hcall⟩ := disciplined_append_singleton.mp h
    have hstep := (ih hcalls).step hcall
    unfold run eagerRun at hstep ⊢
    rw [List.foldl_append, List.foldl_append, List.getLast?_concat]
    exact hstep.mirrored

/-- Along the calls of the detector every call returns what the eager vectors return, no assertion
fails but the one on intervals, and all vectors show the eager cells at any time. -/
theorem eager_run (F : DirtyFamily ι) (calls : List (Call ι)) (h : F.Disciplined calls) :
    (∀ pre call post, calls = pre ++ call :: post →
      SameResult (DirtyFamily.step (F.run pre) call).1 (eagerStep (F.eagerRun pre) call).1 ∧
        AssertionsHold call (DirtyFamily.step (F.run pre) call).1) ∧
      ∀ pre post, calls = pre ++ post → ∀ i, DirtyCachelinesVector.SameCells
        (F.run pre i).clearPending.vector (F.eagerRun pre i).vector := by
  have hpre : ∀ pre post, calls = pre ++ post → F.Disciplined pre := by
    intro pre post heq pre' call post' heq'
    exact h pre' call (post' ++ post) (by rw [heq, heq']; simp)
  refine ⟨?_, ?_⟩
  · intro pre call post heq
    have hstep := (hpre pre _ heq).mirrored.step (h pre call post heq)
    exact ⟨hstep.same, hstep.assertions⟩
  · intro pre post heq i
    exact ((hpre pre post heq).mirrored.mirrors i).sameCells

/-- Two threads, the vector of each and one of an epoch node of the second thread. -/
def twoThreads : DirtyFamily (Fin 3) where
  tids := [0, 1]
  owner := fun i => if i = 0 then 0 else 1
  isEpoch := fun i => i = 2
  owner_mem := by decide

/-- A line of the first thread goes over an epoch node to the second one, which merges it. -/
theorem eager_run_twoThreads :
    SameResult
      (DirtyFamily.step (twoThreads.run [.setCachelineDirty 0 64 8, .getDirtyCachelines 0 1,
        .updateChild 0 2, .merge 1 2]) (.getDirtyCachelines 1 0)).1
      (eagerStep (twoThreads.eagerRun [.setCachelineDirty 0 64 8, .getDirtyCachelines 0 1,
        .updateChild 0 2, .merge 1 2]) (.getDirtyCachelines 1 0)).1 := by
  have hset : twoThreads.Disciplined [.setCachelineDirty 0 64 8] := disciplined_nil.append rfl
  have hget : twoThreads.Disciplined [.setCachelineDirty 0 64 8, .getDirtyCachelines 0 1] :=
    hset.append trivial
  have hupdate : twoThreads.Disciplined [.setCachelineDirty 0 64 8, .getDirtyCachelines 0 1,
      .updateChild 0 2] := hget.append ⟨rfl, by decide, rfl⟩
  have hmerge : twoThreads.Disciplined [.setCachelineDirty 0 64 8, .getDirtyCachelines 0 1,
      .updateChild 0 2, .merge 1 2] := hupdate.append ⟨rfl, rfl⟩
  have hall : twoThreads.Disciplined [.setCachelineDirty 0 64 8, .getDirtyCachelines 0 1,
      .updateChild 0 2, .merge 1 2, .getDirtyCachelines 1 0] := hmerge.append trivial
  exact ((eager_run twoThreads _ hall).1 _ _ [] rfl).1

/-- An interval that begins near the end of a line is refused by an assertion. -/
theorem not_assertions_twoLines :
    twoThreads.Disciplined [.setCachelineDirty 0 60 16] ∧
      (DirtyFamily.step (twoThreads.run []) (.setCachelineDirty 0 60 16)).1 =
        .error (.assertionError "got more than 1 cacheline (2)") := by
  have hset : twoThreads.Disciplined [.setCachelineDirty 0 60 16] := disciplined_nil.append rfl
  exact ⟨hset, rfl⟩

end DirtyFamily

end Prd.Pycprd
