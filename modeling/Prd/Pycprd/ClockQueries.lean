import Prd.Pycprd.PersistedClocks

/-!
# Queries of clocks

A query may leave a default entry, which the comparisons do not see. It is seen by
`get_epoch` of the reversed class, which compares with an epoch of the other class, by the
assertion on the two key sets, and by a copy that overwrites with it. An epoch object that was
added as it is cannot be read as a number. Apart from these cases the queries are pure.
-/
namespace Prd.Pycprd.Objects

open Prd.Foundation

variable {c : EpochClass}

/-- The number that an epoch was made from. -/
def EpochObject.number? (o : EpochObject c) : Option ℤ :=
  match o.epoch with
  | .int n => some n
  | _ => none

/-- The object was made from a number or from nothing. -/
def EpochObject.IsPlain (o : EpochObject c) : Prop := o.epoch = .none ∨ ∃ n, o.epoch = .int n

theorem EpochObject.value_of_epoch_eq {o : EpochObject c} {e : AnyEpoch} {v : EpochValue c}
    (h : o.epoch = e) (hv : epochValue c e = .ok v) : o.value = v := by
  have heq := o.value_eq
  rw [h, hv] at heq
  exact (Except.ok.inj heq).symm

theorem EpochObject.isEqual_noEpoch (o : EpochObject .epoch) :
    o.isEqual (.object .epoch .none) = .ok (decide (o.value = ⊥)) := rfl

/-- The class compares with the epoch without raising. -/
def Comparable (c : EpochClass) (e : AnyEpoch) : Prop := ∃ v, epochValue c e = .ok v

theorem Comparable.exists_ofAny {e : AnyEpoch} (h : Comparable c e) :
    ∃ o, EpochObject.ofAny c e = .ok o := by
  obtain ⟨v, hv⟩ := h
  obtain ⟨o, ho, -⟩ := EpochObject.exists_ofAny hv
  exact ⟨o, ho⟩

namespace AbstractVectorClock

/-- The component of the thread can be read as a number. -/
def Readable (vc : AbstractVectorClock c) (t : ThreadId) : Prop :=
  t ∉ vc.threads ∨ c = .epoch ∧ (vc.component t).IsPlain

/-- The one clock has the components of the other one, and possibly more default entries. -/
structure Covers (a b : AbstractVectorClock c) : Prop where
  tid : a.tid = b.tid
  threads : ∀ t, t ∈ b.threads → t ∈ a.threads
  component : ∀ t, a.component t = b.component t

variable {a b a' b' : AbstractVectorClock c}

theorem Covers.refl (a : AbstractVectorClock c) : a.Covers a := ⟨rfl, fun _ h => h, fun _ => rfl⟩

theorem Covers.valueAt (h : a.Covers b) (t : ThreadId) : a.valueAt t = b.valueAt t :=
  congrArg EpochObject.value (h.component t)

theorem Covers.touch (h : a.Covers b) (t : ThreadId) : (a.touch t).Covers b where
  tid := h.tid
  threads := fun s hs => (mem_threads_touch a t s).mpr (Or.inl (h.threads s hs))
  component := fun s => (component_touch a t s).trans (h.component s)

theorem Covers.touch_touch (h : a.Covers b) (t : ThreadId) : (a.touch t).Covers (b.touch t) where
  tid := h.tid
  threads := by
    intro s hs
    rw [mem_threads_touch] at hs ⊢
    exact hs.imp (h.threads s) id
  component := by
    intro s
    rw [component_touch, component_touch, h.component]

theorem Covers.setEpoch (h : a.Covers b) (t : ThreadId) (o : EpochObject c) :
    (a.setEpoch t o).Covers (b.setEpoch t o) where
  tid := h.tid
  threads := by
    intro s hs
    rw [mem_threads_setEpoch] at hs ⊢
    exact hs.imp (h.threads s) id
  component := by
    intro s
    rw [component_setEpoch, component_setEpoch, h.component]

theorem Covers.addEpoch (h : a.Covers b) (e : AnyEpoch) :
    (a.addEpoch e).2.Covers (b.addEpoch e).2 := by
  unfold AbstractVectorClock.addEpoch
  rw [h.tid, h.component]
  cases EpochObject.ofAny c e with
  | error err => exact h.touch_touch b.tid
  | ok o =>
    dsimp only
    split_ifs
    · exact (h.touch_touch b.tid).setEpoch b.tid o
    · exact h.touch_touch b.tid

theorem Covers.merge (h : a.Covers b) (h' : a'.Covers b') : (a.merge a').Covers (b.merge b') where
  tid := by rw [tid_merge, tid_merge, h.tid]
  threads := by
    intro s hs
    rw [mem_threads_merge] at hs ⊢
    exact hs.imp (h.threads s) (h'.threads s)
  component := by
    intro s
    rw [component_merge, component_merge, h.valueAt, h'.valueAt, h.component, h'.component]

/-- No entry that is only left by queries stands where the copy would overwrite an epoch. -/
def CopyFine (a a' b' : AbstractVectorClock c) : Prop :=
  ∀ t, t ∈ a'.threads → t ∉ b'.threads → a.component t = .empty

theorem Covers.copyFrom (h : a.Covers b) (h' : a'.Covers b') (hfine : CopyFine a a' b') :
    (a.copyFrom a').Covers (b.copyFrom b') where
  tid := by rw [tid_copyFrom, tid_copyFrom, h.tid]
  threads := by
    intro s hs
    rw [mem_threads_copyFrom] at hs ⊢
    exact hs.imp (h.threads s) (h'.threads s)
  component := by
    intro s
    rw [component_copyFrom, component_copyFrom, h'.component, ← h.component]
    by_cases hb : s ∈ b'.threads
    · rw [if_pos hb, if_pos (h'.threads s hb)]
    · rw [if_neg hb, component_of_notMem hb]
      by_cases ha : s ∈ a'.threads
      · rw [if_pos ha, hfine s ha hb]
      · rw [if_neg ha]

/-- What comparisons return, which is alike for both clocks. -/
theorem Covers.hasReached (h : a.Covers b) {e : AnyEpoch} (he : Comparable c e) (t : ThreadId) :
    ∃ x, (a.hasReached t e).1 = .ok x ∧ (b.hasReached t e).1 = .ok x := by
  obtain ⟨o, ho⟩ := he.exists_ofAny
  refine ⟨decide (o.value ≤ (a.component t).value), ?_, ?_⟩
  · unfold AbstractVectorClock.hasReached
    rw [ho]
    rfl
  · unfold AbstractVectorClock.hasReached
    rw [ho, h.component]
    rfl

/-- A component that was made from a number is read as that number. -/
theorem getEpoch_of_isPlain {vc : AbstractVectorClock .epoch} {t : ThreadId}
    (h : (vc.component t).IsPlain) : vc.getEpoch t = .ok (vc.component t).number? := by
  unfold getEpoch
  by_cases ht : t ∈ vc.threads
  · have hlookup : vc.epochs.lookup t = some (vc.component t) := OrderedDict.lookup_of_mem ht _
    rw [hlookup]
    dsimp only
    rw [EpochObject.isEqual_noEpoch, ok_bind]
    rcases h with hnone | ⟨n, hn⟩
    · have hv : (vc.component t).value = ⊥ := EpochObject.value_of_epoch_eq hnone rfl
      simp [hv, EpochObject.number?, hnone]
    · have hv : (vc.component t).value ≠ ⊥ := by
        rw [EpochObject.value_of_epoch_eq hn rfl]
        exact EpochValue.ofInt_ne_bot .epoch n
      simp [hv, EpochObject.toInt, EpochObject.number?, hn]
  · rw [OrderedDict.lookup_of_notMem ht, component_of_notMem ht]
    rfl

theorem Readable.getEpoch {vc : AbstractVectorClock c} {t : ThreadId} (h : vc.Readable t) :
    vc.getEpoch t = .ok (vc.component t).number? := by
  rcases h with ht | ⟨rfl, h⟩
  · unfold AbstractVectorClock.getEpoch
    rw [OrderedDict.lookup_of_notMem ht, component_of_notMem ht]
    rfl
  · exact getEpoch_of_isPlain h

theorem Covers.readable (h : a.Covers b) {t : ThreadId} (ha : a.Readable t) : b.Readable t := by
  rcases ha with ht | ⟨hc, hplain⟩
  · exact Or.inl (mt (h.threads t) ht)
  · exact Or.inr ⟨hc, by rwa [← h.component]⟩

/-- The condition on a call, before which the family is `s`, and `s'` without the queries. -/
def Call.Fine {ι : Type} (s s' : ι → AbstractVectorClock c) : Call ι → Prop
  | addEpoch _ _ | merge _ _ => True
  | copyFrom i j => CopyFine (s i) (s j) (s' j)
  | getEpoch i t => (s i).Readable t
  | hasReached _ _ e => Comparable c e

theorem erasesQueries (ι : Type) [DecidableEq ι] (c : EpochClass) :
    ErasesQueries (Call.step (ι := ι) (c := c)) Call.isQuery Call.Fine
      (fun s s' => ∀ k, (s k).Covers (s' k)) where
  mutator := by
    intro s s' call h hq hfine
    cases call with
    | addEpoch i e => exact forall_update h i ((h i).addEpoch e)
    | merge i j => exact forall_update h i ((h i).merge (h j))
    | copyFrom i j => exact forall_update h i ((h i).copyFrom (h j) hfine)
    | getEpoch i t => cases hq
    | hasReached i t e => cases hq
  query := by
    intro s s' call h hq hfine
    cases call with
    | addEpoch i e => cases hq
    | merge i j => cases hq
    | copyFrom i j => cases hq
    | getEpoch i t => exact h
    | hasReached i t e => exact forall_update_left h i ((h i).touch t)
  answer := by
    intro s s' call h hq hfine
    cases call with
    | addEpoch i e => cases hq
    | merge i j => cases hq
    | copyFrom i j => cases hq
    | getEpoch i t =>
      have hs : (s i).Readable t := hfine
      have hs' := ((h i).readable hs).getEpoch
      rw [← (h i).component] at hs'
      exact ⟨.epoch ((s i).component t).number?,
        congrArg (Except.map Answer.epoch) hs.getEpoch, congrArg (Except.map Answer.epoch) hs'⟩
    | hasReached i t e =>
      obtain ⟨x, hx, hx'⟩ := (h i).hasReached hfine t
      exact ⟨.bool x, congrArg (Except.map Answer.bool) hx, congrArg (Except.map Answer.bool) hx'⟩

/-- A component that compares as no epoch is the default object. -/
def Strict (vc : AbstractVectorClock c) : Prop :=
  ∀ t, vc.valueAt t = ⊥ → vc.component t = .empty

theorem strict_new (t : ThreadId) : (new t : AbstractVectorClock c).Strict :=
  fun s _ => component_new t s

theorem Strict.touch (h : a.Strict) (t : ThreadId) : (a.touch t).Strict := by
  intro s hs
  unfold valueAt at hs
  rw [component_touch] at hs ⊢
  exact h s hs

theorem Strict.addEpoch {vc : AbstractVectorClock c} (h : vc.Strict) (e : AnyEpoch) :
    (vc.addEpoch e).2.Strict := by
  intro s hs
  obtain ⟨o, -, hlt, heq⟩ | ⟨err, heq⟩ := vc.addEpoch_cases e
  · rw [heq] at hs ⊢
    unfold valueAt at hs
    rw [component_setEpoch, component_touch] at hs ⊢
    split_ifs at hs ⊢
    · rw [hs] at hlt
      exact absurd hlt not_lt_bot
    · exact h s hs
  · rw [heq] at hs ⊢
    exact h.touch vc.tid s hs

theorem Strict.merge (h : a.Strict) (a' : AbstractVectorClock c) : (a.merge a').Strict := by
  intro s hs
  rw [valueAt_merge, max_eq_bot] at hs
  rw [component_merge, hs.1, hs.2, if_neg (lt_irrefl _), h s hs.1]

theorem Strict.copyFrom (h : a.Strict) (h' : a'.Strict) : (a.copyFrom a').Strict := by
  intro s hs
  unfold valueAt at hs
  rw [component_copyFrom] at hs ⊢
  split_ifs at hs ⊢
  · exact h' s hs
  · exact h s hs

end AbstractVectorClock

namespace PersistencyVectorClock

/-- Every thread with an entry in `_last_persisted` has one in `_last_seen`. -/
def KeysSeen (pvc : PersistencyVectorClock) : Prop :=
  ∀ t, t ∈ pvc.lastPersisted.threads → t ∈ pvc.lastSeen.threads

/-- Both clocks have the same number for the thread. -/
def Agrees (pvc : PersistencyVectorClock) (t : ThreadId) : Prop :=
  (pvc.lastPersisted.component t).number? = (pvc.lastSeen.component t).number?

instance (pvc : PersistencyVectorClock) (t : ThreadId) : Decidable (pvc.Agrees t) :=
  inferInstanceAs (Decidable (_ = _))

/-- Up to the first thread of the list on which the clocks differ, epochs can be read. -/
def LoopReads (pvc : PersistencyVectorClock) (ts : List ThreadId) : Prop :=
  ∀ pre t post, ts = pre ++ t :: post → (∀ u ∈ pre, pvc.Agrees u) →
    (pvc.lastPersisted.component t).IsPlain ∧ (pvc.lastSeen.component t).IsPlain

theorem loopReads_of_forall {pvc : PersistencyVectorClock} {ts : List ThreadId}
    (h : ∀ t ∈ ts, (pvc.lastPersisted.component t).IsPlain ∧ (pvc.lastSeen.component t).IsPlain) :
    pvc.LoopReads ts := by
  intro pre t post heq _
  exact h t (by rw [heq]; simp)

theorem LoopReads.tail {pvc : PersistencyVectorClock} {t : ThreadId} {ts : List ThreadId}
    (h : pvc.LoopReads (t :: ts)) (ht : pvc.Agrees t) : pvc.LoopReads ts := by
  intro pre u post heq hpre
  refine h (t :: pre) u post (by rw [heq]; rfl) ?_
  rw [List.forall_mem_cons]
  exact ⟨ht, hpre⟩

theorem isPersistedFrom_eq {pvc : PersistencyVectorClock} {ts : List ThreadId}
    (h : pvc.LoopReads ts) : pvc.isPersistedFrom ts = .ok (decide (∀ t ∈ ts, pvc.Agrees t)) := by
  induction ts with
  | nil => rfl
  | cons t ts ih =>
    obtain ⟨hp, hs⟩ := h [] t ts rfl (fun u hu => absurd hu List.not_mem_nil)
    rw [isPersistedFrom, AbstractVectorClock.getEpoch_of_isPlain hp, ok_bind,
      AbstractVectorClock.getEpoch_of_isPlain hs, ok_bind]
    by_cases ht : pvc.Agrees t
    · have hne : ¬ (pvc.lastPersisted.component t).number? ≠ (pvc.lastSeen.component t).number? :=
        not_not.mpr ht
      rw [if_neg hne, ih (h.tail ht)]
      simp [ht]
    · have hne : (pvc.lastPersisted.component t).number? ≠ (pvc.lastSeen.component t).number? := ht
      rw [if_pos hne]
      simp [ht]

theorem isPersisted_eq {pvc : PersistencyVectorClock} (hkeys : pvc.KeysSeen)
    (h : pvc.LoopReads pvc.lastSeen.threads) :
    pvc.isPersisted = .ok (decide (∀ t ∈ pvc.lastSeen.threads, pvc.Agrees t)) := by
  have hassert : ∀ t ∈ pvc.lastPersisted.threads, t ∈ pvc.lastSeen.threads := hkeys
  unfold isPersisted threads
  rw [pyAssert_bind (decide_eq_true hassert)]
  exact isPersistedFrom_eq h

/-- The clocks `p` differ from the clocks `q` of the run without queries in default entries. -/
structure Covers (p q : PersistencyVectorClock) : Prop where
  seen : p.lastSeen.Covers q.lastSeen
  persisted : p.lastPersisted.Covers q.lastPersisted
  keysSeen : q.KeysSeen
  persistedSeen : p.PersistedSeen
  strictSeen : p.lastSeen.Strict
  strictPersisted : p.lastPersisted.Strict

variable {p q p' q' : PersistencyVectorClock}

theorem covers_new (t : ThreadId) : (new t).Covers (new t) where
  seen := .refl _
  persisted := .refl _
  keysSeen := fun _ h => h
  persistedSeen := persistedSeen_new t
  strictSeen := AbstractVectorClock.strict_new t
  strictPersisted := AbstractVectorClock.strict_new t

theorem Covers.addEpoch (h : p.Covers q) (e : AnyEpoch) :
    (p.addEpoch e).2.Covers (q.addEpoch e).2 where
  seen := h.seen.addEpoch e
  persisted := h.persisted
  keysSeen := fun t ht =>
    (AbstractVectorClock.mem_threads_addEpoch q.lastSeen e t).mpr (Or.inl (h.keysSeen t ht))
  persistedSeen := h.persistedSeen.addEpoch e
  strictSeen := h.strictSeen.addEpoch e
  strictPersisted := h.strictPersisted

theorem Covers.merge (h : p.Covers q) (h' : p'.Covers q') : (p.merge p').Covers (q.merge q') where
  seen := h.seen.merge h'.seen
  persisted := h.persisted.merge h'.persisted
  keysSeen := by
    intro t ht
    refine (AbstractVectorClock.mem_threads_merge q.lastSeen q'.lastSeen t).mpr ?_
    exact ((AbstractVectorClock.mem_threads_merge _ _ t).mp ht).imp (h.keysSeen t) (h'.keysSeen t)
  persistedSeen := h.persistedSeen.merge h'.persistedSeen
  strictSeen := h.strictSeen.merge p'.lastSeen
  strictPersisted := h.strictPersisted.merge p'.lastPersisted

/-- Where only queries left an entry nothing was seen, so nothing was persisted there. -/
theorem Covers.flush (h : p.Covers q) : p.flush.Covers q.flush where
  seen := h.seen
  persisted := by
    refine h.persisted.copyFrom h.seen (fun t _ ht => h.strictPersisted t ?_)
    have hseen : p.lastSeen.valueAt t = ⊥ := by
      rw [h.seen.valueAt, AbstractVectorClock.valueAt_of_notMem ht]
    exact le_bot_iff.mp (hseen ▸ h.persistedSeen t)
  keysSeen := by
    intro t ht
    exact ((AbstractVectorClock.mem_threads_copyFrom _ _ t).mp ht).elim (h.keysSeen t) id
  persistedSeen := h.persistedSeen.flush
  strictSeen := h.strictSeen
  strictPersisted := h.strictPersisted.copyFrom h.strictSeen

theorem Covers.agrees (h : p.Covers q) (t : ThreadId) : p.Agrees t ↔ q.Agrees t := by
  unfold Agrees
  rw [h.persisted.component, h.seen.component]

/-- The threads that only queries brought in have an epoch in neither clock. -/
theorem Covers.forall_agrees (h : p.Covers q) :
    (∀ t ∈ p.lastSeen.threads, p.Agrees t) ↔ ∀ t ∈ q.lastSeen.threads, q.Agrees t := by
  constructor
  · intro hp t ht
    exact (h.agrees t).mp (hp t (h.seen.threads t ht))
  · intro hq t _
    rw [h.agrees]
    by_cases ht : t ∈ q.lastSeen.threads
    · exact hq t ht
    · unfold Agrees
      rw [AbstractVectorClock.component_of_notMem ht,
        AbstractVectorClock.component_of_notMem (mt (h.keysSeen t) ht)]

theorem Covers.isEventHappenedBefore (h : p.Covers q) (t : ThreadId) (e : AnyEpoch) :
    (p.isEventHappenedBefore t e).2.Covers q where
  seen := h.seen.touch t
  persisted := h.persisted
  keysSeen := h.keysSeen
  persistedSeen := h.persistedSeen.isEventHappenedBefore t e
  strictSeen := h.strictSeen.touch t
  strictPersisted := h.strictPersisted

theorem Covers.isEventPersisted (h : p.Covers q) (t : ThreadId) (e : AnyEpoch) :
    (p.isEventPersisted t e).2.Covers q where
  seen := h.seen
  persisted := h.persisted.touch t
  keysSeen := h.keysSeen
  persistedSeen := h.persistedSeen.isEventPersisted t e
  strictSeen := h.strictSeen
  strictPersisted := h.strictPersisted.touch t

/-- The condition on a call, before which the family is `s`, and `s'` without the queries. -/
def Call.Fine {ι : Type} (s s' : ι → PersistencyVectorClock) : Call ι → Prop
  | addEpoch _ _ | flush _ | merge _ _ => True
  | isEventHappenedBefore _ _ e | isEventPersisted _ _ e => Comparable .epoch e
  | getPersistedEpoch i t => (s i).lastPersisted.Readable t
  | isPersisted i => (s i).KeysSeen ∧ (s i).LoopReads (s i).lastSeen.threads ∧
      (s' i).LoopReads (s' i).lastSeen.threads

theorem erasesQueries (ι : Type) [DecidableEq ι] :
    ErasesQueries (Call.step (ι := ι)) Call.isQuery Call.Fine
      (fun s s' => ∀ k, (s k).Covers (s' k)) where
  mutator := by
    intro s s' call h hq hfine
    cases call with
    | addEpoch i e => exact forall_update h i ((h i).addEpoch e)
    | flush i => exact forall_update h i (h i).flush
    | merge i j => exact forall_update h i ((h i).merge (h j))
    | isEventHappenedBefore i t e => cases hq
    | getPersistedEpoch i t => cases hq
    | isEventPersisted i t e => cases hq
    | isPersisted i => cases hq
  query := by
    intro s s' call h hq hfine
    cases call with
    | addEpoch i e => cases hq
    | flush i => cases hq
    | merge i j => cases hq
    | isEventHappenedBefore i t e =>
      exact forall_update_left h i ((h i).isEventHappenedBefore t e)
    | getPersistedEpoch i t => exact h
    | isEventPersisted i t e => exact forall_update_left h i ((h i).isEventPersisted t e)
    | isPersisted i => exact h
  answer := by
    intro s s' call h hq hfine
    cases call with
    | addEpoch i e => cases hq
    | flush i => cases hq
    | merge i j => cases hq
    | isEventHappenedBefore i t e =>
      obtain ⟨x, hx, hx'⟩ := (h i).seen.hasReached hfine t
      exact ⟨.bool x, congrArg (Except.map Answer.bool) hx, congrArg (Except.map Answer.bool) hx'⟩
    | getPersistedEpoch i t =>
      have hs : (s i).lastPersisted.Readable t := hfine
      have hs' := ((h i).persisted.readable hs).getEpoch
      rw [← (h i).persisted.component] at hs'
      exact ⟨.epoch ((s i).lastPersisted.component t).number?,
        congrArg (Except.map Answer.epoch) hs.getEpoch, congrArg (Except.map Answer.epoch) hs'⟩
    | isEventPersisted i t e =>
      obtain ⟨x, hx, hx'⟩ := (h i).persisted.hasReached hfine t
      exact ⟨.bool x, congrArg (Except.map Answer.bool) hx, congrArg (Except.map Answer.bool) hx'⟩
    | isPersisted i =>
      obtain ⟨hkeys, hloop, hloop'⟩ := hfine
      have hs := isPersisted_eq hkeys hloop
      have hs' := isPersisted_eq (h i).keysSeen hloop'
      rw [← decide_eq_decide.mpr (h i).forall_agrees] at hs'
      exact ⟨.bool _, congrArg (Except.map Answer.bool) hs, congrArg (Except.map Answer.bool) hs'⟩

end PersistencyVectorClock

section Families

variable {ι κ π : Type}

def Call.Fine (s s' : Clocks ι κ π) : Call ι κ π → Prop
  | vector call => call.Fine s.vector s'.vector
  | reversed call => call.Fine s.reversed s'.reversed
  | persistency call => call.Fine s.persistency s'.persistency

/-- The clocks differ from those of the run without queries in default entries. -/
structure Clocks.Covers (s s' : Clocks ι κ π) : Prop where
  vector : ∀ k, (s.vector k).Covers (s'.vector k)
  reversed : ∀ k, (s.reversed k).Covers (s'.reversed k)
  persistency : ∀ k, (s.persistency k).Covers (s'.persistency k)

theorem Clocks.covers_new (tids : ι → ThreadId) (reversedTids : κ → ThreadId)
    (persistencyTids : π → ThreadId) :
    (new tids reversedTids persistencyTids).Covers (new tids reversedTids persistencyTids) where
  vector := fun _ => .refl _
  reversed := fun _ => .refl _
  persistency := fun k => PersistencyVectorClock.covers_new (persistencyTids k)

variable [DecidableEq ι] [DecidableEq κ] [DecidableEq π]

theorem erasesQueries_clocks :
    ErasesQueries (Call.step (ι := ι) (κ := κ) (π := π)) Call.isQuery Call.Fine Clocks.Covers where
  mutator := by
    intro s s' call h hq hfine
    cases call with
    | vector call =>
      exact { h with vector := (AbstractVectorClock.erasesQueries ι _).mutator h.vector hq hfine }
    | reversed call =>
      exact { h with
        reversed := (AbstractVectorClock.erasesQueries κ _).mutator h.reversed hq hfine }
    | persistency call =>
      exact { h with
        persistency := (PersistencyVectorClock.erasesQueries π).mutator h.persistency hq hfine }
  query := by
    intro s s' call h hq hfine
    cases call with
    | vector call =>
      exact { h with vector := (AbstractVectorClock.erasesQueries ι _).query h.vector hq hfine }
    | reversed call =>
      exact { h with reversed := (AbstractVectorClock.erasesQueries κ _).query h.reversed hq hfine }
    | persistency call =>
      exact { h with
        persistency := (PersistencyVectorClock.erasesQueries π).query h.persistency hq hfine }
  answer := by
    intro s s' call h hq hfine
    cases call with
    | vector call => exact (AbstractVectorClock.erasesQueries ι _).answer h.vector hq hfine
    | reversed call => exact (AbstractVectorClock.erasesQueries κ _).answer h.reversed hq hfine
    | persistency call =>
      exact (PersistencyVectorClock.erasesQueries π).answer h.persistency hq hfine

/-- In a run whose calls are all fine, no query raises, and each returns what it returns after the
mutators alone. -/
theorem pureQueries_of_allFine (tids : ι → ThreadId) (reversedTids : κ → ThreadId)
    (persistencyTids : π → ThreadId) (calls : List (Call ι κ π))
    (h : AllFine Call.step Call.isQuery Call.Fine (.new tids reversedTids persistencyTids)
      (.new tids reversedTids persistencyTids) calls) :
    PureQueries Call.step Call.isQuery (.new tids reversedTids persistencyTids)
      (.new tids reversedTids persistencyTids) calls :=
  erasesQueries_clocks.pureQueries (Clocks.covers_new tids reversedTids persistencyTids) h

/-- Two threads, with a copy between their clocks and a flush. -/
theorem pureQueries_twoThreads :
    PureQueries (Call.step (ι := Fin 2) (κ := Unit) (π := Unit)) Call.isQuery
      (.new Fin.val (fun _ => 0) (fun _ => 0)) (.new Fin.val (fun _ => 0) (fun _ => 0))
      [.vector (.addEpoch 0 (.int 5)), .vector (.hasReached 1 0 (.int 3)),
        .vector (.copyFrom 1 0), .vector (.getEpoch 1 0), .reversed (.addEpoch () (.int 7)),
        .reversed (.hasReached () 1 (.int 2)), .reversed (.getEpoch () 2),
        .persistency (.addEpoch () (.int 1)), .persistency (.flush ()),
        .persistency (.isPersisted ())] := by
  have hkeys : ∀ t ∈ [0], t ∈ [0] := fun t ht => ht
  refine pureQueries_of_allFine Fin.val (fun _ => 0) (fun _ => 0) _
    (.cons trivial (.cons ⟨_, rfl⟩ (.cons (fun t ht hn => absurd ht hn)
      (.cons (Or.inr ⟨rfl, Or.inr ⟨5, rfl⟩⟩) (.cons trivial (.cons ⟨_, rfl⟩
        (.cons (Or.inl (by decide)) (.cons trivial (.cons trivial (.cons ⟨hkeys, ?_, ?_⟩
          (.nil _ _)))))))))))
  · refine PersistencyVectorClock.loopReads_of_forall ?_
    intro t ht
    obtain rfl : t = 0 := List.mem_singleton.mp ht
    exact ⟨Or.inr ⟨1, rfl⟩, Or.inr ⟨1, rfl⟩⟩
  · refine PersistencyVectorClock.loopReads_of_forall ?_
    intro t ht
    obtain rfl : t = 0 := List.mem_singleton.mp ht
    exact ⟨Or.inr ⟨1, rfl⟩, Or.inr ⟨1, rfl⟩⟩

/-- A clock of the reversed class does not tell its own epoch. -/
theorem not_pureQueries_reversed :
    ¬ PureQueries (Call.step (ι := Unit) (κ := Unit) (π := Unit)) Call.isQuery
      (.new (fun _ => 0) (fun _ => 0) (fun _ => 0)) (.new (fun _ => 0) (fun _ => 0) (fun _ => 0))
      [.reversed (.addEpoch () (.int 5)), .reversed (.getEpoch () 0)] := by
  intro h
  obtain ⟨a, ha, -⟩ := h [.reversed (.addEpoch () (.int 5))] (.reversed (.getEpoch () 0)) [] rfl rfl
  cases ha

end Families

end Prd.Pycprd.Objects
