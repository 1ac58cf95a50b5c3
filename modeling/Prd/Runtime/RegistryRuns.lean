import Prd.Runtime.ThreadRegistry

/-!
# Runs of the thread registry

The counters stay right, no `CHECK` fails as long as the interceptors call what they may, and a
thread id rests until enough other threads have died.
-/
namespace Prd.Runtime

namespace ThreadRegistry

section Runs

variable {g g' : ThreadRegistry} {c : RegistryCall} {calls : List RegistryCall}

theorem Valid.step (h : g.Valid) (hsize : 0 < g.threadQuarantineSize) (hok : g.step c = .ok g') :
    Advances g g' := by
  cases c with
  | create userId detached parentTid =>
    by_cases hroom : g.HasRoom
    · obtain ⟨tid, g₁, hcreate, hadv, -⟩ := h.create hroom userId detached parentTid
      simp only [ThreadRegistry.step, hcreate, bind, Except.bind, pure, Except.pure,
        Except.ok.injEq] at hok
      exact hok ▸ hadv
    · obtain ⟨hnil, hlt⟩ := not_or.mp hroom
      have hstop : g.takeTid = .error .checkFailed := by
        simp [takeTid, not_not.mp hnil, hlt]
      simp [ThreadRegistry.step, createThread, hstop, bind, Except.bind] at hok
  | start tid =>
    obtain ⟨-, hs, rfl⟩ := startThread_eq_ok.mp hok
    exact h.start hs
  | finish tid =>
    obtain ⟨g₁, hok₁, hadv⟩ := h.finish hsize (finishThread_eq_ok hok)
    exact Except.ok.inj (hok₁.symm.trans hok) ▸ hadv
  | join tid =>
    rcases joinThread_eq_ok hok with hs | rfl
    · obtain ⟨g₁, hok₁, hadv⟩ := h.join hsize hs
      exact Except.ok.inj (hok₁.symm.trans hok) ▸ hadv
    · exact h.refl
  | detach tid =>
    have hlt : tid < g.nContexts := by
      simp only [ThreadRegistry.step, detachThread, check_bind_eq_ok] at hok
      exact hok.1
    obtain ⟨g₁, hok₁, hadv⟩ := h.detach hsize hlt
    exact Except.ok.inj (hok₁.symm.trans hok) ▸ hadv
  | setUserId tid userId => exact h.setUserId hok
  | consume userId =>
    cases hc : g.consumeTid userId with
    | error e => simp [ThreadRegistry.step, hc, bind, Except.bind] at hok
    | ok r =>
      simp only [ThreadRegistry.step, hc, bind, Except.bind, pure, Except.pure,
        Except.ok.injEq] at hok
      exact hok ▸ h.consume hc

/-- The threads that die in a run, one after the other. -/
def deaths (g : ThreadRegistry) : List RegistryCall → List ℕ
  | [] => []
  | c :: calls =>
    match g.step c with
    | .ok g' => died g g' ++ g'.deaths calls
    | .error _ => []

theorem rtake_append (l m : List ℕ) (n : ℕ) : (l.rtake n ++ m).rtake n = (l ++ m).rtake n := by
  by_cases h : l.length ≤ n
  · rw [rtake_of_length_le h]
  · have hdrop : l.drop (l.length - n) ++ m = (l ++ m).drop (l.length - n) :=
      (List.drop_append_of_le_length (by omega)).symm
    unfold List.rtake
    rw [hdrop, List.drop_drop, List.length_drop, List.length_append]
    congr 1
    omega

theorem valid_new (maxThreads threadQuarantineSize maxReuse : ℕ) :
    (new maxThreads threadQuarantineSize maxReuse).Valid :=
  ⟨⟨Nat.zero_le _, fun _ _ => rfl, by simp [new], by simp [new], List.nodup_nil, List.nodup_nil,
    Nat.zero_le _, rfl, rfl, le_rfl⟩,
    fun _ => ⟨by simp [new, ThreadContext.new], by simp [new, ThreadContext.new]⟩⟩

/-- What is known of a registry after a run: the queue holds the threads that died last, and no id
is given out again before the queue is full. -/
structure After (g : ThreadRegistry) (dead : List ℕ) (g' : ThreadRegistry) : Prop where
  valid : g'.Valid
  size : g'.threadQuarantineSize = g.threadQuarantineSize
  queue : g'.deadThreads = (g.deadThreads ++ dead).rtake g.threadQuarantineSize
  room : (g.deadThreads ++ dead).length ≤ g.threadQuarantineSize →
    g'.invalidThreads ⊆ g.invalidThreads ∧ ∀ u, (g'.threads u).reuseCount = (g.threads u).reuseCount

theorem Valid.run (h : g.Valid) (hsize : 0 < g.threadQuarantineSize) (hok : g.run calls = .ok g') :
    After g (g.deaths calls) g' := by
  induction calls generalizing g with
  | nil =>
    cases hok
    refine ⟨h, rfl, ?_, fun _ => ⟨List.Subset.refl _, fun _ => rfl⟩⟩
    rw [deaths, List.append_nil, rtake_of_length_le h.queue_le]
  | cons c calls ih =>
    cases hc : g.step c with
    | error e => simp [ThreadRegistry.run, hc, bind, Except.bind] at hok
    | ok g₁ =>
      simp only [ThreadRegistry.run, hc, bind, Except.bind] at hok
      have hadv := h.step hsize hc
      have hafter := ih hadv.valid (hadv.size ▸ hsize) hok
      simp only [deaths, hc]
      refine ⟨hafter.valid, hafter.size.trans hadv.size, ?_, fun hroom => ?_⟩
      · rw [hafter.queue, hadv.queue, hadv.size, rtake_append, List.append_assoc]
      · have hfirst : (g.deadThreads ++ died g g₁).length ≤ g.threadQuarantineSize := by
          simp only [List.length_append] at hroom ⊢
          omega
        have hqueue := hadv.queue
        rw [rtake_of_length_le hfirst] at hqueue
        obtain ⟨hinvalid, hreuse⟩ := hadv.room hfirst
        obtain ⟨hinvalid', hreuse'⟩ :=
          hafter.room (by rw [hqueue, List.append_assoc, hadv.size]; exact hroom)
        exact ⟨fun u hu => hinvalid (hinvalid' hu), fun u => (hreuse' u).trans (hreuse u)⟩

/-- What the interceptors may call: nobody starts twice, finishes without having been created, or is
joined when dead, and user ids are not shared. -/
def Allows (g : ThreadRegistry) : RegistryCall → Prop
  | .create _ _ _ => g.HasRoom
  | .start tid => (g.threads tid).status = .created
  | .finish tid => (g.threads tid).status = .created ∨ (g.threads tid).status = .running
  | .join tid => tid < g.nContexts ∧ (g.threads tid).status ≠ .dead
  | .detach tid => tid < g.nContexts
  | .setUserId tid _ => (g.threads tid).status ≠ .invalid ∧ (g.threads tid).status ≠ .dead ∧
      (g.threads tid).userId = 0
  | .consume userId => ∀ t u, (g.threads t).userId = userId → (g.threads u).userId = userId →
      (g.threads t).status ≠ .invalid → (g.threads u).status ≠ .invalid → t = u

theorem exists_consumeTid {userId : ℕ} (hc : g.Allows (.consume userId)) :
    ∃ r, g.consumeTid userId = .ok r := by
  unfold consumeTid
  cases hl : (List.range g.nContexts).filter fun tid =>
      decide ((g.threads tid).userId = userId ∧ (g.threads tid).status ≠ .invalid) with
  | nil => exact ⟨_, rfl⟩
  | cons t rest =>
    cases rest with
    | nil => exact ⟨_, rfl⟩
    | cons u rest =>
      have hnd : ((List.range g.nContexts).filter fun tid =>
          decide ((g.threads tid).userId = userId ∧ (g.threads tid).status ≠ .invalid)).Nodup :=
        List.nodup_range.filter _
      have hmem : ∀ v ∈ t :: u :: rest, (g.threads v).userId = userId ∧
          (g.threads v).status ≠ .invalid := by
        intro v hv
        rw [← hl] at hv
        exact of_decide_eq_true (List.mem_filter.mp hv).2
      obtain ⟨ht, ht'⟩ := hmem t (by simp)
      obtain ⟨hu, hu'⟩ := hmem u (by simp)
      rw [hl] at hnd
      exact absurd (hc t u ht hu ht' hu') fun he => (List.nodup_cons.mp hnd).1
        (he ▸ List.mem_cons_self)

/-- The call returns, or it waits for a thread that is still alive. -/
theorem Valid.returns (h : g.Valid) (hsize : 0 < g.threadQuarantineSize) (hc : g.Allows c) :
    (∃ g', g.step c = .ok g') ∨
      ∃ tid, c = .join tid ∧ (g.threads tid).alive = true ∧ g.step c = .error .waits := by
  cases c with
  | create userId detached parentTid =>
    obtain ⟨tid, g', hok, -⟩ := h.create hc userId detached parentTid
    exact Or.inl ⟨g', by simp [ThreadRegistry.step, hok, bind, Except.bind, pure, Except.pure]⟩
  | start tid =>
    have hlt : tid < g.nContexts := h.toCounted.lt fun hi => by cases hc.symm.trans hi
    exact Or.inl ⟨_, startThread_eq_ok.mpr ⟨hlt, hc, rfl⟩⟩
  | finish tid =>
    obtain ⟨g', hok, -⟩ := h.finish hsize hc
    exact Or.inl ⟨g', hok⟩
  | join tid =>
    obtain ⟨hlt, hnd⟩ := hc
    by_cases hs : (g.threads tid).status = .finished
    · obtain ⟨g', hok, -⟩ := h.join hsize hs
      exact Or.inl ⟨g', hok⟩
    · by_cases hi : (g.threads tid).status = .invalid
      · exact Or.inl
          ⟨g, by simp [ThreadRegistry.step, joinThread, check, hlt, hi, bind, Except.bind, pure,
          Except.pure]⟩
      · have hdestroyed : (g.threads tid).destroyed = false := by
          have hold := (h.settled tid).destroyed
          simpa [hs, hnd] using hold
        refine Or.inr ⟨tid, rfl, ?_, ?_⟩
        · unfold ThreadContext.alive
          cases hst : (g.threads tid).status <;> simp_all
        · simp [ThreadRegistry.step, joinThread, check, hlt, hi, hdestroyed, bind, Except.bind]
  | detach tid =>
    obtain ⟨g', hok, -⟩ := h.detach hsize hc
    exact Or.inl ⟨g', hok⟩
  | setUserId tid userId =>
    obtain ⟨hi, hd, hid⟩ := hc
    have hlt := h.toCounted.lt hi
    exact Or.inl ⟨_, by
      simp only [ThreadRegistry.step, setThreadUserId, check_bind_eq_ok, pure, Except.pure,
        Except.ok.injEq]
      exact ⟨hlt, hi, hd, hid, rfl⟩⟩
  | consume userId =>
    obtain ⟨r, hok⟩ := exists_consumeTid hc
    exact Or.inl ⟨r.2, by simp [ThreadRegistry.step, hok, bind, Except.bind, pure, Except.pure]⟩

/-- The registry after a run: the calls that are allowed fail no `CHECK`, the counters are right,
and only the join of a live thread waits. -/
theorem registry_checks_hold {maxThreads threadQuarantineSize maxReuse : ℕ}
    (hsize : 0 < threadQuarantineSize)
    (hrun : (new maxThreads threadQuarantineSize maxReuse).run calls = .ok g) :
    g.aliveThreads = g.count ThreadContext.alive ∧
    g.runningThreads = g.count ThreadContext.running ∧
      ∀ c, g.Allows c → (∃ g', g.step c = .ok g') ∨
        ∃ tid, c = .join tid ∧ (g.threads tid).alive = true ∧ g.step c = .error .waits := by
  have h := (valid_new maxThreads threadQuarantineSize maxReuse).run hsize hrun
  exact ⟨h.valid.alive, h.valid.running, fun c hc => h.valid.returns (h.size ▸ hsize) hc⟩

/-- The main thread has started another one, which has finished. -/
def sampleCalls : List RegistryCall :=
  [.create 0 true 0, .start 0, .create 7 false 0, .start 1, .finish 1]

def sampleRegistry : ThreadRegistry :=
  ((new kMaxTid kThreadQuarantineSize kMaxTidReuse).run sampleCalls).toOption.get (by rfl)

theorem sampleRegistry_run :
    (new kMaxTid kThreadQuarantineSize kMaxTidReuse).run sampleCalls = .ok sampleRegistry := rfl

theorem registry_checks_hold_sample :
    sampleRegistry.aliveThreads = sampleRegistry.count ThreadContext.alive ∧
      ∃ g', sampleRegistry.step (.join 1) = .ok g' := by
  obtain ⟨halive, -, hcalls⟩ := registry_checks_hold (by decide) sampleRegistry_run
  refine ⟨halive, (hcalls (.join 1) ⟨by decide, by decide⟩).resolve_right ?_⟩
  rintro ⟨tid, htid, hlive, -⟩
  cases htid
  exact absurd hlive (by decide)

/-- A thread that is created gets an id that nobody uses, and that none of the threads had that died
last. As long as these fit the queue it is a new one. -/
theorem created_tid_unused {maxThreads threadQuarantineSize maxReuse : ℕ}
    (hsize : 0 < threadQuarantineSize)
    (hrun : (new maxThreads threadQuarantineSize maxReuse).run calls = .ok g) {userId : ℕ}
    {detached : Bool}
    {parentTid tid : ℕ} (hcreate : g.createThread userId detached parentTid = .ok (tid, g')) :
    (g.threads tid).status = .invalid ∧
      tid ∉ ((new maxThreads threadQuarantineSize maxReuse).deaths calls).rtake
      threadQuarantineSize ∧
      (((new maxThreads threadQuarantineSize maxReuse).deaths calls).length ≤ threadQuarantineSize →
        tid = g.nContexts ∧ (g.threads tid).reuseCount = 0) := by
  have h := (valid_new maxThreads threadQuarantineSize maxReuse).run hsize hrun
  have hroom : g.HasRoom := by
    by_contra hno
    obtain ⟨hnil, hlt⟩ := not_or.mp hno
    have hstop : g.takeTid = .error .checkFailed := by
      simp [takeTid, not_not.mp hnil, hlt]
    simp [createThread, hstop, bind, Except.bind] at hcreate
  obtain ⟨tid', g₁, hok, -, hstatus, hout, horigin⟩ :=
    h.valid.create hroom userId detached parentTid
  obtain ⟨rfl, -⟩ := Prod.mk.inj (Except.ok.inj (hok.symm.trans hcreate))
  refine ⟨hstatus, ?_, fun hfew => ?_⟩
  · rw [h.queue] at hout
    exact hout
  · obtain ⟨hinvalid, hreuse⟩ := h.room hfew
    exact ⟨horigin.resolve_right fun hm => List.not_mem_nil (hinvalid hm), hreuse _⟩

/-- Two detached threads start and end, and the quarantine holds one. -/
def reuseCalls : List RegistryCall :=
  [.create 0 true 0, .start 0, .create 7 true 0, .create 8 true 0, .start 1, .start 2, .finish 1,
    .finish 2]

def reuseRegistry : ThreadRegistry := ((new 8 1 8).run reuseCalls).toOption.get (by rfl)

/-- The id of the first thread that died is given again, and that of the other one is not. -/
theorem created_tid_unused_sample :
    ∃ tid g', reuseRegistry.createThread 9 false 0 = .ok (tid, g') ∧ tid = 1 ∧
      (new 8 1 8).deaths reuseCalls = [1, 2] ∧ (reuseRegistry.threads tid).status = .invalid ∧
        tid ∉ ((new 8 1 8).deaths reuseCalls).rtake 1 := by
  have hrun : (new 8 1 8).run reuseCalls = .ok reuseRegistry := rfl
  obtain ⟨g', hcreate⟩ : ∃ g', reuseRegistry.createThread 9 false 0 = .ok (1, g') := ⟨_, rfl⟩
  have hunused := created_tid_unused (by decide) hrun hcreate
  exact ⟨1, g', hcreate, rfl, rfl, hunused.1, hunused.2.1⟩

end Runs

end ThreadRegistry

end Prd.Runtime
