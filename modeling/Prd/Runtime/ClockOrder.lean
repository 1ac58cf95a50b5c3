import Prd.Runtime.ClockGraph

/-!
# What the clocks know

A thread has the epoch of an event in its clock, and an object has it, exactly when the event
happens before whatever the thread does next or whatever is done by the next thread that acquires
the object.
-/
namespace Prd.Runtime

open Prd.Foundation

def Dirty.get (tid : ℕ) : Option Dirty → Option ℕ
  | some dirty => if dirty.tid = tid then some dirty.epoch else none
  | none => none

namespace ClockState

/-- `SyncClock::get`, which may not be asked for threads that the object has no room for. -/
def get (σ : ClockState) (s tid : ℕ) : Option ℕ :=
  match Dirty.get tid (σ.syncs s).dirty₀ with
  | some epoch => some epoch
  | none =>
    match Dirty.get tid (σ.syncs s).dirty₁ with
    | some epoch => some epoch
    | none => if tid < (σ.syncs s).size then some (σ.elem s tid).epoch else none

variable {σ : ClockState} {s tid : ℕ} {V : ℕ → ℕ}

theorem dirty_get_eq (h : (σ.view s).Shows V) {d : Option Dirty}
    (hd : ∀ x ∈ d, x ∈ (σ.view s).dirties) {epoch : ℕ} (hget : Dirty.get tid d = some epoch) :
    epoch = V tid := by
  cases d with
  | none => cases hget
  | some dirty =>
    unfold Dirty.get at hget
    dsimp only at hget
    split_ifs at hget with htid
    cases hget
    subst htid
    exact (h.entry dirty (hd dirty rfl)).1.symm

theorem dirty_get_eq_none {d : Option Dirty} (hget : Dirty.get tid d = none) :
    ∀ x ∈ d, x.tid ≠ tid := by
  rintro x rfl htid
  simp [Dirty.get, htid] at hget

/-- The entries and the table together are the vector. -/
theorem get_eq (h : (σ.view s).Shows V) (tid : ℕ) : (σ.get s tid).getD 0 = V tid := by
  have hmem₀ : ∀ x ∈ (σ.syncs s).dirty₀, x ∈ (σ.view s).dirties := by
    intro x hx
    exact List.mem_append_left _ (Option.mem_toList.mpr hx)
  have hmem₁ : ∀ x ∈ (σ.syncs s).dirty₁, x ∈ (σ.view s).dirties := by
    intro x hx
    exact List.mem_append_right _ (Option.mem_toList.mpr hx)
  unfold get
  cases h₀ : Dirty.get tid (σ.syncs s).dirty₀ with
  | some epoch => exact dirty_get_eq h hmem₀ h₀
  | none =>
    cases h₁ : Dirty.get tid (σ.syncs s).dirty₁ with
    | some epoch => exact dirty_get_eq h hmem₁ h₁
    | none =>
      dsimp only
      split_ifs with hlt
      · have hs : (σ.syncs s).size ≠ 0 := by omega
        have helem := h.elem tid fun d hd => by
          rcases List.mem_append.mp hd with hd | hd
          · exact dirty_get_eq_none h₀ d (Option.mem_toList.mp hd)
          · exact dirty_get_eq_none h₁ d (Option.mem_toList.mp hd)
        rw [view_clock hs] at helem
        exact helem
      · exact (h.eq_zero (not_lt.mp hlt)).symm

end ClockState

/-- The run succeeds. An epoch beyond that of an event is in the clock of another thread when the
thread has seen the event, and in an object when the object passes the event on. -/
theorem clocks_know_order (reused : ℕ → ℕ) {ops : List ClockOp} (hops : Callers.new.Follows ops) :
    ∃ σ, (ClockState.new reused).run ops = some σ ∧
      ∀ p line, ops[p]? = some (.print line) → ∃ σ₁, (ClockState.new reused).run
        (ops.take p) = some σ₁ ∧ (∀ t, t ≠ line.tid → (Seen (ops.map ClockOp.sync) t p ↔
          (σ₁.threads line.tid).clk line.tid < (σ.threads t).clk line.tid)) ∧
        ∀ s, Published (ops.map ClockOp.sync) s p ↔
          (σ₁.threads line.tid).clk line.tid < (σ.get s line.tid).getD 0 := by
  obtain ⟨σ, g, hrun, h⟩ := (Reached.new reused).run hops
  refine ⟨σ, hrun, fun p line hp => ?_⟩
  have htake : Callers.new.Follows (ops.take p) := by
    rw [← List.take_append_drop p ops] at hops
    exact hops.of_append
  obtain ⟨σ₁, g₁, hrun₁, h₁⟩ := (Reached.new reused).run htake
  rw [List.nil_append] at h h₁
  have hevent : EventOf (ops.map ClockOp.sync) line.tid p := by
    refine ⟨_, ?_, rfl⟩
    rw [List.getElem?_map, hp]
    rfl
  have hstamp : stamp (ops.map ClockOp.sync) p line.tid = (σ₁.threads line.tid).clk line.tid := by
    rw [(h₁.refines.thread line.tid).clk]
    unfold stamp
    rw [List.map_take]
  refine ⟨σ₁, hrun₁, fun t ht => ?_, fun s => ?_⟩
  · rw [h.ordered.seen line.tid p t hevent ht, hstamp, (h.refines.thread t).clk]
  · rw [h.ordered.published line.tid p s hevent, hstamp, ClockState.get_eq (h.refines.sync s)]

/-- The first event of the sample, for the thread that has acquired the object
and for the object. -/
theorem clocks_know_order_sample : ∃ σ, (ClockState.new fun _ => 0).run sampleRun = some σ ∧
    ∃ σ₁, (ClockState.new fun _ => 0).run (sampleRun.take 1) = some σ₁ ∧
      (Seen (sampleRun.map ClockOp.sync) 0 1 ↔ (σ₁.threads 1).clk 1 < (σ.threads 0).clk 1) ∧
      (Published (sampleRun.map ClockOp.sync) 0 1 ↔ (σ₁.threads 1).clk 1 < (σ.get 0 1).getD 0) := by
  obtain ⟨σ, hrun, hall⟩ := clocks_know_order (fun _ => 0) sampleRun_follows
  obtain ⟨σ₁, hrun₁, hseen, hpublished⟩ := hall 1 (sampleLine true 0x1000 sharedAddr_lt 1 0) rfl
  exact ⟨σ, hrun, σ₁, hrun₁, hseen 0 (by decide), hpublished 0⟩

end Prd.Runtime
