import Prd.Runtime.CallEffects

/-!
# The order of atomic operations

What a thread releases at an address is passed on to whoever acquires there, whether by a load, by
an atomic change or at a guard, as long as nobody clears the object of the address in between.
-/
namespace Prd.Runtime

open Prd.Foundation

namespace RtlStep

/-- The step releases what its thread has seen. -/
def ReleasesTo (addr : ℕ) : RtlStep → Prop
  | .release a => a = addr
  | .releaseStore a => a = addr
  | .atomicRMW a mo => a = addr ∧ mo.isReleaseOrder = true
  | _ => False

/-- The step acquires what has been released. -/
def AcquiresFrom (addr : ℕ) : RtlStep → Prop
  | .acquire a => a = addr
  | .atomicRMW a mo => a = addr ∧ mo.isAcquireOrder = true
  | _ => False

end RtlStep

namespace Rtl

variable {r r' : Rtl} {t addr c p : ℕ} {op : ClockOp} {q : RtlStep} {more : List RtlStep}

/-- The state in which a step works on the clock of its object. -/
def atVar (r : Rtl) (t addr : ℕ) : Rtl :=
    (r.setVar addr (some (r.getOrCreate addr))).incrementEpoch t

theorem metamap_atVar (r : Rtl) (t addr : ℕ) : (r.atVar t addr).metamap addr ≠ none := by
  simp [Rtl.atVar, Rtl.setVar, Rtl.incrementEpoch]

/-- The object passes on what the thread has seen. -/
theorem publishes_exec (hq : q.ReleasesTo addr) (h : Seen (r.ops.map ClockOp.sync) t p)
    (hsync : r.ignoreSync t = 0) (hexec : r.exec t q = .ok (r', more)) :
    Published (r'.ops.map ClockOp.sync) (clockOf addr) p ∧ r'.metamap addr ≠ none := by
  have hclock : ∀ op : ClockOp, op.sync.thread = some t → op.sync.Publishes (clockOf addr) →
      Published (((r.atVar t addr).clockOp t op).ops.map ClockOp.sync) (clockOf addr) p ∧
        ((r.atVar t addr).clockOp t op).metamap addr ≠ none := by
    intro op ht hop
    rw [metamap_clockOp]
    exact ⟨publishes_clockOp (r := r.atVar t addr) h hsync ht hop, metamap_atVar r t addr⟩
  have hsome : ¬ 0 < r.ignoreSync t := by omega
  cases q with
  | release a =>
    obtain rfl : a = addr := hq
    simp only [Rtl.exec, if_neg hsome] at hexec
    cases hexec
    exact hclock (.release t (clockOf a)) rfl rfl
  | releaseStore a =>
    obtain rfl : a = addr := hq
    simp only [Rtl.exec, if_neg hsome] at hexec
    cases hexec
    exact hclock (.releaseStore t (clockOf a)) rfl rfl
  | atomicRMW a mo =>
    obtain ⟨rfl, hmo⟩ := hq
    cases hexec
    cases mo <;> simp only [MemoryOrder.isReleaseOrder, reduceCtorEq, or_self, decide_false,
      Bool.false_eq_true] at hmo
    · exact hclock (.release t (clockOf a)) rfl rfl
    · exact hclock (.acqRel t (clockOf a)) rfl rfl
    · exact hclock (.acqRel t (clockOf a)) rfl rfl
  | _ => exact hq.elim

/-- The thread sees what the object passes on. -/
theorem sees_exec (hq : q.AcquiresFrom addr)
    (h : Published (r.ops.map ClockOp.sync) (clockOf addr) p)
    (hthere : r.metamap addr ≠ none) (hsync : r.ignoreSync t = 0)
    (hexec : r.exec t q = .ok (r', more)) :
    Seen (r'.ops.map ClockOp.sync) t p := by
  have hclock : ∀ op : ClockOp, op.sync.thread = some t → op.sync.Acquires (clockOf addr) →
      Seen (((r.atVar t addr).clockOp t op).ops.map ClockOp.sync) t p :=
    fun op ht hop => sees_clockOp (r := r.atVar t addr) h hsync ht hop
  cases q with
  | acquire a =>
    obtain rfl : a = addr := hq
    have hsome : ¬ (0 < r.ignoreSync t ∨ r.metamap a = none) := by simp [hsync, hthere]
    simp only [Rtl.exec, if_neg hsome] at hexec
    cases hexec
    exact sees_acquireImpl h hsync
  | atomicRMW a mo =>
    obtain ⟨rfl, hmo⟩ := hq
    cases hexec
    cases mo <;> simp only [MemoryOrder.isAcquireOrder, reduceCtorEq, or_self, decide_false,
      Bool.false_eq_true] at hmo
    · exact hclock (.acquire t (clockOf a)) rfl rfl
    · exact hclock (.acquire t (clockOf a)) rfl rfl
    · exact hclock (.acqRel t (clockOf a)) rfl rfl
    · exact hclock (.acqRel t (clockOf a)) rfl rfl
  | _ => exact hq.elim

end Rtl

namespace Sys

/-- The object of the address is there and passes on what was done at the position. -/
structure Offers (s : Sys) (addr p : ℕ) : Prop where
  published : Published (s.rtl.ops.map ClockOp.sync) (clockOf addr) p
  there : s.rtl.metamap addr ≠ none

variable {s s' : Sys} {acts : List Act} {a : Act} {addr p : ℕ}

theorem Offers.step (h : s.Offers addr p) (hkeep : ∀ q ∈ s.stepOf a, ¬ q.Clears (clockOf addr))
    (hstep : s.step a = .ok s') : s'.Offers addr p := by
  cases a with
  | start t =>
    obtain ⟨r, hstart, rfl⟩ := start_eq_ok hstep
    obtain ⟨hemits, hmap, -⟩ := Rtl.startThread_does hstart
    refine ⟨Rtl.published_emits h.published hemits fun heq => ?_, ?_⟩
    · unfold clockOf threadSync at heq
      omega
    · rw [hmap]
      exact h.there
  | call t c =>
    obtain ⟨-, -, steps, -, rfl⟩ := call_eq_ok hstep
    exact ⟨h.published, h.there⟩
  | go t =>
    obtain ⟨q, rest, r, more, htodo, hexec, rfl⟩ := go_eq_ok hstep
    have hq := hkeep q (by simp [stepOf, htodo])
    have hd := Rtl.exec_does hexec
    exact ⟨Rtl.published_emits h.published hd.emits hq, hd.objects addr h.there hq⟩
  | finish t =>
    obtain ⟨-, -, r, hfinish, rfl⟩ := finish_eq_ok hstep
    obtain ⟨hemits, hmap, -⟩ := Rtl.finishThread_does hfinish
    refine ⟨Rtl.published_emits h.published hemits id, ?_⟩
    rw [hmap]
    exact h.there

theorem Offers.run (h : s.Offers addr p) (hkeep : ∀ q ∈ s.steps acts, ¬ q.Clears (clockOf addr))
    (hrun : s.run acts = .ok s') : s'.Offers addr p := by
  induction acts generalizing s with
  | nil =>
    cases hrun
    exact h
  | cons a acts ih =>
    obtain ⟨s₁, hstep, hrun⟩ := ThreadRegistry.bind_eq_ok.mp hrun
    simp only [Sys.steps, hstep] at hkeep
    have hfirst := h.step (fun q hq => hkeep q (List.mem_append_left _ hq)) hstep
    exact ih hfirst (fun q hq => hkeep q (List.mem_append_right _ hq)) hrun

section Passing

variable {s₀ s₁ s₂ s₃ : Sys} {rest : List Act} {t u q : ℕ} {x y : RtlStep}
    {todo todo' : List RtlStep}

/-- What a thread did before it released at an address comes before all that a thread does after
it has acquired there, with any number of other atomic changes in between. -/
theorem acquire_after_release (hsync : s₀.rtl.ignoreSync t = 0) (htodo : s₀.todo t = x :: todo)
    (hx : x.ReleasesTo addr) (hrelease : s₀.step (.go t) = .ok s₁) (hrun : s₁.run acts = .ok s₂)
    (hkeep : ∀ z ∈ s₁.steps acts, ¬ z.Clears (clockOf addr)) (hsync' : s₂.rtl.ignoreSync u = 0)
    (htodo' : s₂.todo u = y :: todo') (hy : y.AcquiresFrom addr)
    (hacquire : s₂.step (.go u) = .ok s₃)
    (hrest : s₃.run rest = .ok s) (hp : s₀.Prints t p) (hq : s.Prints u q)
    (hlate : s₃.rtl.ops.length ≤ q) :
    RunsBefore s.rtl.ops p q := by
  have hoffers : s₁.Offers addr p := by
    obtain ⟨x', rest', r, more, hx', hexec, rfl⟩ := go_eq_ok hrelease
    obtain ⟨rfl, rfl⟩ := List.cons.inj (htodo.symm.trans hx')
    obtain ⟨hpublished, hthere⟩ := Rtl.publishes_exec hx hp.sees hsync hexec
    exact ⟨hpublished, hthere⟩
  have hlater := hoffers.run hkeep hrun
  have hsees : s₃.Sees u p := by
    obtain ⟨y', rest', r, more, hy', hexec, rfl⟩ := go_eq_ok hacquire
    obtain ⟨rfl, rfl⟩ := List.cons.inj (htodo'.symm.trans hy')
    exact Rtl.sees_exec hy hlater.published hlater.there hsync' hexec
  exact hsees.runsBefore hrest hq hlate

/-- The main thread stores what the other one loads. -/
theorem acquire_after_release_sample : ∃ s₀ s₁ s₂ s₃ s,
    new.run (sampleCreate ++ sampleStart ++ callActs 0 (.atomicStore (sampleSite true)
      (.byte 0x2000 writtenAddr_lt) .release) 1) = .ok s₀ ∧ s₀.step (.go 0) = .ok s₁ ∧
    s₁.run (callActs 1 (.atomicLoad (sampleSite true) (.byte 0x2000 writtenAddr_lt) .acquire) 1) =
    .ok s₂ ∧
    s₂.step (.go 1) = .ok s₃ ∧ s₃.run (.go 1 :: sampleWrite 1) = .ok s ∧
    RunsBefore s.rtl.ops 3 13 := by
  obtain ⟨s₀, s₁, s₂, s₃, s, todo, todo', h₀, h₁, h₂, h₃, h, hsync, htodo, hsteps, hsync', htodo',
      hlength, ⟨b, hb, hbt⟩, c, hc, hct⟩ : ∃ s₀ s₁ s₂ s₃ s todo todo',
      new.run (sampleCreate ++ sampleStart ++ callActs 0 (.atomicStore (sampleSite true)
        (.byte 0x2000 writtenAddr_lt) .release) 1) = .ok s₀ ∧ s₀.step (.go 0) = .ok s₁ ∧
      s₁.run (callActs 1 (.atomicLoad (sampleSite true) (.byte 0x2000 writtenAddr_lt) .acquire) 1) =
      .ok s₂ ∧
      s₂.step (.go 1) = .ok s₃ ∧ s₃.run (.go 1 :: sampleWrite 1) = .ok s ∧ s₀.rtl.ignoreSync 0 = 0 ∧
      s₀.todo 0 = .releaseStore 0x2000 :: todo ∧
      s₁.steps (callActs 1 (.atomicLoad (sampleSite true) (.byte 0x2000 writtenAddr_lt) .acquire) 1)
        = [.incrementEpoch] ∧
      s₂.rtl.ignoreSync 1 = 0 ∧ s₂.todo 1 = .acquire 0x2000 :: todo' ∧ s₃.rtl.ops.length = 13 ∧
      (∃ b, s₀.rtl.ops[3]? = some (.print (.access b)) ∧ b.tid = 0) ∧
      ∃ c, s.rtl.ops[13]? = some (.print (.access c)) ∧ c.tid = 1 :=
    ⟨_, _, _, _, _, _, _, rfl, rfl, rfl, rfl, rfl, rfl, rfl, rfl, rfl, rfl, rfl, ⟨_, rfl, rfl⟩, _,
      rfl, rfl⟩
  refine ⟨s₀, s₁, s₂, s₃, s, h₀, h₁, h₂, h₃, h, ?_⟩
  refine acquire_after_release hsync htodo rfl h₁ h₂ ?_ hsync' htodo' rfl h₃ h ⟨_, hb, hbt⟩
    ⟨_, hc, hct⟩ hlength.le
  simp [hsteps, RtlStep.Clears]

end Passing

end Sys

end Prd.Runtime
