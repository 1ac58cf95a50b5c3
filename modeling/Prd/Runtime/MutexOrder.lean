import Prd.Runtime.CallEffects
import Prd.Runtime.RunRaces

/-!
# The order of critical sections

A mutex hands over what its owners have seen. So whatever is done while it is owned comes before
all that is done under it later, and a write that is flushed under it causes no race.
-/
namespace Prd.Runtime

open Prd.Foundation

/-- The step uses the mutex as a mutex, and synchronization is not ignored. -/
def RtlStep.Respects (m : ℕ) : RtlStep → Prop
  | .releaseStore addr => addr ≠ m
  | .mutexDestroy addr _ _ => addr ≠ m
  | .mutexRepair addr => addr ≠ m
  | .freeRange addr size => m < addr ∨ addr + size ≤ m
  | .ignoreSyncBegin => False
  | _ => True

/-- The objects that a mutex passes things on with. -/
def mutexClocks (m : ℕ) : List ℕ := [clockOf m, readClockOf m]

theorem RtlStep.Respects.not_clears {m : ℕ} {p : RtlStep} (h : p.Respects m)
    (hno : ¬ p.SetsOwner m) : ∀ s ∈ mutexClocks m, ¬ p.Clears s := by
  intro s hs hc
  have hs' : s = 3 * m ∨ s = 3 * m + 1 := by simpa [mutexClocks, clockOf, readClockOf] using hs
  cases p <;> simp only [RtlStep.Clears, RtlStep.Respects, RtlStep.SetsOwner, clockOf, readClockOf,
    threadSync] at hc h hno
  case freeRange addr size =>
    obtain ⟨i, hi, hc⟩ := hc
    exact hno ⟨i, hi, by omega⟩
  all_goals omega

namespace Rtl

variable {r r' r₁ : Rtl} {t m p : ℕ} {q : RtlStep} {more : List RtlStep} {objects : List ℕ}

theorem owner_setVar_self (r : Rtl) (m : ℕ) (v : SyncVar) :
    (r.setVar m (some v)).owner m = v.ownerTid := by
  simp [Rtl.owner, Rtl.getOrCreate, Rtl.setVar]

/-- The mutex passes on what was done at the position, with some of its objects. -/
def Passes (r : Rtl) (m : ℕ) (objects : List ℕ) (p : ℕ) : Prop :=
  HandsOver (r.ops.map ClockOp.sync) objects p (r.owner m)

theorem Passes.emits (h : r.Passes m objects p) {clears : ℕ → Prop}
    {releases acquires prints : Prop}
    (hemits : Emits (Within t clears releases acquires prints) r.ops r'.ops)
    (howner : r'.owner m = r.owner m) (hno : ∀ s ∈ objects, ¬ clears s) :
    r'.Passes m objects p := by
  obtain ⟨new, hops, hnew⟩ := hemits
  unfold Rtl.Passes
  rw [howner, hops, List.map_append]
  refine HandsOver.append h fun op hop s hs hc => ?_
  obtain ⟨op', hop', rfl⟩ := List.mem_map.mp hop
  exact hno s hs ((hnew op' hop').cleared s hc)

theorem owner_clockOp (r : Rtl) (t : ℕ) (op : ClockOp) (m : ℕ) :
    (r.clockOp t op).owner m = r.owner m :=
  owner_congr (metamap_clockOp _ _ _) m

/-- The mutex is locked: its new owner acquires both clocks. -/
theorem Passes.lock (h : r.Passes m objects p) (hsub : objects ⊆ mutexClocks m)
    (hfree : r.owner m = none) (hops : r₁.ops = r.ops)
    (hsync : r₁.ignoreSync t = 0) (howner : r₁.owner m = some t) :
    ((r₁.acquireImpl t (clockOf m)).acquireImpl t (readClockOf m)).Passes m objects p := by
  have hsync' : (r₁.acquireImpl t (clockOf m)).ignoreSync t = 0 :=
    (congrFun (ignoreSync_clockOp _ _ _) t).trans hsync
  unfold Rtl.Passes at h ⊢
  rw [hfree] at h
  rw [Rtl.acquireImpl, owner_clockOp, ops_clockOp hsync', Rtl.acquireImpl, owner_clockOp,
    ops_clockOp hsync, howner, hops, List.append_assoc, List.map_append]
  refine h.take ?_ ?_
  · simp [ClockOp.sync, RunOp.Clears]
  · intro c hc
    have hmem := hsub hc
    simp only [mutexClocks, List.mem_cons, List.not_mem_nil, or_false] at hmem
    rcases hmem with rfl | rfl <;> simp [ClockOp.sync]

/-- The owner unlocks the mutex and stores its clock. -/
theorem Passes.unlock (h : r.Passes m objects p) (hmem : clockOf m ∈ objects)
    (howner : r.owner m = some t) (hops : r₁.ops = r.ops) (hsync : r₁.ignoreSync t = 0)
    (hfree : r₁.owner m = none) :
    (r₁.releaseStoreImpl t (clockOf m)).Passes m objects p := by
  unfold Rtl.Passes at h ⊢
  rw [howner] at h
  have hset : HandsOver (r.ops.map ClockOp.sync ++ [.tick t (r₁.epoch t)]) objects p (some t) :=
    h.append (by simp [RunOp.Clears])
  have hleave := hset.leave hmem (.releaseStore t (clockOf m)) rfl rfl
  rw [List.append_assoc] at hleave
  rw [Rtl.releaseStoreImpl, owner_clockOp, ops_clockOp hsync, hfree, hops, List.map_append]
  exact hleave

/-- Who owns the mutex stays the owner, and nothing is cleared. -/
theorem Passes.stay (h : r.Passes m objects p) (hops : r'.ops = r.ops)
    (howner : r'.owner m = r.owner m) : r'.Passes m objects p := by
  unfold Rtl.Passes
  rw [hops, howner]
  exact h

theorem Passes.exec (h : r.Passes m objects p) (hmem : clockOf m ∈ objects)
    (hsub : objects ⊆ mutexClocks m) (hsync : ∀ v, r.ignoreSync v = 0) (hq : q.Respects m)
    (hexec : r.exec t q = .ok (r', more)) :
    r'.Passes m objects p := by
  have hd := exec_does hexec
  by_cases hno : q.SetsOwner m
  · cases q with
    | mutexPostLock addr flagz depth =>
      obtain rfl : addr = m := hno
      obtain ⟨r₁, hl, hexec⟩ := ThreadRegistry.bind_eq_ok.mp hexec
      cases hexec
      obtain ⟨v, d, rfl, -, ⟨hfree, -, rfl⟩ | ⟨owner, howner, -, hcases⟩⟩ := mutexPostLock_eq_ok hl
      · rw [SyncVar.ownerTid_updateFlags] at hfree
        exact h.lock hsub hfree rfl (hsync t) (owner_setVar_self _ _ _)
      · refine h.emits hd.emits ?_ fun s _ hc => hc
        have hkept : r.owner addr = some owner := by
          rw [SyncVar.ownerTid_updateFlags] at howner
          exact howner
        rw [hkept]
        obtain ⟨-, rfl⟩ | ⟨-, rfl⟩ := hcases
        · rw [Rtl.acquireImpl, owner_clockOp, Rtl.acquireImpl, owner_clockOp, owner_setVar_self]
          exact howner
        · exact (owner_setVar_self _ _ _).trans howner
    | mutexUnlock addr flagz =>
      obtain rfl : addr = m := hno
      cases hexec
      obtain ⟨v, rfl, ⟨-, hunlock⟩ | ⟨howner, ⟨-, hunlock⟩ | ⟨n, -, hunlock⟩⟩⟩ :=
        r.mutexUnlock_cases t addr flagz
      · rw [hunlock]
        exact h.stay rfl (owner_setVar_self _ _ _)
      · rw [hunlock]
        exact h.unlock hmem howner rfl (hsync t) (owner_setVar_self _ _ _)
      · rw [hunlock]
        exact h.stay rfl (owner_setVar_self _ _ _)
    | mutexReadOrWriteUnlock addr =>
      obtain rfl : addr = m := hno
      obtain ⟨r₁, hl, hexec⟩ := ThreadRegistry.bind_eq_ok.mp hexec
      cases hexec
      obtain ⟨v, rfl, ⟨-, rfl⟩ | ⟨howner, -, rfl⟩ | ⟨-, -, rfl⟩ | ⟨owner, -, -, rfl⟩⟩ :=
        mutexReadOrWriteUnlock_eq_ok hl
      · have hemits : Emits (Within t (fun _ => False) True False False)
            ((r.setVar addr (some (r.getOrCreate addr))).incrementEpoch t).ops _ :=
          emits_releaseImpl trivial (readClockOf addr)
        refine h.emits hemits ?_ fun s _ hc => hc
        exact (owner_clockOp _ _ _ _).trans (owner_setVar_self _ _ _)
      · exact h.unlock hmem howner rfl (hsync t) (owner_setVar_self _ _ _)
      · exact h.stay rfl (owner_setVar_self _ _ _)
      · exact h.stay rfl (owner_setVar_self _ _ _)
    | mutexDestroy addr flagz s => exact absurd hno hq
    | mutexRepair addr => exact absurd hno hq
    | freeRange addr size =>
      obtain ⟨i, hi, hm⟩ := hno
      rcases hq with hq | hq <;> omega
    | _ => exact hno.elim
  · exact h.emits hd.emits (hd.owner m hno) fun s hs => hq.not_clears hno s (hsub hs)

/-- No `CHECK` fails when the object is right. -/
theorem exists_mutexPostLock (hok : (r.getOrCreate m).Ok) (t flagz : ℕ) {depth : ℕ}
    (hdepth : flagz &&& mutexFlagRecursiveLock ≠ 0 → 0 < depth) :
    ∃ r', r.mutexPostLock t m flagz depth = .ok r' := by
  have hpos : 0 < if flagz &&& mutexFlagRecursiveLock ≠ 0 then depth else 1 := by
    split_ifs with hflag
    · exact hdepth hflag
    · exact Nat.one_pos
  unfold Rtl.mutexPostLock
  simp only [check, hpos, if_true, bind, Except.bind, pure, Except.pure]
  cases howner : (r.getOrCreate m).ownerTid with
  | none =>
    have hzero := hok.mp howner
    simp [howner, hzero]
  | some owner =>
    have hne : (r.getOrCreate m).recursion ≠ 0 := fun hzero => by
      cases howner.symm.trans (hok.mpr hzero)
    simp [howner, hne, Nat.pos_iff_ne_zero]

theorem exists_mutexReadOrWriteUnlock (hok : (r.getOrCreate m).Ok) (t : ℕ) :
    ∃ r', r.mutexReadOrWriteUnlock t m = .ok r' := by
  unfold Rtl.mutexReadOrWriteUnlock
  cases howner : (r.getOrCreate m).ownerTid with
  | none =>
    simp only [howner]
    exact ⟨_, rfl⟩
  | some owner =>
    have hpos : 0 < (r.getOrCreate m).recursion := Nat.pos_of_ne_zero fun hzero => by
      cases howner.symm.trans (hok.mpr hzero)
    simp only [howner, check, hpos, if_true, bind, Except.bind, pure, Except.pure]
    split_ifs <;> exact ⟨_, rfl⟩

end Rtl

namespace Sys

section Runs

variable {s s' : Sys} {acts : List Act} {a : Act} {m p : ℕ} {objects : List ℕ}

theorem passes_step (h : s.rtl.Passes m objects p) (hmem : clockOf m ∈ objects)
    (hsub : objects ⊆ mutexClocks m) (hsync : ∀ v, s.rtl.ignoreSync v = 0)
    (hrespects : ∀ q ∈ s.stepOf a, q.Respects m) (hstep : s.step a = .ok s') :
    s'.rtl.Passes m objects p ∧ ∀ v, s'.rtl.ignoreSync v = 0 := by
  have hzero : (∀ v, s'.rtl.ignoreSync v ≤ s.rtl.ignoreSync v) → ∀ v, s'.rtl.ignoreSync v = 0 :=
    fun hle v => Nat.le_zero.mp ((hle v).trans (hsync v).le)
  cases a with
  | start t =>
    obtain ⟨r, hstart, rfl⟩ := start_eq_ok hstep
    obtain ⟨hemits, hmap, hle⟩ := Rtl.startThread_does hstart
    refine ⟨h.emits hemits (Rtl.owner_congr hmap m) fun s hs heq => ?_, hzero hle⟩
    have hs' := hsub hs
    simp only [mutexClocks, List.mem_cons, List.not_mem_nil, or_false, clockOf, readClockOf,
      threadSync] at hs' heq
    omega
  | call t c =>
    obtain ⟨-, -, steps, -, rfl⟩ := call_eq_ok hstep
    exact ⟨h, hsync⟩
  | go t =>
    obtain ⟨q, rest, r, more, htodo, hexec, rfl⟩ := go_eq_ok hstep
    have hq : q.Respects m := hrespects q (by simp [stepOf, htodo])
    refine ⟨h.exec hmem hsub hsync hq hexec, hzero ((Rtl.exec_does hexec).ignoreSync ?_)⟩
    rintro rfl
    exact hq
  | finish t =>
    obtain ⟨-, -, r, hfinish, rfl⟩ := finish_eq_ok hstep
    obtain ⟨hemits, hmap, hle⟩ := Rtl.finishThread_does hfinish
    exact ⟨h.emits hemits (Rtl.owner_congr hmap m) fun s _ hs => hs, hzero hle⟩

theorem passes_run (h : s.rtl.Passes m objects p) (hmem : clockOf m ∈ objects)
    (hsub : objects ⊆ mutexClocks m) (hsync : ∀ v, s.rtl.ignoreSync v = 0)
    (hrespects : ∀ q ∈ s.steps acts, q.Respects m) (hrun : s.run acts = .ok s') :
    s'.rtl.Passes m objects p ∧ ∀ v, s'.rtl.ignoreSync v = 0 := by
  induction acts generalizing s with
  | nil =>
    cases hrun
    exact ⟨h, hsync⟩
  | cons a acts ih =>
    obtain ⟨s₁, hstep, hrun⟩ := ThreadRegistry.bind_eq_ok.mp hrun
    simp only [Sys.steps, hstep] at hrespects
    obtain ⟨h₁, hsync₁⟩ := passes_step h hmem hsub hsync
      (fun q hq => hrespects q (List.mem_append_left _ hq)) hstep
    exact ih h₁ hsync₁ (fun q hq => hrespects q (List.mem_append_right _ hq)) hrun

theorem varsOk_step (h : s.rtl.VarsOk) (hstep : s.step a = .ok s') : s'.rtl.VarsOk := by
  cases a with
  | start t =>
    obtain ⟨r, hstart, rfl⟩ := start_eq_ok hstep
    exact Rtl.varsOk_congr (Rtl.startThread_does hstart).2.1 h
  | call t c =>
    obtain ⟨-, -, steps, -, rfl⟩ := call_eq_ok hstep
    exact h
  | go t =>
    obtain ⟨q, rest, r, more, -, hexec, rfl⟩ := go_eq_ok hstep
    exact (Rtl.exec_does hexec).vars h
  | finish t =>
    obtain ⟨-, -, r, hfinish, rfl⟩ := finish_eq_ok hstep
    exact Rtl.varsOk_congr (Rtl.finishThread_does hfinish).2.1 h

theorem varsOk_run (h : s.rtl.VarsOk) (hrun : s.run acts = .ok s') : s'.rtl.VarsOk := by
  induction acts generalizing s with
  | nil =>
    cases hrun
    exact h
  | cons a acts ih =>
    obtain ⟨s₁, hstep, hrun⟩ := ThreadRegistry.bind_eq_ok.mp hrun
    exact ih (varsOk_step h hstep) hrun

/-- In every run a mutex has an owner exactly when it is locked, so no thread that locks or
unlocks it fails a `CHECK`. -/
theorem mutex_checks_hold (hrun : new.run acts = .ok s) (t m flagz depth : ℕ)
    (hdepth : flagz &&& mutexFlagRecursiveLock ≠ 0 → 0 < depth) :
    (s.rtl.owner m = none ↔ (s.rtl.getOrCreate m).recursion = 0) ∧
      (∃ r, s.rtl.exec t (.mutexPostLock m flagz depth) = .ok r) ∧
      ∃ r, s.rtl.exec t (.mutexReadOrWriteUnlock m) = .ok r := by
  have hnew : new.rtl.VarsOk := fun _ => SyncVar.ok_new
  have hok := varsOk_run hnew hrun m
  refine ⟨hok, ?_, ?_⟩
  · obtain ⟨r, hr⟩ := Rtl.exists_mutexPostLock hok t flagz hdepth
    exact ⟨(r, []), by simp [Rtl.exec, hr, bind, Except.bind, pure, Except.pure]⟩
  · obtain ⟨r, hr⟩ := Rtl.exists_mutexReadOrWriteUnlock hok t
    exact ⟨(r, []), by simp [Rtl.exec, hr, bind, Except.bind, pure, Except.pure]⟩

theorem mutex_checks_hold_sample : ∃ s, new.run (sampleCreate ++ sampleOwned) = .ok s ∧
    s.rtl.owner 0x2000 = some 0 ∧ (∃ r, s.rtl.exec 1 (.mutexPostLock 0x2000 0 1) = .ok r) ∧
      ∃ r, s.rtl.exec 1 (.mutexReadOrWriteUnlock 0x2000) = .ok r := by
  obtain ⟨s, hrun, howner⟩ : ∃ s, new.run (sampleCreate ++ sampleOwned) = .ok s ∧
      s.rtl.owner 0x2000 = some 0 := ⟨_, rfl, rfl⟩
  exact ⟨s, hrun, howner, (mutex_checks_hold hrun 1 0x2000 0 1 fun _ => Nat.one_pos).2⟩

end Runs

/-- In the sample the mutex is owned by the main thread, and then by the other one, which writes. -/
theorem exists_samplePass : ∃ s₀ s₁ s, new.run (sampleCreate ++ sampleOwned) = .ok s₀ ∧
    s₀.run samplePass = .ok s₁ ∧ s₁.run (sampleWrite 1) = .ok s ∧ (∀ v, s₀.rtl.ignoreSync v = 0) ∧
    (∀ x ∈ s₀.steps samplePass, x.Respects 0x2000) ∧ s₀.rtl.owner 0x2000 = some 0 ∧
    s₁.rtl.owner 0x2000 = some 1 ∧ s₁.rtl.ops.length = 21 ∧
    (∃ b f, s₀.rtl.ops[13]? = some (.print (.access b)) ∧ b.tid = 0 ∧
      s₀.rtl.ops[14]? = some (.print (.flush f)) ∧ f.tid = 0 ∧
      f.addr / kCacheLineSize = b.addr / kCacheLineSize) ∧
    ∃ c, s.rtl.ops[21]? = some (.print (.access c)) ∧ c.tid = 1 := by
  refine ⟨_, _, _, rfl, rfl, rfl, fun v => ?_, ?_, rfl, rfl, rfl,
    ⟨_, _, rfl, rfl, rfl, rfl, rfl⟩, _, rfl, rfl⟩
  · change Function.update (Function.update (fun _ => 0) 0 0) 1 0 v = 0
    simp [Function.update_apply]
  · change ∀ x ∈ [RtlStep.incrementEpoch, .mutexUnlock 0x2000 0, .incrementEpoch, .incrementEpoch,
      .mutexPostLock 0x2000 0 1, .incrementEpoch], x.Respects 0x2000
    simp [RtlStep.Respects]

section Sections

variable {s₀ s₁ s₂ s : Sys} {acts rest : List Act} {m t u p q : ℕ} {todo : List RtlStep}

/-- What the owner has seen the mutex passes on. -/
theorem passes_of_owner (hsync : ∀ v, s₀.rtl.ignoreSync v = 0) (hrun : s₀.run acts = .ok s₁)
    (hrespects : ∀ x ∈ s₀.steps acts, x.Respects m) (ht : s₀.rtl.owner m = some t)
    (hp : s₀.Sees t p) :
    s₁.rtl.Passes m [clockOf m] p ∧ ∀ v, s₁.rtl.ignoreSync v = 0 := by
  refine passes_run ?_ (by simp) (by simp [mutexClocks]) hsync hrespects hrun
  unfold Rtl.Passes
  rw [ht]
  exact hp

/-- Whatever a thread does while it owns a mutex comes before all that a later owner does from
then on, as long as the mutex is used as nothing else in between. -/
theorem owners_ordered (hsync : ∀ v, s₀.rtl.ignoreSync v = 0) (hrun : s₀.run acts = .ok s₁)
    (hrespects : ∀ x ∈ s₀.steps acts, x.Respects m) (ht : s₀.rtl.owner m = some t)
    (hu : s₁.rtl.owner m = some u) (hrest : s₁.run rest = .ok s) (hp : s₀.Prints t p)
    (hq : s.Prints u q)
    (hlate : s₁.rtl.ops.length ≤ q) : RunsBefore s.rtl.ops p q := by
  have hpasses := (passes_of_owner hsync hrun hrespects ht hp.sees).1
  unfold Rtl.Passes at hpasses
  rw [hu] at hpasses
  exact Sees.runsBefore hpasses hrest hq hlate

theorem owners_ordered_sample : ∃ s₀ s₁ s, new.run (sampleCreate ++ sampleOwned) = .ok s₀ ∧
    s₀.run samplePass = .ok s₁ ∧ s₁.run (sampleWrite 1) = .ok s ∧ RunsBefore s.rtl.ops 13 21 := by
  obtain ⟨s₀, s₁, s, h₀, h₁, h, hsync, hrespects, ht, hu, hlength, ⟨b, f, hb, hbt, -⟩, c, hc,
    hct⟩ :=
    exists_samplePass
  exact ⟨s₀, s₁, s, h₀, h₁, h,
    owners_ordered hsync h₁ hrespects ht hu h ⟨_, hb, hbt⟩ ⟨_, hc, hct⟩ hlength.le⟩

/-- A reader comes after the owners before it. -/
theorem reader_after_owner (hsync : ∀ v, s₀.rtl.ignoreSync v = 0) (hrun : s₀.run acts = .ok s₁)
    (hrespects : ∀ x ∈ s₀.steps acts, x.Respects m) (ht : s₀.rtl.owner m = some t)
    (hfree : s₁.rtl.owner m = none) {flagz : ℕ}
    (htodo : s₁.todo u = .mutexPostReadLock m flagz :: todo)
    (hlock : s₁.step (.go u) = .ok s₂) (hrest : s₂.run rest = .ok s) (hp : s₀.Prints t p)
    (hq : s.Prints u q)
    (hlate : s₂.rtl.ops.length ≤ q) : RunsBefore s.rtl.ops p q := by
  obtain ⟨hpasses, hsync₁⟩ := passes_of_owner hsync hrun hrespects ht hp.sees
  unfold Rtl.Passes at hpasses
  rw [hfree] at hpasses
  obtain ⟨c, hc, hpublished⟩ := hpasses
  obtain rfl := List.mem_singleton.mp hc
  obtain ⟨x, rest', r, more, htodo', hexec, rfl⟩ := go_eq_ok hlock
  obtain ⟨rfl, rfl⟩ := List.cons.inj (htodo.symm.trans htodo')
  cases hexec
  refine Sees.runsBefore ?_ hrest hq hlate
  exact Rtl.sees_acquireImpl (r := (s₁.rtl.setVar m (some ((s₁.rtl.getOrCreate m).updateFlags
    flagz))).incrementEpoch u) hpublished (hsync₁ u)

/-- The other thread reads under the mutex when the main one has given it away. -/
theorem reader_after_owner_sample : ∃ s₀ s₁ s₂ s, new.run (sampleCreate ++ sampleOwned) = .ok s₀ ∧
    s₀.run (sampleUnlock 0 ++ sampleReadLock 1) = .ok s₁ ∧ s₁.step (.go 1) = .ok s₂ ∧
    s₂.run (.go 1 :: sampleWrite 1) = .ok s ∧ RunsBefore s.rtl.ops 13 19 := by
  obtain ⟨s₀, s₁, s₂, s, todo, h₀, h₁, h₂, h, hsync, hsteps, ht, hfree, htodo, hlength,
      ⟨b, hb, hbt⟩, c, hc, hct⟩ : ∃ s₀ s₁ s₂ s todo,
      new.run (sampleCreate ++ sampleOwned) = .ok s₀ ∧
        s₀.run (sampleUnlock 0 ++ sampleReadLock 1) = .ok s₁ ∧ s₁.step (.go 1) = .ok s₂ ∧
        s₂.run (.go 1 :: sampleWrite 1) = .ok s ∧
        s₀.rtl.ignoreSync = Function.update (Function.update (fun _ => 0) 0 0) 1 0 ∧
        s₀.steps (sampleUnlock 0 ++ sampleReadLock 1) =
          [.incrementEpoch, .mutexUnlock 0x2000 0, .incrementEpoch, .incrementEpoch] ∧
        s₀.rtl.owner 0x2000 = some 0 ∧ s₁.rtl.owner 0x2000 = none ∧
        s₁.todo 1 = .mutexPostReadLock 0x2000 0 :: todo ∧ s₂.rtl.ops.length = 19 ∧
        (∃ b, s₀.rtl.ops[13]? = some (.print (.access b)) ∧ b.tid = 0) ∧
        ∃ c, s.rtl.ops[19]? = some (.print (.access c)) ∧ c.tid = 1 :=
    ⟨_, _, _, _, _, rfl, rfl, rfl, rfl, rfl, rfl, rfl, rfl, rfl, rfl, ⟨_, rfl, rfl⟩, _, rfl, rfl⟩
  refine ⟨s₀, s₁, s₂, s, h₀, h₁, h₂, h, ?_⟩
  refine reader_after_owner (fun v => ?_) h₁ ?_ ht hfree htodo h₂ h ⟨_, hb, hbt⟩ ⟨_, hc, hct⟩
    hlength.le
  · simp [hsync, Function.update_apply]
  · simp [hsteps, RtlStep.Respects]

/-- An owner comes after the readers before it. -/
theorem owner_after_reader (hsync : ∀ v, s₀.rtl.ignoreSync v = 0) (hfree : s₀.rtl.owner m = none)
    (htodo : s₀.todo t = .mutexReadUnlock m :: todo ∨ s₀.todo t = .mutexReadOrWriteUnlock m :: todo)
    (hunlock : s₀.step (.go t) = .ok s₁) (hrun : s₁.run acts = .ok s₂)
    (hrespects : ∀ x ∈ s₁.steps acts, x.Respects m) (hu : s₂.rtl.owner m = some u)
    (hrest : s₂.run rest = .ok s) (hp : s₀.Prints t p) (hq : s.Prints u q)
    (hlate : s₂.rtl.ops.length ≤ q) :
    RunsBefore s.rtl.ops p q := by
  have hpublished : Published (s₁.rtl.ops.map ClockOp.sync) (readClockOf m) p ∧
      s₁.rtl.owner m = none ∧ ∀ v, s₁.rtl.ignoreSync v = 0 := by
    obtain ⟨x, rest', r, more, htodo', hexec, rfl⟩ := go_eq_ok hunlock
    have hunlocked :
        r = ((s₀.rtl.setVar m (some (s₀.rtl.getOrCreate m))).incrementEpoch t).releaseImpl t
          (readClockOf m) := by
      rcases htodo with htodo | htodo
      · obtain ⟨rfl, rfl⟩ := List.cons.inj (htodo.symm.trans htodo')
        cases hexec
        rfl
      · obtain ⟨rfl, rfl⟩ := List.cons.inj (htodo.symm.trans htodo')
        obtain ⟨r₁, hl, hexec⟩ := ThreadRegistry.bind_eq_ok.mp hexec
        cases hexec
        obtain ⟨v, rfl, ⟨-, hr⟩ | ⟨howner, -⟩ | ⟨howner, -⟩ | ⟨owner, howner, -⟩⟩ :=
          Rtl.mutexReadOrWriteUnlock_eq_ok hl
        · exact hr
        · cases hfree.symm.trans howner
        · cases hfree.symm.trans howner
        · cases hfree.symm.trans howner
    subst hunlocked
    refine ⟨?_, ?_, fun v => ?_⟩
    · exact Rtl.publishes_releaseImpl
        (r := (s₀.rtl.setVar m (some (s₀.rtl.getOrCreate m))).incrementEpoch t)
        hp.sees (hsync t) _
    · exact (Rtl.owner_clockOp _ _ _ _).trans ((Rtl.owner_setVar_self _ _ _).trans hfree)
    · exact (congrFun (Rtl.ignoreSync_clockOp _ _ _) v).trans (hsync v)
  obtain ⟨hpublished, hfree₁, hsync₁⟩ := hpublished
  have hpasses : s₁.rtl.Passes m (mutexClocks m) p := by
    unfold Rtl.Passes
    rw [hfree₁]
    exact ⟨_, by simp [mutexClocks], hpublished⟩
  have hlater :=
    (passes_run hpasses (by simp [mutexClocks]) (fun _ hc => hc) hsync₁ hrespects hrun).1
  unfold Rtl.Passes at hlater
  rw [hu] at hlater
  exact Sees.runsBefore hlater hrest hq hlate

/-- The other thread owns the mutex when the main one has read under it. -/
theorem owner_after_reader_sample : ∃ s₀ s₁ s₂ s,
    new.run (sampleCreate ++ sampleStart ++ sampleReadUnlock 0) = .ok s₀ ∧
    s₀.step (.go 0) = .ok s₁ ∧ s₁.run (sampleLock 1) = .ok s₂ ∧ s₂.run (sampleWrite 1) = .ok s ∧
    RunsBefore s.rtl.ops 3 15 := by
  obtain ⟨s₀, s₁, s₂, s, todo, h₀, h₁, h₂, h, hsync, hsteps, hfree, htodo, hu, hlength,
      ⟨b, hb, hbt⟩, c, hc, hct⟩ : ∃ s₀ s₁ s₂ s todo,
      new.run (sampleCreate ++ sampleStart ++ sampleReadUnlock 0) = .ok s₀ ∧
        s₀.step (.go 0) = .ok s₁ ∧ s₁.run (sampleLock 1) = .ok s₂ ∧ s₂.run (sampleWrite 1) = .ok s ∧
        s₀.rtl.ignoreSync = Function.update (Function.update (fun _ => 0) 0 0) 1 0 ∧
        s₁.steps (sampleLock 1) = [.incrementEpoch, .mutexPostLock 0x2000 0 1, .incrementEpoch] ∧
        s₀.rtl.owner 0x2000 = none ∧ s₀.todo 0 = .mutexReadOrWriteUnlock 0x2000 :: todo ∧
        s₂.rtl.owner 0x2000 = some 1 ∧ s₂.rtl.ops.length = 15 ∧
        (∃ b, s₀.rtl.ops[3]? = some (.print (.access b)) ∧ b.tid = 0) ∧
        ∃ c, s.rtl.ops[15]? = some (.print (.access c)) ∧ c.tid = 1 :=
    ⟨_, _, _, _, _, rfl, rfl, rfl, rfl, rfl, rfl, rfl, rfl, rfl, rfl, ⟨_, rfl, rfl⟩, _, rfl, rfl⟩
  refine ⟨s₀, s₁, s₂, s, h₀, h₁, h₂, h, ?_⟩
  refine owner_after_reader (fun v => ?_) hfree (Or.inr htodo) h₁ h₂ ?_ hu h ⟨_, hb, hbt⟩
    ⟨_, hc, hct⟩ hlength.le
  · simp [hsync, Function.update_apply]
  · simp [hsteps, RtlStep.Respects]

theorem run_trans (hrun : s₀.run acts = .ok s₁) (hrest : s₁.run rest = .ok s) :
    s₀.run (acts ++ rest) = .ok s := by
  induction acts generalizing s₀ with
  | nil =>
    cases hrun
    exact hrest
  | cons a acts ih =>
    obtain ⟨s', hstep, hrun⟩ := ThreadRegistry.bind_eq_ok.mp hrun
    exact ThreadRegistry.bind_eq_ok.mpr ⟨s', hstep, ih hrun⟩

/-- A write that its thread flushes before it gives a mutex away causes no race with what a later
owner writes. -/
theorem flushed_section_no_race {before : List Act} (h₀ : new.run before = .ok s₀)
    (hnew : ((before ++ (acts ++ rest)).filterMap Act.started).Nodup)
    (hsync : ∀ v, s₀.rtl.ignoreSync v = 0) (hrun : s₀.run acts = .ok s₁)
    (hrespects : ∀ x ∈ s₀.steps acts, x.Respects m) (ht : s₀.rtl.owner m = some t)
    (hu : s₁.rtl.owner m = some u) (hrest : s₁.run rest = .ok s) {i j k n : ℕ}
    {a b c : AccessLine} {f : FlushLine}
    (hwrite : s₀.rtl.ops[j]? = some (.print (.access b))) (hb : b.tid = t)
    (hflush : s₀.rtl.ops[n]? = some (.print (.flush f))) (hf : f.tid = t) (hjn : j < n)
    (hline : f.addr / kCacheLineSize = b.addr / kCacheLineSize) (hc : c.tid = u)
    (hlate : s₁.rtl.ops.length ≤ k) : ¬ IsRunRace s.rtl.ops i j k a b c := by
  intro hrace
  have hpasses := (passes_of_owner hsync hrun hrespects ht (Prints.sees ⟨_, hflush, hf⟩)).1
  unfold Rtl.Passes at hpasses
  rw [hu] at hpasses
  have hlater : RunsBefore s.rtl.ops n k :=
    Sees.runsBefore hpasses hrest ⟨_, hrace.dependent, hc⟩ hlate
  -- the bytes that are read are on the line of the write
  have hinLine := (kept_new.run hnew (run_trans h₀ (run_trans hrun hrest))).inLine
  have ha := (hinLine a (List.mem_of_getElem? hrace.read)).2
  have hb' := (hinLine b (List.mem_of_getElem? hrace.write)).2
  have hoverlap := hrace.overlap
  have hsame : b.addr / kCacheLineSize = a.addr / kCacheLineSize := by
    unfold kCacheLineSize
    omega
  obtain ⟨more, hmore⟩ := run_ops hrun
  obtain ⟨more', hmore'⟩ := run_ops hrest
  have hkept : ∀ i, i < s₀.rtl.ops.length → s.rtl.ops[i]? = s₀.rtl.ops[i]? := by
    intro i hi
    rw [hmore', hmore, List.append_assoc, List.getElem?_append_left hi]
  have hn := (List.getElem?_eq_some_iff.mp hflush).1
  rw [← hkept n hn] at hflush
  rw [← hkept j (hjn.trans hn)] at hwrite
  have hbefore : RunsBefore s.rtl.ops j n := by
    refine .single (.program t hjn ?_ ?_)
    · exact ⟨.event b.tid, by rw [List.getElem?_map, hwrite]; rfl, congrArg some hb⟩
    · exact ⟨.event f.tid, by rw [List.getElem?_map, hflush]; rfl, congrArg some hf⟩
  exact hrace.writeUnflushed ⟨n, f, hflush, hline.trans hsame, hbefore, hlater⟩

theorem flushed_section_no_race_sample : ∃ s₀ s₁ s, new.run (sampleCreate ++ sampleOwned) = .ok s₀ ∧
    s₀.run samplePass = .ok s₁ ∧ s₁.run (sampleWrite 1) = .ok s ∧
    ∃ b c, s.rtl.ops[13]? = some (.print (.access b)) ∧ s.rtl.ops[21]? = some (.print (.access c)) ∧
      ∀ i a, ¬ IsRunRace s.rtl.ops i 13 21 a b c := by
  obtain ⟨s₀, s₁, s, h₀, h₁, h, hsync, hrespects, ht, hu, hlength,
    ⟨b, f, hb, hbt, hf, hft, hline⟩, c, hc, hct⟩ := exists_samplePass
  refine ⟨s₀, s₁, s, h₀, h₁, h, b, c, ?_, hc, fun i a => ?_⟩
  · obtain ⟨more, hmore⟩ := run_ops h₁
    obtain ⟨more', hmore'⟩ := run_ops h
    have hlt := (List.getElem?_eq_some_iff.mp hb).1
    rw [hmore', hmore, List.append_assoc, List.getElem?_append_left hlt, hb]
  · exact flushed_section_no_race h₀ (by decide) hsync h₁ hrespects ht hu h hb hbt hf hft
      (by decide) hline hct hlength.le

end Sections

end Sys

end Prd.Runtime
