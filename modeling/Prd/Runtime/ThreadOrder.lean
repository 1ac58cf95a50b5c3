import Prd.Runtime.CallEffects

/-!
# The order of threads

The registry leaves a thread alone that is alive or waits to be joined. So a thread comes after
all that its creator did before it was created, and whoever joins it comes after all that it did.
-/
namespace Prd.Runtime

open Prd.Foundation

/-- The thread that the call is about. -/
def RegistryCall.about : RegistryCall → Option ℕ
  | .start tid => some tid
  | .finish tid => some tid
  | .join tid => some tid
  | .detach tid => some tid
  | _ => none

namespace ThreadRegistry

variable {g g' : ThreadRegistry} {tid u : ℕ}

/-- The thread is as it was, but for the id that the program knows it by. -/
def Keeps (g g' : ThreadRegistry) (u : ℕ) : Prop :=
  (g'.threads u).status = (g.threads u).status ∧ (g'.threads u).detached = (g.threads u).detached

theorem Keeps.of_eq (h : g'.threads u = g.threads u) : Keeps g g' u := by
  unfold Keeps
  rw [h]
  exact ⟨rfl, rfl⟩

theorem Keeps.setThread_same {c : ThreadContext} (hs : c.status = (g.threads tid).status)
    (hd : c.detached = (g.threads tid).detached) : Keeps g (g.setThread tid c) u := by
  by_cases hu : u = tid
  · subst hu
    unfold Keeps
    rw [setThread_self]
    exact ⟨hs, hd⟩
  · exact .of_eq (setThread_of_ne hu)

/-- Only the thread at the head of the queue is reset, and it is dead. -/
theorem threads_quarantinePush (hok : g.quarantinePush tid = .ok g')
    (hu : (g.threads u).status ≠ .dead) : g'.threads u = g.threads u := by
  by_cases h0 : tid = 0
  · rw [quarantinePush, if_pos h0] at hok
    cases hok
    rfl
  cases hq : g.deadThreads ++ [tid] with
  | nil => simp at hq
  | cons front rest =>
    by_cases hlen : (front :: rest).length ≤ g.threadQuarantineSize
    · rw [quarantinePush, if_neg h0, hq] at hok
      simp only [if_pos hlen] at hok
      cases hok
      rfl
    · have hdead : (g.threads front).status = .dead := by
        rw [quarantinePush, if_neg h0, hq] at hok
        simp only [if_neg hlen, check_bind_eq_ok] at hok
        exact hok.1
      obtain ⟨free, -, hok'⟩ := quarantinePush_full h0 hq (by omega) hdead
      cases hok'.symm.trans hok
      have hne : u ≠ front := by
        rintro rfl
        exact hu hdead
      exact Function.update_of_ne hne _ _

theorem threads_takeTid (h : g.Valid) (hok : g.takeTid = .ok (tid, g'))
    (hu : (g.threads u).status ≠ .invalid) : g'.threads u = g.threads u := by
  unfold takeTid at hok
  split at hok
  · cases hok
    rfl
  · split_ifs at hok
    cases hok
    refine Function.update_of_ne ?_ _ _
    rintro rfl
    exact hu (by rw [h.unused g.nContexts le_rfl]; rfl)

theorem Valid.keeps_create (h : g.Valid) {userId : ℕ} {detached : Bool} {parentTid : ℕ}
    (hok : g.createThread userId detached parentTid = .ok (tid, g'))
    (hu : (g.threads u).status ≠ .invalid) :
    Keeps g g' u := by
  unfold createThread at hok
  cases ht : g.takeTid with
  | error e => simp [ht, bind, Except.bind] at hok
  | ok q =>
    obtain ⟨tid', g₁⟩ := q
    have hsame := threads_takeTid h ht hu
    rw [ht] at hok
    obtain ⟨-, hok⟩ := check_bind_eq_ok.mp hok
    obtain ⟨hinvalid, hok⟩ := check_bind_eq_ok.mp hok
    obtain ⟨-, hok⟩ := check_bind_eq_ok.mp hok
    cases hok
    refine .of_eq ((Function.update_of_ne ?_ _ _).trans hsame)
    rintro rfl
    exact hu (hsame ▸ hinvalid)

theorem keeps_setDead (hok : g.setDead tid = .ok g') (hne : u ≠ tid)
    (hu : (g.threads u).status ≠ .dead) : g'.threads u = g.threads u := by
  unfold setDead at hok
  obtain ⟨-, hok⟩ := check_bind_eq_ok.mp hok
  have hsame : (g.setThread tid { g.threads tid with status := .dead, userId := 0 }).threads u =
    g.threads u :=
    setThread_of_ne hne
  rw [← hsame]
  exact threads_quarantinePush hok (hsame ▸ hu)

/-- The context of a thread that finishes, and what becomes of the thread then. -/
theorem finishThread_split (hok : g.finishThread tid = .ok g') :
    ∃ (g₁ : ThreadRegistry) (c : ThreadContext) (g₂ : ThreadRegistry), g₁.threads = g.threads ∧
    ((g.threads tid).status = .running → (g.threads tid).detached = false →
        c.status = .finished ∧ c.detached = false ∧ g₂ = g₁.setThread tid c) ∧
      (g₂ = g₁.setThread tid c ∨ (g₁.setThread tid c).setDead tid = .ok g₂) ∧
      g' = g₂.setDestroyed tid := by
  rcases finishThread_eq_ok hok with hs | hs
  · simp only [finishThread, hs, check_bind_eq_ok, reduceCtorEq, if_false, ne_eq, not_false_eq_true,
      decide_true, Bool.or_true, if_true, pure_bind] at hok
    obtain ⟨-, -, -, hok⟩ := hok
    obtain ⟨g₂, hg₂, hok⟩ := bind_eq_ok.mp hok
    cases hok
    refine ⟨_, _, g₂, ?_, fun hrun => ?_, Or.inr hg₂, rfl⟩
    · rfl
    · rw [hs] at hrun
      cases hrun
  · simp only [finishThread, hs, check_bind_eq_ok, reduceCtorEq, ne_eq, not_true_eq_false,
      decide_false, Bool.or_false, if_true, pure_bind] at hok
    obtain ⟨-, -, -, hok⟩ := hok
    by_cases hd : (g.threads tid).detached = true
    · simp only [hd, if_true] at hok
      obtain ⟨g₂, hg₂, hok⟩ := bind_eq_ok.mp hok
      cases hok
      refine ⟨_, _, g₂, ?_, fun _ hno => ?_, Or.inr hg₂, rfl⟩
      · rfl
      · rw [hd] at hno
        cases hno
    · simp only [hd, Bool.false_eq_true, if_false, true_or, if_true] at hok
      cases hok
      refine ⟨_, _, _, ?_, fun _ _ => ⟨?_, ?_, rfl⟩, Or.inl rfl, rfl⟩
      · rfl
      · rfl
      · rfl

theorem keeps_finish (hok : g.finishThread tid = .ok g') (hne : u ≠ tid)
    (hu : (g.threads u).status ≠ .dead) : g'.threads u = g.threads u := by
  obtain ⟨g₁, c, g₂, hg₁, -, hg₂, rfl⟩ := finishThread_split hok
  have hset : (g₁.setThread tid c).threads u = g.threads u :=
    (setThread_of_ne hne).trans (congrFun hg₁ u)
  refine (setThread_of_ne hne).trans ?_
  rcases hg₂ with rfl | hdead
  · exact hset
  · rw [← hset]
    exact keeps_setDead hdead hne (hset ▸ hu)

theorem keeps_join (hok : g.joinThread tid = .ok g') (hne : u ≠ tid)
    (hu : (g.threads u).status ≠ .dead) : g'.threads u = g.threads u := by
  unfold joinThread at hok
  obtain ⟨-, hok⟩ := check_bind_eq_ok.mp hok
  dsimp only at hok
  split_ifs at hok
  · cases hok
    rfl
  · obtain ⟨-, hok⟩ := check_bind_eq_ok.mp hok
    obtain ⟨-, hok⟩ := check_bind_eq_ok.mp hok
    have hsame : (g.setThread tid { g.threads tid with status := .dead, userId := 0 }).threads u =
        g.threads u := setThread_of_ne hne
    rw [← hsame]
    exact threads_quarantinePush hok (hsame ▸ hu)

theorem keeps_detach (hok : g.detachThread tid = .ok g') (hne : u ≠ tid)
    (hu : (g.threads u).status ≠ .dead) : g'.threads u = g.threads u := by
  unfold detachThread at hok
  obtain ⟨-, hok⟩ := check_bind_eq_ok.mp hok
  dsimp only at hok
  split_ifs at hok
  · cases hok
    rfl
  · exact keeps_setDead hok hne hu
  · cases hok
    exact setThread_of_ne hne

/-- A call keeps a thread that is alive or waits to be joined, unless it is about that thread. -/
theorem Valid.keeps (h : g.Valid) {c : RegistryCall} (hok : g.step c = .ok g')
    (hc : c.about ≠ some u) (hi : (g.threads u).status ≠ .invalid)
    (hd : (g.threads u).status ≠ .dead) : Keeps g g' u := by
  cases c with
  | create userId detached parentTid =>
    obtain ⟨⟨tid, g₁⟩, hcreate, hok⟩ := bind_eq_ok.mp hok
    cases hok
    exact h.keeps_create hcreate hi
  | start tid =>
    have hne : u ≠ tid := fun heq => hc (congrArg some heq.symm)
    obtain ⟨-, -, rfl⟩ := startThread_eq_ok.mp hok
    exact .of_eq (setThread_of_ne hne)
  | finish tid =>
    have hne : u ≠ tid := fun heq => hc (congrArg some heq.symm)
    exact .of_eq (keeps_finish hok hne hd)
  | join tid =>
    have hne : u ≠ tid := fun heq => hc (congrArg some heq.symm)
    exact .of_eq (keeps_join hok hne hd)
  | detach tid =>
    have hne : u ≠ tid := fun heq => hc (congrArg some heq.symm)
    exact .of_eq (keeps_detach hok hne hd)
  | setUserId tid userId =>
    simp only [ThreadRegistry.step, setThreadUserId, check_bind_eq_ok] at hok
    obtain ⟨-, -, -, -, hok⟩ := hok
    cases hok
    exact .setThread_same rfl rfl
  | consume userId =>
    obtain ⟨⟨found, g₁⟩, hconsume, hok⟩ := bind_eq_ok.mp hok
    cases hok
    unfold consumeTid at hconsume
    split at hconsume
    · cases hconsume
      exact .of_eq rfl
    · cases hconsume
      exact .setThread_same rfl rfl
    · cases hconsume

theorem status_create {userId parentTid : ℕ} {detached : Bool}
    (hok : g.createThread userId detached parentTid = .ok (tid, g')) :
    (g'.threads tid).status = .created := by
  unfold createThread at hok
  obtain ⟨⟨tid', g₁⟩, -, hok⟩ := bind_eq_ok.mp hok
  simp only [check_bind_eq_ok] at hok
  obtain ⟨-, -, -, hok⟩ := hok
  cases hok
  simp

/-- A thread that can be joined waits for it when it has finished. -/
theorem status_finish (hok : g.finishThread tid = .ok g') (hs : (g.threads tid).status = .running)
    (hd : (g.threads tid).detached = false) : (g'.threads tid).status = .finished := by
  obtain ⟨g₁, c, g₂, -, hset, -, rfl⟩ := finishThread_split hok
  obtain ⟨hstatus, -, rfl⟩ := hset hs hd
  simp [setDestroyed, hstatus]

theorem status_join (hok : g.joinThread tid = .ok g') :
    (g.threads tid).status = .invalid ∨ (g.threads tid).status = .finished := by
  unfold joinThread at hok
  obtain ⟨-, hok⟩ := check_bind_eq_ok.mp hok
  dsimp only at hok
  split_ifs at hok with hi
  · exact Or.inl hi
  · simp only [check_bind_eq_ok] at hok
    exact Or.inr hok.2.1

/-- A thread that runs can only be detached by others. -/
theorem Valid.stays_running (h : g.Valid) {c : RegistryCall} (hok : g.step c = .ok g')
    (hc : c ≠ .finish u) (hs : (g.threads u).status = .running) :
    (g'.threads u).status = .running := by
  by_cases habout : c.about = some u
  · cases c with
    | start tid =>
      cases habout
      obtain ⟨-, -, rfl⟩ := startThread_eq_ok.mp hok
      simp
    | finish tid =>
      cases habout
      exact absurd rfl hc
    | join tid =>
      cases habout
      rcases status_join hok with hi | hf
      · cases hs.symm.trans hi
      · cases hs.symm.trans hf
    | detach tid =>
      cases habout
      simp only [ThreadRegistry.step, detachThread, check_bind_eq_ok, hs, reduceCtorEq,
        if_false] at hok
      cases hok.2
      simp
    | create userId detached parentTid => cases habout
    | setUserId tid userId => cases habout
    | consume userId => cases habout
  · rw [(h.keeps hok habout (by simp [hs]) (by simp [hs])).1, hs]

end ThreadRegistry

namespace Sys

variable {s s' : Sys} {acts : List Act} {a : Act} {t u p : ℕ}

/-- The registry is right, and the threads that run are running for it. -/
structure Alive (s : Sys) : Prop where
  registry : s.rtl.registry.OfRuntime
  running : ∀ u, s.live u = true → (s.rtl.registry.threads u).status = .running

theorem registry_startThread {r r' : Rtl} (hok : r.startThread t = .ok r') :
    r.registry.startThread t = .ok r'.registry := by
  obtain ⟨g, r₁, hg, hr₁, rfl⟩ := Rtl.startThread_eq_ok hok
  have hregistry : (r₁.acquireImpl t (threadSync t)).registry = g :=
    (Rtl.registry_clockOp _ _ _).trans (by rw [hr₁])
  exact hg.trans (congrArg Except.ok hregistry.symm)

theorem registry_finishThread {r r' : Rtl} (hok : r.finishThread t = .ok r') :
    r.registry.finishThread t = .ok r'.registry := by
  obtain ⟨g, r₁, -, hg, -, rfl⟩ := Rtl.finishThread_eq_ok hok
  exact hg

theorem Alive.step (h : s.Alive) (hstep : s.step a = .ok s') : s'.Alive := by
  cases a with
  | start t =>
    obtain ⟨r, hstart, rfl⟩ := start_eq_ok hstep
    have hcall := registry_startThread hstart
    refine ⟨h.registry.step (c := .start t) hcall, fun u hu => ?_⟩
    by_cases hut : u = t
    · subst hut
      obtain ⟨-, -, hset⟩ := ThreadRegistry.startThread_eq_ok.mp hcall
      dsimp only
      rw [hset]
      simp
    · refine h.registry.valid.stays_running (c := .start t) hcall (by simp) (h.running u ?_)
      simpa [hut] using hu
  | call t c =>
    obtain ⟨-, -, steps, -, rfl⟩ := call_eq_ok hstep
    exact ⟨h.registry, h.running⟩
  | go t =>
    obtain ⟨q, rest, r, more, -, hexec, rfl⟩ := go_eq_ok hstep
    rcases (Rtl.exec_does hexec).registry with hsame | ⟨c, hc, hcall⟩
    · refine ⟨?_, fun u hu => ?_⟩
      · dsimp only
        rw [hsame]
        exact h.registry
      · dsimp only
        rw [hsame]
        exact h.running u hu
    · refine ⟨h.registry.step hcall, fun u hu => ?_⟩
      refine h.registry.valid.stays_running hcall ?_ (h.running u hu)
      rintro rfl
      cases q <;> cases hc
  | finish t =>
    obtain ⟨-, -, r, hfinish, rfl⟩ := finish_eq_ok hstep
    have hcall := registry_finishThread hfinish
    refine ⟨h.registry.step (c := .finish t) hcall, fun u hu => ?_⟩
    by_cases hut : u = t
    · subst hut
      simp at hu
    · refine h.registry.valid.stays_running (c := .finish t) hcall ?_ (h.running u ?_)
      · rintro hf
        cases hf
        exact hut rfl
      · simpa [hut] using hu

theorem Alive.run (h : s.Alive) (hrun : s.run acts = .ok s') : s'.Alive := by
  induction acts generalizing s with
  | nil =>
    cases hrun
    exact h
  | cons a acts ih =>
    obtain ⟨s₁, hstep, hrun⟩ := ThreadRegistry.bind_eq_ok.mp hrun
    exact ih (h.step hstep) hrun

theorem alive_new : new.Alive := ⟨kept_new.registry, fun _ hu => absurd hu Bool.false_ne_true⟩

/-- The thread is created and has not started, or it has finished and nobody has joined it, and
its clock passes on what was done at the position. -/
structure Waits (st : ThreadStatus) (s : Sys) (u p : ℕ) : Prop where
  status : (s.rtl.registry.threads u).status = st
  published : Published (s.rtl.ops.map ClockOp.sync) (threadSync u) p

variable {st : ThreadStatus}

theorem Waits.step (h : Waits st s u p) (halive : s.Alive) (hst : st = .created ∨ st = .finished)
    (hstart : st = .created → a ≠ .start u)
    (hsteps : ∀ q ∈ s.stepOf a, q ≠ .detachThread u ∧ (st = .finished → q ≠ .joinThread u))
    (hstep : s.step a = .ok s') : Waits st s' u p := by
  have hi : (s.rtl.registry.threads u).status ≠ .invalid := by
    rw [h.status]
    rcases hst with rfl | rfl <;> simp
  have hd : (s.rtl.registry.threads u).status ≠ .dead := by
    rw [h.status]
    rcases hst with rfl | rfl <;> simp
  have hkeeps : ∀ {g : ThreadRegistry} {c : RegistryCall}, s.rtl.registry.step c = .ok g →
      c.about ≠ some u → (g.threads u).status = st := fun hcall hc =>
    (halive.registry.valid.keeps hcall hc hi hd).1.trans h.status
  cases a with
  | start t =>
    obtain ⟨r, hok, rfl⟩ := start_eq_ok hstep
    have hne : t ≠ u := by
      rintro rfl
      obtain ⟨-, hs, -⟩ := ThreadRegistry.startThread_eq_ok.mp (registry_startThread hok)
      exact hstart (h.status.symm.trans hs) rfl
    refine ⟨hkeeps (c := .start t) (registry_startThread hok) fun hc => hne (Option.some.inj hc),
      ?_⟩
    refine Rtl.published_emits h.published (Rtl.startThread_does hok).1 fun hc => hne ?_
    unfold threadSync at hc
    omega
  | call t c =>
    obtain ⟨-, -, steps, -, rfl⟩ := call_eq_ok hstep
    exact ⟨h.status, h.published⟩
  | go t =>
    obtain ⟨q, rest, r, more, htodo, hexec, rfl⟩ := go_eq_ok hstep
    obtain ⟨hdetach, hjoin⟩ := hsteps q (by simp [stepOf, htodo])
    have hnojoin : q ≠ .joinThread u := by
      rintro rfl
      rcases hst with rfl | rfl
      · obtain ⟨r₁, hl, -⟩ := ThreadRegistry.bind_eq_ok.mp hexec
        obtain ⟨g, hg, -⟩ := Rtl.joinThread_eq_ok hl
        rcases ThreadRegistry.status_join hg with hs | hs
        · cases h.status.symm.trans hs
        · cases h.status.symm.trans hs
      · exact hjoin rfl rfl
    have hd := Rtl.exec_does hexec
    refine ⟨?_, Rtl.published_emits h.published hd.emits ?_⟩
    · rcases hd.registry with hsame | ⟨c, hc, hcall⟩
      · dsimp only
        rw [hsame]
        exact h.status
      · refine hkeeps hcall fun habout => ?_
        cases q <;> cases hc <;> cases habout
        · exact hnojoin rfl
        · exact hdetach rfl
    · intro hc
      cases q <;> simp only [RtlStep.Clears, clockOf, readClockOf, threadSync] at hc
      case joinThread tid => exact hnojoin (by rw [show tid = u by omega])
      case detachThread tid => exact hdetach (by rw [show tid = u by omega])
      case freeRange addr size =>
        obtain ⟨i, -, hc⟩ := hc
        omega
      all_goals omega
  | finish t =>
    obtain ⟨hlive, -, r, hok, rfl⟩ := finish_eq_ok hstep
    have hne : t ≠ u := by
      rintro rfl
      have hs := halive.running t hlive
      rw [h.status] at hs
      rcases hst with rfl | rfl <;> cases hs
    exact ⟨hkeeps (c := .finish t) (registry_finishThread hok) fun hc => hne (Option.some.inj hc),
      Rtl.published_emits h.published (Rtl.finishThread_does hok).1 id⟩

theorem Waits.run (h : Waits st s u p) (halive : s.Alive) (hst : st = .created ∨ st = .finished)
    (hstart : st = .created → .start u ∉ acts)
    (hsteps : ∀ q ∈ s.steps acts, q ≠ .detachThread u ∧ (st = .finished → q ≠ .joinThread u))
    (hrun : s.run acts = .ok s') : Waits st s' u p := by
  induction acts generalizing s with
  | nil =>
    cases hrun
    exact h
  | cons a acts ih =>
    obtain ⟨s₁, hstep, hrun⟩ := ThreadRegistry.bind_eq_ok.mp hrun
    simp only [Sys.steps, hstep] at hsteps
    have hfirst := h.step halive hst (fun hc ha => hstart hc (ha ▸ List.mem_cons_self))
      (fun q hq => hsteps q (List.mem_append_left _ hq)) hstep
    exact ih hfirst (halive.step hstep) (fun hc hmem => hstart hc (List.mem_cons_of_mem a hmem))
      (fun q hq => hsteps q (List.mem_append_right _ hq)) hrun

section Lives

variable {s₀ s₁ s₂ s₃ : Sys} {before rest : List Act} {q userId : ℕ} {detached : Bool}
    {todo : List RtlStep}

/-- What a thread does comes after all that its creator did before, as long as nobody detaches it
before it starts. -/
theorem created_before_started (h₀ : new.run before = .ok s₀) (hsync : s₀.rtl.ignoreSync t = 0)
    (htodo : s₀.todo t = .createThread userId detached :: todo) (hcreate : s₀.step (.go t) = .ok s₁)
    (hwait : s₁.todo t = .waitStarted u :: todo) (hrun : s₁.run acts = .ok s₂)
    (hfirst : .start u ∉ acts)
    (hdetach : .detachThread u ∉ s₁.steps acts) (hstart : s₂.step (.start u) = .ok s₃)
    (hrest : s₃.run rest = .ok s) (hp : s₀.Prints t p) (hq : s.Prints u q)
    (hlate : s₃.rtl.ops.length ≤ q) :
    RunsBefore s.rtl.ops p q := by
  have halive := alive_new.run h₀
  have hwaits : Waits .created s₁ u p := by
    obtain ⟨x, rest', r, more, htodo', hexec, rfl⟩ := go_eq_ok hcreate
    obtain ⟨rfl, rfl⟩ := List.cons.inj (htodo.symm.trans htodo')
    obtain ⟨⟨tid, r₁⟩, hl, hexec⟩ := ThreadRegistry.bind_eq_ok.mp hexec
    obtain ⟨hne, hexec⟩ := ThreadRegistry.check_bind_eq_ok.mp hexec
    cases hexec
    have hu : tid = u := by simpa using hwait
    subst hu
    obtain ⟨g, hg, rfl⟩ := Rtl.createThread_eq_ok hl
    have hs := ThreadRegistry.status_create hg
    rw [if_neg hne]
    refine ⟨?_, Rtl.publishes_releaseImpl
      (r := ({ s₀.rtl with registry := g } : Rtl).incrementEpoch t) hp.sees hsync _⟩
    rw [Rtl.releaseImpl, Rtl.registry_clockOp]
    exact ThreadRegistry.status_create hg
  have hstill := hwaits.run (halive.step hcreate) (Or.inl rfl) (fun _ => hfirst)
    (fun x hx => ⟨fun heq => hdetach (heq ▸ hx), by simp⟩) hrun
  obtain ⟨r, hok, rfl⟩ := start_eq_ok hstart
  obtain ⟨g, r₁, -, hr₁, rfl⟩ := Rtl.startThread_eq_ok hok
  refine Sees.runsBefore ?_ hrest hq hlate
  have hpublished : Published (r₁.ops.map ClockOp.sync) (threadSync u) p := by
    rw [hr₁]
    exact hstill.published
  have hseen :=
    Rtl.sees_acquireImpl (t := u) hpublished (by rw [hr₁]; exact Function.update_self _ _ _)
  unfold Sees
  dsimp only [Rtl.resetClock]
  rw [List.map_append]
  exact hseen.append _

theorem created_before_started_sample : ∃ s₀ s₁ s₃ s, new.run sampleCreate = .ok s₀ ∧
    s₀.step (.go 0) = .ok s₁ ∧ s₁.step (.start 1) = .ok s₃ ∧
    s₃.run ([.go 0, .go 0] ++ sampleWrite 1) = .ok s ∧ RunsBefore s.rtl.ops 3 9 := by
  obtain ⟨s₀, s₁, s₃, s, todo, h₀, h₁, h₃, h, hsync, htodo, hwait, hlength, ⟨b, hb, hbt⟩, c, hc,
      hct⟩ : ∃ s₀ s₁ s₃ s todo, new.run sampleCreate = .ok s₀ ∧ s₀.step (.go 0) = .ok s₁ ∧
        s₁.step (.start 1) = .ok s₃ ∧ s₃.run ([.go 0, .go 0] ++ sampleWrite 1) = .ok s ∧
        s₀.rtl.ignoreSync 0 = 0 ∧ s₀.todo 0 = .createThread 7 false :: todo ∧
        s₁.todo 0 = .waitStarted 1 :: todo ∧ s₃.rtl.ops.length = 9 ∧
        (∃ b, s₀.rtl.ops[3]? = some (.print (.access b)) ∧ b.tid = 0) ∧
        ∃ c, s.rtl.ops[9]? = some (.print (.access c)) ∧ c.tid = 1 :=
    ⟨_, _, _, _, _, rfl, rfl, rfl, rfl, rfl, rfl, rfl, rfl, ⟨_, rfl, rfl⟩, _, rfl, rfl⟩
  have hnone : s₁.run [] = .ok s₁ := rfl
  refine ⟨s₀, s₁, s₃, s, h₀, h₁, h₃, h, ?_⟩
  exact created_before_started h₀ hsync htodo h₁ hwait hnone (by simp)
    (by simp [Sys.steps]) h₃ h ⟨_, hb, hbt⟩ ⟨_, hc, hct⟩ hlength.le

/-- What a thread did comes before all that is done by whoever joins it. -/
theorem finished_before_joined (h₀ : new.run before = .ok s₀)
    (hjoinable : (s₀.rtl.registry.threads u).detached = false)
    (hfinish : s₀.step (.finish u) = .ok s₁)
    (hrun : s₁.run acts = .ok s₂) (hsteps : ∀ x ∈ s₁.steps acts, x ≠ .detachThread u ∧
      x ≠ .joinThread u)
    (hsync : s₂.rtl.ignoreSync t = 0) (htodo : s₂.todo t = .joinThread u :: todo)
    (hjoin : s₂.step (.go t) = .ok s₃) (hrest : s₃.run rest = .ok s) (hp : s₀.Prints u p)
    (hq : s.Prints t q)
    (hlate : s₃.rtl.ops.length ≤ q) : RunsBefore s.rtl.ops p q := by
  have halive := alive_new.run h₀
  have hwaits : Waits .finished s₁ u p := by
    obtain ⟨hlive, -, r, hok, rfl⟩ := finish_eq_ok hfinish
    refine ⟨ThreadRegistry.status_finish (registry_finishThread hok) (halive.running u hlive)
      hjoinable, ?_⟩
    obtain ⟨g, r₁, hzero, -, rfl, rfl⟩ := Rtl.finishThread_eq_ok hok
    dsimp only
    rw [hjoinable]
    exact Rtl.publishes_releaseImpl (r := s₀.rtl.incrementEpoch u) hp.sees hzero _
  have hstill := hwaits.run (halive.step hfinish) (Or.inr rfl) (by simp)
    (fun x hx => ⟨(hsteps x hx).1, fun _ => (hsteps x hx).2⟩) hrun
  obtain ⟨x, rest', r, more, htodo', hexec, rfl⟩ := go_eq_ok hjoin
  obtain ⟨rfl, rfl⟩ := List.cons.inj (htodo.symm.trans htodo')
  obtain ⟨r₁, hl, hexec⟩ := ThreadRegistry.bind_eq_ok.mp hexec
  cases hexec
  obtain ⟨g, -, ⟨hinvalid, -⟩ | rfl⟩ := Rtl.joinThread_eq_ok hl
  · cases hinvalid.symm.trans hstill.status
  · refine Sees.runsBefore ?_ hrest hq hlate
    have hseen := Rtl.sees_acquireImpl (r := { s₂.rtl with registry := g }) hstill.published hsync
    unfold Sees
    dsimp only [Rtl.resetClock]
    rw [List.map_append]
    exact hseen.append _

theorem finished_before_joined_sample :
    ∃ s₀ s₁ s₂ s₃ s, new.run (sampleCreate ++ sampleStart ++ sampleWrite 1) = .ok s₀ ∧
      s₀.step (.finish 1) = .ok s₁ ∧ s₁.run sampleJoin = .ok s₂ ∧ s₂.step (.go 0) = .ok s₃ ∧
      s₃.run (.go 0 :: sampleWrite 0) = .ok s ∧ RunsBefore s.rtl.ops 9 15 := by
  obtain ⟨s₀, s₁, s₂, s₃, s, todo, h₀, h₁, h₂, h₃, h, hjoinable, hsteps, hsync, htodo, hlength,
      ⟨b, hb, hbt⟩, c, hc, hct⟩ :
      ∃ s₀ s₁ s₂ s₃ s todo, new.run (sampleCreate ++ sampleStart ++ sampleWrite 1) = .ok s₀ ∧
        s₀.step (.finish 1) = .ok s₁ ∧ s₁.run sampleJoin = .ok s₂ ∧ s₂.step (.go 0) = .ok s₃ ∧
        s₃.run (.go 0 :: sampleWrite 0) = .ok s ∧ (s₀.rtl.registry.threads 1).detached = false ∧
        s₁.steps sampleJoin = [.incrementEpoch, .consumeTid 7 false] ∧ s₂.rtl.ignoreSync 0 = 0 ∧
        s₂.todo 0 = .joinThread 1 :: todo ∧ s₃.rtl.ops.length = 15 ∧
        (∃ b, s₀.rtl.ops[9]? = some (.print (.access b)) ∧ b.tid = 1) ∧
        ∃ c, s.rtl.ops[15]? = some (.print (.access c)) ∧ c.tid = 0 :=
    ⟨_, _, _, _, _, _, rfl, rfl, rfl, rfl, rfl, rfl, rfl, rfl, rfl, rfl, ⟨_, rfl, rfl⟩, _, rfl, rfl⟩
  refine ⟨s₀, s₁, s₂, s₃, s, h₀, h₁, h₂, h₃, h, ?_⟩
  exact finished_before_joined h₀ hjoinable h₁ h₂
    (by simp [hsteps]) hsync htodo h₃ h ⟨_, hb, hbt⟩ ⟨_, hc, hct⟩
    hlength.le

end Lives

end Sys

end Prd.Runtime
