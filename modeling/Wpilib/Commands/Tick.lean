import Wpilib.Commands.StepPhase

/-!
# Commands — a whole tick of `Run`

`Run` takes `m_additionsMutex` for the additions drain, and an admission in the
drain displaces the holders of the new command's requirements through
`Remove`, whose `Removed` hook runs with the mutex held. When the `Removed`
hooks call only `Cancel`, every tick from a reachable state returns
(`run_completes`). A `Removed` hook that starts a command locks the mutex a
second time from the same thread, and the tick deadlocks
(`drainAdditions_deadlock`).
-/

namespace Wpilib.Commands

section

variable {w : Registry} {h : Hooks}

/-! ## Each phase returns -/

theorem pollButtons_ok (hE : ∀ st b, ∀ a ∈ h.execute st b, a.Tame) :
    ∀ (bs : List ButtonScheduler) (s : State), s.additionsLocked = false →
      ∃ t, pollButtons w h bs s = .ok t
  | [], s, _ => ⟨s, rfl⟩
  | b :: bs, s, hl => by
    have hA : ∀ a ∈ h.execute (s.record (.execute b)) b, a.Allowed (s.record (.execute b)).additionsLocked :=
      fun a ha => ⟨hE _ b a ha, fun _ => hl⟩
    rw [pollButtons, perform, performWith_allowed _ hA, ok_bind]
    exact pollButtons_ok hE bs _ hl

theorem callPeriodic_ok (hP : ∀ st sub, ∀ a ∈ h.periodic st sub, a.Tame) :
    ∀ (subs : List Subsystem) (s : State), s.additionsLocked = false →
      ∃ t, callPeriodic w h subs s = .ok t
  | [], s, _ => ⟨s, rfl⟩
  | sub :: subs, s, hl => by
    have hA : ∀ a ∈ h.periodic (s.record (.periodic sub)) sub,
        a.Allowed (s.record (.periodic sub)).additionsLocked :=
      fun a ha => ⟨hP _ sub a ha, fun _ => hl⟩
    rw [callPeriodic, perform, performWith_allowed _ hA, ok_bind]
    exact callPeriodic_ok hP subs _ hl

/-- Admissions return when the `Removed` hooks call only `Cancel`, whatever the
state of the mutex. -/
theorem processCommandAddition_returns (hC : ∀ st d, ∀ a ∈ h.removed st d, a.Allowed true)
    {L : Bool} (c : Option Command) {s : State} (hi : Invariant w L s) :
    ∃ t, processCommandAddition w h c s = .ok t ∧ Invariant w L t := by
  have hR : ∀ st d, ∀ a ∈ h.removed st d, a.Tame := fun st d a ha => (hC st d a ha).1
  obtain ⟨t, ht⟩ : ∃ t, processCommandAddition w h c s = .ok t := by
    cases c with
    | none => exact ⟨s, rfl⟩
    | some c =>
      exact processCommandAddition_ok fun st d a ha => ⟨(hC st d a ha).1, fun hadd => by
        simpa using (hC st d a ha).2 hadd⟩
  exact ⟨t, ht, processCommandAddition_invariant hR hi ht⟩

theorem processAdditions_ok (hC : ∀ st d, ∀ a ∈ h.removed st d, a.Allowed true) {L : Bool} :
    ∀ (q : List (Option Command)) (s : State), Invariant w L s →
      ∃ t, processAdditions w h q s = .ok t
  | [], s, _ => ⟨s, rfl⟩
  | c :: q, s, hi => by
    obtain ⟨u, hu, hiu⟩ := processCommandAddition_returns hC c hi
    rw [processAdditions, hu, ok_bind]
    exact processAdditions_ok hC q u hiu

theorem addDefaults_ok (hC : ∀ st d, ∀ a ∈ h.removed st d, a.Allowed true) {L : Bool} :
    ∀ (subs : List Subsystem) (s : State), Invariant w L s →
      ∃ t, addDefaults w h subs s = .ok t
  | [], s, _ => ⟨s, rfl⟩
  | sub :: subs, s, hi => by
    obtain ⟨u, hu, hiu⟩ : ∃ u, (if s.currentCommand sub = none then
        processCommandAddition w h (w.defaultCommand sub) s else .ok s) = .ok u ∧ Invariant w L u := by
      split
      · exact processCommandAddition_returns hC _ hi
      · exact ⟨s, rfl, hi⟩
    rw [addDefaults, hu, ok_bind]
    exact addDefaults_ok hC subs _ (hiu.record (e := .confirmCommand sub) rfl)

/-! ## The tick -/

/-- A tick returns from any state with the invariant when all hooks call only
`AddCommand` and `Cancel` and the `Removed` hooks call only `Cancel`. -/
theorem run_returns (hT : h.Tame) (hC : ∀ st d, ∀ a ∈ h.removed st d, a.Allowed true)
    {s : State} (hi : Invariant w false s) : ∃ t, run w h s = .ok t := by
  unfold run
  split
  · obtain ⟨t₁, h₁⟩ := pollButtons_ok hT.execute s.buttons.reverse s hi.mutex
    have hi₁ := pollButtons_invariant hT.removed _ hi h₁
    obtain ⟨t₂, h₂⟩ := callPeriodic_ok hT.periodic t₁.subsystems.toList t₁ hi₁.mutex
    have hi₂ := (callPeriodic_invariant hT.removed _ hi₁ h₂).changed false
    obtain ⟨t₃, h₃⟩ := stepEach_ok hT.run hT.removed _ hi₂.mutex
    rw [← stepCommands_eq_stepEach hT.run hT.removed _ [] _ rfl] at h₃
    have hi₃ := stepCommands_invariant hT.removed _ _ hi₂ h₃
    obtain ⟨t₄, h₄⟩ := processAdditions_ok hC t₃.additions _ (hi₃.lock true)
    have hi₄ := ((processAdditions_invariant hT.removed _ (hi₃.lock true) h₄).additions []).lock false
    obtain ⟨t₅, h₅⟩ := addDefaults_ok hC t₄.subsystems.toList _ hi₄
    refine ⟨t₅, ?_⟩
    simp only [runPhases, h₁, h₂, ok_bind]
    rw [h₃, ok_bind, drainAdditions, h₄, ok_bind, ok_bind]
    exact h₅
  · exact ⟨s, rfl⟩

/-- **Every tick returns** from a reachable state when all hooks call only
`AddCommand` and `Cancel` and the `Removed` hooks call only `Cancel`. -/
theorem run_completes (hT : h.Tame) (hC : ∀ st d, ∀ a ∈ h.removed st d, a.Allowed true)
    {s : State} (hr : Reachable w h s) : ∃ t, run w h s = .ok t :=
  run_returns hT hC (hr.invariant hT.removed)

end

/-- Command `3`'s `Removed` hook starts command `4`, as an `Interrupted` that
restarts a fallback would. -/
def restartingHooks : Hooks :=
  { quietHooks with removed := fun _ c => if c = 3 then [.addCommand (some 4)] else [] }

theorem quietHooks_tame : quietHooks.Tame :=
  ⟨fun _ _ _ h => (List.not_mem_nil _ h).elim, fun _ _ _ h => (List.not_mem_nil _ h).elim,
    fun _ _ _ h => (List.not_mem_nil _ h).elim, fun _ _ _ h => (List.not_mem_nil _ h).elim⟩

theorem run_completes_pairRun :
    ∃ s, execAll pairRegistry quietHooks pairRun State.init = .ok s ∧
      ∃ t, run pairRegistry quietHooks s = .ok t :=
  ⟨_, rfl, run_completes quietHooks_tame (fun _ _ _ h => (List.not_mem_nil _ h).elim)
    (Reachable.of_execAll pairRun .init rfl)⟩

/-- **A `Removed` hook that starts a command deadlocks the drain.** Command `3`
runs holding subsystem `1`; command `5`, which requires `1`, is queued. The
next tick's drain displaces `3`, whose `Removed` hook calls `AddCommand` while
the drain holds `m_additionsMutex`. All hooks call only `AddCommand` and
`Cancel`. -/
theorem drainAdditions_deadlock :
    restartingHooks.Tame ∧
      ∃ s, execAll pairRegistry restartingHooks
          [.addCommand (some 3), .run, .addCommand (some 5)] State.init = .ok s ∧
        s.commands.toList = [3] ∧ s.additions = [some 5] ∧
        run pairRegistry restartingHooks s = .error .deadlock :=
  ⟨⟨fun _ _ _ h => (List.not_mem_nil _ h).elim, fun _ _ _ h => (List.not_mem_nil _ h).elim,
    fun _ _ _ h => (List.not_mem_nil _ h).elim, fun _ c a h => by
      simp only [restartingHooks] at h
      split at h
      · rw [List.mem_singleton.1 h]; trivial
      · exact (List.not_mem_nil _ h).elim⟩,
    _, rfl, rfl, rfl, rfl⟩

end Wpilib.Commands
