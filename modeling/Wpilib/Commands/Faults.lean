import Wpilib.Commands.Removal
import Wpilib.Commands.Telemetry

/-!
# Commands — which user code can stop a tick

A call into the scheduler fails in one of three ways: it locks
`m_additionsMutex` again, the command loop uses an erased iterator, or nested
`Remove` runs past its fuel, which never happens (`Fuel.lean`). Where the
scheduler runs each hook decides which user code can cause the first two.

`m_additionsMutex` is held only by the additions block of `Run`. The only
user code that block runs is `Removed`: of each command an admission
displaces, and of what those hooks remove in turn. So a `Removed` hook that
calls `AddCommand` is the one way to lock the mutex again
(`drainAdditions_deadlock`). Without one, no sequence of entry points
deadlocks, whichever of the modelled calls the other hooks make
(`execAll_ne_deadlock`).

The command loop runs `Run` and `Removed` hooks. The button and `Periodic`
loops run before it, with the mutex free, so their user code may make any of
the modelled calls. A tick returns whenever the `Run` hooks call only
`AddCommand` and `Cancel` and the `Removed` hooks only `Cancel`
(`run_completes_any_triggers`).

The modelled calls are the four a hook's user code makes into the scheduler
here (`Action`): `AddCommand`, `Cancel`, `Remove` and `RemoveAll`. Hook calls
of `AddButton` and `Run` are outside these results: `Run` holds
`m_buttonsMutex` around the button loop and `AddButton` locks it, so a trigger
that calls `AddButton` would deadlock on that mutex, which the model does not
have.

`Within E L x` (`Removal.lean`) says that `x` fails only with a fault `E`
allows, and leaves the mutex as `L` when it returns. Each loop of `Run` gets
one lemma, for every `E` that allows running out of fuel.
-/

namespace Wpilib.Commands

section Phases

variable {w : Registry} {h : Hooks} {E : Fault → Prop} (hE : E .outOfFuel)
include hE

/-- With the mutex free, any hook's calls. -/
theorem perform_within (as : List Action) {s : State} (hl : s.additionsLocked = false) :
    Within E false (perform w h as s) :=
  performWith_within (fun c _ hl => remove_within hE (L := false) (fun h => nomatch h) c hl)
    (fun _ hl => removeAll_within hE (L := false) (fun h => nomatch h) hl) as s (fun _ _ _ => rfl) hl

theorem pollButtons_within : ∀ (bs : List ButtonScheduler) (s : State),
    s.additionsLocked = false → Within E false (pollButtons w h bs s)
  | [], _, hl => hl
  | _ :: bs, _, hl => by
    rw [pollButtons]
    exact Within.bind (perform_within hE _ hl) fun t ht => pollButtons_within bs t ht

theorem callPeriodic_within : ∀ (subs : List Subsystem) (s : State),
    s.additionsLocked = false → Within E false (callPeriodic w h subs s)
  | [], _, hl => hl
  | _ :: subs, _, hl => by
    rw [callPeriodic]
    exact Within.bind (perform_within hE _ hl) fun t ht => callPeriodic_within subs t ht

theorem stepCommand_within (c : Command) {s : State} (hl : s.additionsLocked = false) :
    Within E false (stepCommand w h c s) := by
  unfold stepCommand
  refine Within.bind (perform_within hE _ hl) fun t ht => ?_
  split
  · exact ht
  · exact (remove_within hE (L := false) (fun h => nomatch h) _ ht).bind fun _ hu => hu

theorem stepCommands_within (hI : E .invalidIterator) :
    ∀ (cs : List Command) (it : Option Command) (s : State), s.additionsLocked = false →
      Within E false (stepCommands w h cs it s)
  | [], _, _, hl => hl
  | c :: cs, it, s, hl => by
    unfold stepCommands
    split_ifs
    · exact stepCommands_within hI cs it s hl
    · exact (stepCommand_within hE c hl).bind fun t ht => stepCommands_within hI cs _ t ht
    · exact hI

/-- An admission, with the mutex free, or held while no `Removed` hook calls
`AddCommand`. -/
theorem processCommandAddition_within {L : Bool}
    (hR : L = true → ∀ st d, ∀ a ∈ h.removed st d, a.isAddCommand = false) (c : Option Command)
    {s : State} (hl : s.additionsLocked = L) : Within E L (processCommandAddition w h c s) := by
  unfold processCommandAddition
  split
  · exact hl
  · split_ifs
    · exact hl
    · exact hl
    · exact hl
    · exact Within.bind (giveRequirements_within hE hR _ _ _ hl) fun _ ht => ht

theorem processAdditions_within {L : Bool}
    (hR : L = true → ∀ st d, ∀ a ∈ h.removed st d, a.isAddCommand = false) :
    ∀ (q : List (Option Command)) (s : State), s.additionsLocked = L →
      Within E L (processAdditions w h q s)
  | [], _, hl => hl
  | c :: q, _, hl => (processCommandAddition_within hE hR c hl).bind fun t ht =>
    processAdditions_within hR q t ht

/-- The additions block admits the queue with the mutex held, and frees it. -/
theorem drainAdditions_within (hR : ∀ st d, ∀ a ∈ h.removed st d, a.isAddCommand = false)
    (s : State) : Within E false (drainAdditions w h s) :=
  (processAdditions_within hE (L := true) (fun _ => hR) s.additions _ rfl).bind fun _ _ => rfl

theorem addDefaults_within : ∀ (subs : List Subsystem) (s : State),
    s.additionsLocked = false → Within E false (addDefaults w h subs s)
  | [], _, hl => hl
  | lock :: subs, s, hl => by
    refine Within.bind ?_ fun t ht => addDefaults_within subs _ ht
    split
    · exact processCommandAddition_within hE (L := false) (fun h => nomatch h) _ hl
    · exact hl

/-- `Run` up to the default-command loop, when the command loop's iterator
fault is allowed. -/
theorem runPhases_within (hI : E .invalidIterator)
    (hR : ∀ st d, ∀ a ∈ h.removed st d, a.isAddCommand = false) {s : State}
    (hl : s.additionsLocked = false) : Within E false (runPhases w h s) :=
  Within.bind (pollButtons_within hE _ s hl) fun t ht =>
    Within.bind (callPeriodic_within hE _ t ht) fun _ hu =>
      Within.bind (stepCommands_within hE hI _ _ _ hu) fun v _ => drainAdditions_within hE hR v

end Phases

/-! ## Deadlock -/

section Deadlock

variable {w : Registry} {h : Hooks}
variable (hR : ∀ st d, ∀ a ∈ h.removed st d, a.isAddCommand = false)
include hR

/-- A call that does not deadlock, and that leaves `m_additionsMutex` as `L`
when it returns. -/
abbrev NoDeadlock (L : Bool) : Except Fault State → Prop := Within (· ≠ .deadlock) L

theorem run_noDeadlock {s : State} (hl : s.additionsLocked = false) :
    NoDeadlock false (run w h s) := by
  unfold run
  split
  · have hE : Fault.outOfFuel ≠ .deadlock := fun h => nomatch h
    exact Within.bind (runPhases_within hE (fun h => nomatch h) hR hl) fun x hx =>
      addDefaults_within hE _ x hx
  · exact hl

theorem exec_noDeadlock (op : Op) {s : State} (hl : s.additionsLocked = false) :
    NoDeadlock false (exec w h op s) := by
  cases op with
  | registerSubsystem sub => cases sub <;> exact hl
  | addCommand c => exact addCommand_within c hl
  | addButton | setEnabled | requestCancel => exact hl
  | run => exact run_noDeadlock hR hl
  | remove c => exact remove_within (fun h => nomatch h) (fun _ => hR) c hl
  | removeAll => exact removeAll_within (fun h => nomatch h) (fun _ => hR) hl
  | updateTable => exact (updateTable_additionsLocked s).trans hl

theorem execAll_noDeadlock : ∀ (ops : List Op) (s : State), s.additionsLocked = false →
    NoDeadlock false (execAll w h ops s)
  | [], _, hl => hl
  | op :: ops, _, hl => (exec_noDeadlock hR op hl).bind fun t ht => execAll_noDeadlock ops t ht

omit hR in
/-- **Only a `Removed` hook that calls `AddCommand` deadlocks the scheduler.**
When no `Removed` hook's user code calls `AddCommand`, no sequence of entry
points from a state with `m_additionsMutex` free deadlocks, with hooks that
make the modelled calls: `Execute`, `Periodic` and `Run` hooks any of
`AddCommand`, `Cancel`, `Remove` and `RemoveAll`, and `Removed` hooks
`Cancel`, `Remove` and `RemoveAll`, nested to any depth. -/
theorem execAll_ne_deadlock (hR : ∀ st d, ∀ a ∈ h.removed st d, a.isAddCommand = false)
    (ops : List Op) {s : State} (hl : s.additionsLocked = false) :
    execAll w h ops s ≠ .error .deadlock :=
  (execAll_noDeadlock hR ops s hl).ne_error fun h => h rfl

end Deadlock

/-- Commands `3` and `4` start, then the additions block admits `5`, which
displaces `3`, whose `Removed` hook removes `4` with the mutex held: nothing
deadlocks. -/
theorem execAll_ne_deadlock_pairRun :
    (∀ st d, ∀ a ∈ removingHooks.removed st d, a.isAddCommand = false) ∧
      State.init.additionsLocked = false ∧
      execAll pairRegistry removingHooks pairRun State.init ≠ .error .deadlock :=
  have hR : ∀ st d, ∀ a ∈ removingHooks.removed st d, a.isAddCommand = false := fun _ d a ha => by
    simp only [removingHooks] at ha
    split at ha
    · rw [List.mem_singleton.1 ha]; rfl
    · exact absurd ha (List.not_mem_nil a)
  ⟨hR, rfl, execAll_ne_deadlock hR pairRun rfl⟩

/-! ## Ticks that return -/

section Returns

variable {w : Registry} {h : Hooks}

/-- **Triggers and `Periodic` may make any of the modelled calls.** From any
state with `m_additionsMutex` free, a tick returns when the `Run` hooks' user
code calls only `AddCommand` and `Cancel` and the `Removed` hooks' only
`Cancel`, whichever of `AddCommand`, `Cancel`, `Remove` and `RemoveAll` the
`Execute` and `Periodic` hooks call. Both loops run before the command loop
and with the mutex free, so their calls neither deadlock nor invalidate its
iterator. -/
theorem run_completes_any_triggers (hRun : ∀ st c, ∀ a ∈ (h.run st c).1, a.Tame)
    (hC : ∀ st d, ∀ a ∈ h.removed st d, a.Allowed true) {s : State}
    (hl : s.additionsLocked = false) : ∃ t, run w h s = .ok t := by
  have hR : ∀ st d, ∀ a ∈ h.removed st d, a.Tame := fun st d a ha => (hC st d a ha).1
  have hA : ∀ st d, ∀ a ∈ h.removed st d, a.isAddCommand = false :=
    fun st d a ha => Bool.eq_false_iff.2 fun hadd => nomatch (hC st d a ha).2 hadd
  unfold run
  split
  · obtain ⟨t₁, h₁, hl₁⟩ := (pollButtons_within (w := w) (h := h) (E := (· = .outOfFuel)) rfl
      s.buttons.reverse s hl).returns (pollButtons_ne_outOfFuel _ s)
    obtain ⟨t₂, h₂, hl₂⟩ := (callPeriodic_within (w := w) (h := h) (E := (· = .outOfFuel)) rfl
      t₁.subsystems.toList t₁ hl₁).returns (callPeriodic_ne_outOfFuel _ t₁)
    obtain ⟨t₃, h₃⟩ := stepEach_ok hRun hR (w := w) _
      (s := { t₂ with runningCommandsChanged := false }) hl₂
    rw [← stepCommands_eq_stepEach hRun hR _ [] _ rfl] at h₃
    obtain ⟨t₄, h₄, hl₄⟩ := (drainAdditions_within (E := (· = .outOfFuel)) rfl hA t₃).returns
      (ne_outOfFuel_bind (processAdditions_ne_outOfFuel _ _) fun _ _ => ok_ne_outOfFuel _)
    obtain ⟨t₅, h₅, -⟩ := (addDefaults_within (E := (· = .outOfFuel)) rfl _ t₄ hl₄).returns
      (addDefaults_ne_outOfFuel _ t₄)
    exact ⟨t₅, by simp only [runPhases, h₁, h₂, ok_bind]; rw [h₃, ok_bind, h₄, ok_bind, h₅]⟩
  · exact ⟨s, rfl⟩

end Returns

/-- Every trigger's user code calls `RemoveAll`, as a button that stops every
command would. -/
def sweepingHooks : Hooks := { quietHooks with execute := fun _ _ => [.removeAll] }

/-- Command `3` runs; a trigger that calls `RemoveAll` is added and command
`4` queued. The next tick's trigger removes `3`, and the drain admits `4`. -/
theorem run_completes_any_triggers_sweep :
    (∀ st c, ∀ a ∈ (sweepingHooks.run st c).1, a.Tame) ∧
      (∀ st d, ∀ a ∈ sweepingHooks.removed st d, a.Allowed true) ∧
      ∃ s, execAll pairRegistry sweepingHooks
          [.addCommand (some 3), .run, .addButton 7, .addCommand (some 4)] State.init = .ok s ∧
        s.commands.toList = [3] ∧
        (run pairRegistry sweepingHooks s).map (·.commands.toList) = .ok [4] ∧
        s.additionsLocked = false ∧ ∃ t, run pairRegistry sweepingHooks s = .ok t :=
  have hRun : ∀ st c, ∀ a ∈ (sweepingHooks.run st c).1, a.Tame :=
    fun _ _ _ h => (List.not_mem_nil _ h).elim
  have hC : ∀ st d, ∀ a ∈ sweepingHooks.removed st d, a.Allowed true :=
    fun _ _ _ h => (List.not_mem_nil _ h).elim
  ⟨hRun, hC, _, rfl, rfl, rfl, rfl, run_completes_any_triggers hRun hC rfl⟩

end Wpilib.Commands
