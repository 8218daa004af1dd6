import Wpilib.Commands.UserCode
import Wpilib.Commands.Telemetry

/-!
# Commands — the queue `m_additions`

`AddCommand` appends a command to `m_additions` only when `std::find` does not
find it there, and nothing else of the scheduler adds to the queue: the
additions block of `Run` empties it, and every other call leaves it alone. So
whatever the hooks' user code calls, no state a fresh scheduler reaches has a
command queued twice (`Reachable.additions_nodup`), which is what the queue
lemmas of `Priority.lean` need of the queue a tick starts from.

Each loop keeps the property through the loop rules of `Calls.lean`; what a
hook's calls do is covered once, by `Stable`.
-/

namespace Wpilib.Commands

section

variable {w : Registry} {h : Hooks}

/-- `AddCommand` appends only a command that is not queued. -/
theorem addCommand_nodup {c : Option Command} {s t : State} (hs : s.additions.Nodup)
    (he : addCommand c s = .ok t) : t.additions.Nodup := by
  unfold addCommand at he
  split_ifs at he with hl hc
  · cases he; exact hs
  · cases he
    exact List.nodup_append.2 ⟨hs, List.nodup_singleton c, fun x hx hy => hc (by simp_all)⟩

/-- A hook's calls never queue a command twice. -/
theorem nodup_stable (w : Registry) : Stable w fun s => s.additions.Nodup where
  addCommand _ _ _ hs he := addCommand_nodup hs he
  null _ hs := hs
  erase _ _ _ hs := by simpa using hs

theorem giveRequirements_nodup (c : Command) : ∀ (reqs : List Subsystem) {s t : State},
    s.additions.Nodup → giveRequirements w h c reqs s = .ok t → t.additions.Nodup
  | [], _, _, hs, he => by cases he; exact hs
  | lock :: rest, s, t, hs, he => by
    obtain ⟨u, hu, he⟩ := bind_eq_ok.1 he
    have hu' : u.additions.Nodup := by
      split at hu
      · exact (nodup_stable w).remove (s := s.record _) hs hu
      · cases hu; exact hs
    exact giveRequirements_nodup c rest (s := u.setCurrentCommand lock (some c)) hu' he

theorem processCommandAddition_nodup {c : Option Command} {s t : State} (hs : s.additions.Nodup)
    (he : processCommandAddition w h c s = .ok t) : t.additions.Nodup := by
  cases c with
  | none => cases he; exact hs
  | some c =>
    simp only [processCommandAddition] at he
    split_ifs at he
    · cases he; exact hs
    · cases he; exact hs
    · cases he; exact hs
    · obtain ⟨u, hu, he⟩ := bind_eq_ok.1 he
      cases he
      exact giveRequirements_nodup c _ (s := { s with adding := true }) (t := u) hs hu

/-- The additions block of `Run` leaves the queue empty. -/
theorem runPhases_additions {s t : State} (he : runPhases w h s = .ok t) : t.additions = [] := by
  obtain ⟨_, -, he⟩ := bind_eq_ok.1 he
  obtain ⟨_, -, he⟩ := bind_eq_ok.1 he
  obtain ⟨_, -, he⟩ := bind_eq_ok.1 he
  obtain ⟨_, -, he⟩ := bind_eq_ok.1 he
  cases he
  rfl

theorem run_nodup {s t : State} (hs : s.additions.Nodup) (he : run w h s = .ok t) :
    t.additions.Nodup := by
  unfold run at he
  split at he
  · obtain ⟨u, hu, he⟩ := bind_eq_ok.1 he
    refine addDefaults_rule (fun s => s.additions.Nodup) (fun _ _ t hs ht => ?_) _
      (by simp only [runPhases_additions hu, List.nodup_nil]) he
    have ht' : t.additions.Nodup := by
      split at ht
      · exact processCommandAddition_nodup hs ht
      · cases ht; exact hs
    exact ht'
  · cases he; exact hs

theorem exec_nodup {op : Op} {s t : State} (hs : s.additions.Nodup) (he : exec w h op s = .ok t) :
    t.additions.Nodup := by
  cases op with
  | registerSubsystem sub =>
    cases sub <;> simp only [exec, registerSubsystem, Except.ok.injEq] at he <;> subst he <;> exact hs
  | addCommand c => exact addCommand_nodup hs he
  | addButton | setEnabled | requestCancel =>
    simp only [exec, Except.ok.injEq] at he; subst he; exact hs
  | run => exact run_nodup hs he
  | remove c => exact (nodup_stable w).remove hs he
  | removeAll => exact (nodup_stable w).removeAll hs he
  | updateTable =>
    simp only [exec, Except.ok.injEq] at he; subst he
    rw [updateTable_additions]; exact hs

/-- **No command is queued twice**, whatever the hooks' user code calls: in
every state a fresh scheduler reaches, through any entry points and with hooks
that may call `AddCommand`, `Cancel`, `Remove` and `RemoveAll` from any hook,
`m_additions` holds each command, and `nullptr`, at most once. -/
theorem Reachable.additions_nodup {s : State} (hr : Reachable w h s) : s.additions.Nodup :=
  hr.rule _ List.nodup_nil fun _ _ _ => exec_nodup

end

/-- Command `3` queued twice and `4` once, with every `Removed` hook removing
`4`: the queue holds `3` and `4` once each. -/
theorem additions_nodup_queued :
    ∃ s, execAll pairRegistry removingHooks
        [.addCommand (some 3), .addCommand (some 3), .addCommand (some 4)] State.init = .ok s ∧
      s.additions = [some 3, some 4] ∧ s.additions.Nodup :=
  have hr := Reachable.of_execAll (w := pairRegistry) (h := removingHooks)
    [.addCommand (some 3), .addCommand (some 3), .addCommand (some 4)] .init rfl
  ⟨_, rfl, rfl, Reachable.additions_nodup hr⟩

end Wpilib.Commands
