import Wpilib.Commands.Tick
import Wpilib.Commands.UserCode

/-!
# Commands — the default-command fill

The last loop of `Run` visits the registered subsystems in address order and
offers each idle one its default command, through the ordinary admission. An
admission later in the loop can displace a default admitted earlier and leave
an already visited subsystem idle (`run_default_displaced`). When every
default command requires its own subsystem and nothing else, every admission
of the loop takes an idle subsystem and displaces nothing, so the loop reaches
no hook (`processCommandAddition_indep`). Then after an enabled tick from any
reachable state, whichever of `AddCommand`, `Cancel`, `Remove` and
`RemoveAll` the hooks' user code calls, every registered subsystem whose
default requires it is held by a running command (`run_fills_defaults`).
-/

namespace Wpilib.Commands

/-- Every default command requires nothing but its own subsystem. -/
def Registry.OwnDefaults (w : Registry) : Prop :=
  ∀ sub d, w.defaultCommand sub = some d → ∀ x ∈ w.requirements d, x = sub

section Fill

variable {w : Registry} {h : Hooks}

/-- The requirements loop over free subsystems displaces nobody, so it reaches
no hook: its result is the same whatever the hooks. -/
theorem giveRequirements_indep (h' : Hooks) (c : Command) :
    ∀ (reqs : List Subsystem) (t : State), reqs.Nodup → (∀ x ∈ reqs, t.currentCommand x = none) →
      giveRequirements w h c reqs t = giveRequirements w h' c reqs t
  | [], _, _, _ => rfl
  | lock :: rest, t, hn, hf => by
    have hrest := giveRequirements_indep h' c rest (t.setCurrentCommand lock (some c))
      (List.nodup_cons.1 hn).2 fun x hx => by
        rw [State.setCurrentCommand_currentCommand,
          if_neg (ne_of_mem_of_not_mem hx (List.nodup_cons.1 hn).1)]
        exact hf x (List.mem_cons_of_mem _ hx)
    simp only [giveRequirements, hf lock (List.mem_cons_self _ _), ok_bind, hrest]

/-- A default that requires only its idle subsystem is admitted without
reaching a hook. -/
theorem processCommandAddition_indep (h' : Hooks) {t : State} {sub : Subsystem} {d : Command}
    (hd : ∀ x ∈ w.requirements d, x = sub) (hfree : t.currentCommand sub = none) :
    processCommandAddition w h (some d) t = processCommandAddition w h' (some d) t := by
  simp only [processCommandAddition, giveRequirements_indep h' d _ { t with adding := true }
    (w.requirements d).nodup fun x hx => (hd x (PtrSet.mem_toList.1 hx)).symm ▸ hfree]

/-- A default that requires only its idle subsystem takes it and displaces
nothing, whatever the hooks. -/
theorem processCommandAddition_default {L : Bool} {t t₁ : State} {sub : Subsystem} {d : Command}
    (hi : Invariant w L t) (hd : ∀ x ∈ w.requirements d, x = sub)
    (hfree : t.currentCommand sub = none) (he : processCommandAddition w h (some d) t = .ok t₁) :
    (∀ x c, t.currentCommand x = some c → t₁.currentCommand x = some c) ∧
      (sub ∈ w.requirements d → t₁.currentCommand sub = some d) ∧ t₁.subsystems = t.subsystems := by
  rw [processCommandAddition_indep quietHooks hd hfree] at he
  by_cases hc : d ∈ t.commands
  · simp only [processCommandAddition, hi.idle, hc, Bool.false_eq_true, if_false, if_true,
      Except.ok.injEq] at he
    subst he
    exact ⟨fun _ _ h => h, fun hs => absurd (hi.consistent.holds d hc sub hs) (by simp [hfree]),
      rfl⟩
  · have hb : (w.requirements d).toList.any (blocked w t) = false :=
      List.any_eq_false.2 fun x hx => by rw [hd x (PtrSet.mem_toList.1 hx)]; simp [blocked, hfree]
    obtain ⟨ds, had⟩ := processCommandAddition_admits (h := quietHooks)
      (fun _ _ _ ha => (List.not_mem_nil _ ha).elim) hi.consistent hi.idle hc hb he
    have hds : ∀ e, e ∉ ds := fun e he' => by
      obtain ⟨x, hx, hxe⟩ := (had.mem_iff e).1 he'
      rw [hd x hx, hfree] at hxe; cases hxe
    refine ⟨fun x c hxc => ?_, had.given sub, by rw [had.frame]⟩
    have hx : x ∉ w.requirements d := fun hx => by rw [hd x hx, hfree] at hxc; cases hxc
    rw [had.kept x hx fun e he' => absurd he' (hds e), hxc]

/-- **The fill loop with own-subsystem defaults**: held subsystems keep their
holders, and every visited subsystem whose default requires it ends held. -/
theorem addDefaults_fills (hD : w.OwnDefaults) {L : Bool} :
    ∀ (subs : List Subsystem) {t t' : State}, Invariant w L t → addDefaults w h subs t = .ok t' →
      (∀ x c, t.currentCommand x = some c → t'.currentCommand x = some c) ∧
      (∀ sub ∈ subs, ∀ d, w.defaultCommand sub = some d → sub ∈ w.requirements d →
        t'.currentCommand sub ≠ none) ∧ t'.subsystems = t.subsystems
  | [], _, _, _, he => by
    cases he; exact ⟨fun _ _ h => h, fun _ h => absurd h (List.not_mem_nil _), rfl⟩
  | sub :: subs, t, t', hi, he => by
    obtain ⟨u, hu, he⟩ := bind_eq_ok.1 he
    have hstep : (∀ x c, t.currentCommand x = some c → u.currentCommand x = some c) ∧
        (∀ d, w.defaultCommand sub = some d → sub ∈ w.requirements d →
          u.currentCommand sub ≠ none) ∧ u.subsystems = t.subsystems ∧ Invariant w L u := by
      split at hu
      · rename_i hfree
        have hiu := processCommandAddition_invariant_any hi hu
        obtain hdef | ⟨d, hdef⟩ := Option.eq_none_or_eq_some (w.defaultCommand sub)
        · rw [hdef] at hu; cases hu
          exact ⟨fun _ _ h => h, fun _ h => by simp [hdef] at h, rfl, hi⟩
        · rw [hdef] at hu
          obtain ⟨h₁, h₂, h₃⟩ := processCommandAddition_default hi (hD sub d hdef) hfree hu
          exact ⟨h₁, fun d' hd' hs => by cases hdef.symm.trans hd'; simp [h₂ hs], h₃, hiu⟩
      · rename_i hheld; cases hu; exact ⟨fun _ _ h => h, fun _ _ _ => hheld, rfl, hi⟩
    obtain ⟨ih₁, ih₂, ih₃⟩ :=
      addDefaults_fills hD subs (hstep.2.2.2.record (e := .confirmCommand sub) rfl) he
    refine ⟨fun x c hxc => ih₁ x c (hstep.1 x c hxc), fun s hs d hd hsd => ?_,
      ih₃.trans hstep.2.2.1⟩
    rcases List.mem_cons.1 hs with rfl | hs
    · obtain ⟨c, hc⟩ := Option.ne_none_iff_exists'.1 (hstep.2.1 d hd hsd)
      rw [ih₁ _ c hc]; simp
    · exact ih₂ s hs d hd hsd

/-- **Defaults fill every idle subsystem**, whichever of `AddCommand`,
`Cancel`, `Remove` and `RemoveAll` the hooks' user code calls, when every
default command requires its own subsystem and nothing else: after an enabled
tick from a reachable state, every registered subsystem whose default command
requires it is held by a running command. -/
theorem run_fills_defaults (hD : w.OwnDefaults) {s s' : State} (hr : Reachable w h s)
    (hen : s.enabled = true) (he : run w h s = .ok s') :
    ∀ sub ∈ s'.subsystems, ∀ d, w.defaultCommand sub = some d → sub ∈ w.requirements d →
      ∃ c ∈ s'.commands, s'.currentCommand sub = some c := by
  simp only [run, hen, if_true] at he
  obtain ⟨t, ht, he⟩ := bind_eq_ok.1 he
  have hit := runPhases_invariant_any
    (hr.rule _ (Invariant.initial w) fun _ _ _ => exec_invariant_any) ht
  obtain ⟨-, hfill, hsub⟩ := addDefaults_fills hD _ hit he
  intro sub hs d hd hsd
  obtain ⟨c, hc⟩ := Option.ne_none_iff_exists'.1
    (hfill sub (PtrSet.mem_toList.2 (hsub ▸ hs)) d hd hsd)
  exact ⟨c, ((addDefaults_invariant_any _ hit he).consistent.running sub c hc).1, hc⟩

end Fill

/-- Subsystems `1` and `2` have defaults `6` and `7`, each requiring its own
subsystem only. -/
def ownRegistry : Registry where
  requirements c := if c = 6 then ⟨[1], by decide⟩ else if c = 7 then ⟨[2], by decide⟩ else .empty
  interruptible _ := true
  id c := c
  name _ := "Command"
  defaultCommand sub := if sub = 1 then some 6 else if sub = 2 then some 7 else none

theorem ownRegistry_ownDefaults : ownRegistry.OwnDefaults := by
  intro sub d hd x hx
  simp only [ownRegistry] at hd hx
  split_ifs at hd <;> cases hd <;> simp_all [PtrSet.mem_def]

theorem run_fills_defaults_own :
    ∃ s s', execAll ownRegistry quietHooks
        [.registerSubsystem (some 1), .registerSubsystem (some 2)] State.init = .ok s ∧
      run ownRegistry quietHooks s = .ok s' ∧ s'.currentCommand 1 = some 6 ∧
      ∀ sub ∈ s'.subsystems, ∀ d, ownRegistry.defaultCommand sub = some d →
        sub ∈ ownRegistry.requirements d → ∃ c ∈ s'.commands, s'.currentCommand sub = some c :=
  have hr := Reachable.of_execAll (w := ownRegistry) (h := quietHooks)
    [.registerSubsystem (some 1), .registerSubsystem (some 2)] .init rfl
  ⟨_, _, rfl, rfl, rfl, run_fills_defaults ownRegistry_ownDefaults hr rfl rfl⟩

/-- Subsystem `1`'s default `6` requires subsystems `1` and `2`; subsystem
`3`'s default `7` requires `2` and `3`. -/
def overlapRegistry : Registry where
  requirements c :=
    if c = 6 then ⟨[1, 2], by decide⟩ else if c = 7 then ⟨[2, 3], by decide⟩ else .empty
  interruptible _ := true
  id c := c
  name _ := "Command"
  defaultCommand sub := if sub = 1 then some 6 else if sub = 3 then some 7 else none

/-- **A later default displaces an earlier one.** Nothing runs and nothing is
queued when the tick starts, so every subsystem is free when the fill loop
reaches it. The loop admits `6` for subsystem `1`, then `7` for subsystem `3`,
which displaces `6` from subsystem `2`: subsystem `1`, whose default requires
it, ends the tick idle. -/
theorem run_default_displaced :
    ∃ s s', execAll overlapRegistry quietHooks
        [.registerSubsystem (some 1), .registerSubsystem (some 2), .registerSubsystem (some 3)]
        State.init = .ok s ∧
      s.commands.toList = [] ∧ s.additions = [] ∧ run overlapRegistry quietHooks s = .ok s' ∧
      s'.subsystems.toList = [1, 2, 3] ∧ overlapRegistry.defaultCommand 1 = some 6 ∧
      1 ∈ overlapRegistry.requirements 6 ∧ s'.currentCommand 1 = none ∧ s'.commands.toList = [7] :=
  ⟨_, _, rfl, rfl, rfl, rfl, rfl, rfl, by decide, rfl, rfl⟩

end Wpilib.Commands
