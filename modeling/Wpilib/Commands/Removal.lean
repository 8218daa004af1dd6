import Wpilib.Commands.UserCode
import Wpilib.Commands.Fuel
import Wpilib.Commands.RemoveAll

/-!
# Commands — removals and admissions under any user code

With `m_additionsMutex` free no call a hook makes can deadlock: nested
`Remove` and `RemoveAll` fail only for fuel and leave the mutex free
(`Within`), and their fuel never runs out (`Fuel.lean`), so they return,
whatever the hooks call. What they do is `Removes`: running commands erased,
each with one `Removed` call, nothing started and no subsystem taken, and
nothing changed but the running set, the holders, the log and the queue.
`Remove` of a running command erases it and frees every subsystem it requires
(`remove_of_any_hooks`), and an admission that nothing blocks takes every
requirement of its command (`processCommandAddition_of_any_hooks`).
`RemoveAll` leaves nothing running, so from a holder-consistent state nothing
held, and `ResetAll` leaves a fresh scheduler but for `m_adding`, `m_enabled`,
the dashboard flag and the log (`resetAll_of_any_hooks`).
-/

namespace Wpilib.Commands

/-! ## Returning -/

/-- A call that fails only with a fault `E` allows, and that leaves
`m_additionsMutex` as `L` when it returns. -/
def Within (E : Fault → Prop) (L : Bool) : Except Fault State → Prop
  | .ok t => t.additionsLocked = L
  | .error e => E e

namespace Within

variable {E : Fault → Prop} {L L' : Bool} {x : Except Fault State}

theorem bind {f : State → Except Fault State} (hx : Within E L x)
    (hf : ∀ t, t.additionsLocked = L → Within E L' (f t)) : Within E L' (x >>= f) := by
  cases x with
  | ok t => exact hf t hx
  | error e => exact hx

/-- A call that fails only for fuel, and never for fuel, returns. -/
theorem returns (hx : Within (· = .outOfFuel) L x) (hs : x ≠ .error .outOfFuel) :
    ∃ t, x = .ok t ∧ t.additionsLocked = L := by
  cases x with
  | ok t => exact ⟨t, rfl, hx⟩
  | error e => exact absurd (congrArg Except.error hx) hs

/-- A call never fails with a fault `E` rules out. -/
theorem ne_error (hx : Within E L x) {e : Fault} (he : ¬E e) : x ≠ .error e := fun hxe => by
  subst hxe; exact he hx

end Within

/-- Nothing a hook's call does breaks holder consistency. -/
theorem HolderConsistent.stable (w : Registry) : Stable w (HolderConsistent w) where
  addCommand _ _ _ hs he := by rw [addCommand_frame he]; exact hs.congr rfl rfl
  null _ hs := hs.congr rfl rfl
  erase _ _ hd hs := hs.erase hd

section Returns

variable {w : Registry} {h : Hooks} {E : Fault → Prop}

theorem addCommand_within (c : Option Command) {s : State} (hl : s.additionsLocked = false) :
    Within E false (addCommand c s) := by
  unfold addCommand
  split_ifs with hlock
  · exact absurd hl (by simp [hlock])
  · exact hl
  · exact hl

/-- The calls of a hook fail only as nested `Remove` and `RemoveAll` may,
when every `AddCommand` among them runs with the mutex free. -/
theorem performWith_within {r : Option Command → State → Except Fault State}
    {ra : State → Except Fault State} {L : Bool}
    (hr : ∀ c s, s.additionsLocked = L → Within E L (r c s))
    (hra : ∀ s, s.additionsLocked = L → Within E L (ra s)) :
    ∀ (as : List Action) (s : State), (∀ a ∈ as, a.isAddCommand → L = false) →
      s.additionsLocked = L → Within E L (performWith r ra as s)
  | [], _, _, hl => hl
  | .addCommand c :: as, s, hA, hl => by
    obtain rfl : L = false := hA _ (List.mem_cons_self _ _) rfl
    exact (addCommand_within c hl).bind fun t ht =>
      performWith_within hr hra as t (fun a ha => hA a (List.mem_cons_of_mem _ ha)) ht
  | .cancel _ :: as, s, hA, hl =>
    performWith_within hr hra as s (fun a ha => hA a (List.mem_cons_of_mem _ ha)) hl
  | .remove c :: as, s, hA, hl => (hr c s hl).bind fun t ht =>
    performWith_within hr hra as t (fun a ha => hA a (List.mem_cons_of_mem _ ha)) ht
  | .removeAll :: as, s, hA, hl => (hra s hl).bind fun t ht =>
    performWith_within hr hra as t (fun a ha => hA a (List.mem_cons_of_mem _ ha)) ht

variable (hE : E .outOfFuel)
include hE

theorem removeAllLoop_within {r : Option Command → State → Except Fault State} {L : Bool}
    (hr : ∀ c s, s.additionsLocked = L → Within E L (r c s)) :
    ∀ (k : Nat) (s : State), s.additionsLocked = L → Within E L (removeAllLoop r k s)
  | 0, s, hl => by
    unfold removeAllLoop
    split
    · exact hl
    · exact hE
  | k + 1, s, hl => by
    unfold removeAllLoop
    split
    · exact hl
    · exact (hr _ s hl).bind fun t ht => removeAllLoop_within hr k t ht

/-- Nested `Remove` fails only for fuel and keeps the mutex, when the mutex
is free or the `Removed` hooks never call `AddCommand`. -/
theorem removeN_within {L : Bool}
    (hR : L = true → ∀ st d, ∀ a ∈ h.removed st d, a.isAddCommand = false) :
    ∀ (n : Nat) (c : Option Command) (s : State), s.additionsLocked = L →
      Within E L (removeN w h n c s)
  | n, none, _, hl => by cases n <;> exact hl
  | 0, some c, s, hl => by
    simp only [removeN]
    split_ifs
    · exact hE
    · exact hl
  | n + 1, some c, s, hl => by
    simp only [removeN]
    split_ifs
    · refine performWith_within (removeN_within hR n)
        (fun s => removeAllLoop_within hE (removeN_within hR n) s.commands.size s) _ _
        (fun a ha hadd => ?_) (by simpa using hl)
      cases L
      · rfl
      · exact absurd hadd (by simp [hR rfl _ _ a ha])
    · exact hl

theorem remove_within {L : Bool}
    (hR : L = true → ∀ st d, ∀ a ∈ h.removed st d, a.isAddCommand = false)
    (c : Option Command) {s : State} (hl : s.additionsLocked = L) :
    Within E L (remove w h c s) :=
  removeN_within hE hR _ c s hl

theorem removeAll_within {L : Bool}
    (hR : L = true → ∀ st d, ∀ a ∈ h.removed st d, a.isAddCommand = false)
    {s : State} (hl : s.additionsLocked = L) :
    Within E L (removeAll w h s) :=
  removeAllLoop_within hE (fun c _ hl => remove_within hE hR c hl) _ s hl

theorem giveRequirements_within {L : Bool}
    (hR : L = true → ∀ st d, ∀ a ∈ h.removed st d, a.isAddCommand = false)
    (c : Command) : ∀ (reqs : List Subsystem) (s : State),
    s.additionsLocked = L → Within E L (giveRequirements w h c reqs s)
  | [], _, hl => hl
  | lock :: rest, s, hl => by
    refine Within.bind ?_ fun t ht => giveRequirements_within hR c rest _ ht
    split
    · exact remove_within hE hR _ hl
    · exact hl

omit hE

/-- **`Remove` returns whatever the hooks call**, when `m_additionsMutex` is
free. -/
theorem remove_returns {s : State} (hl : s.additionsLocked = false) (c : Option Command) :
    ∃ t, remove w h c s = .ok t :=
  ((remove_within (E := (· = .outOfFuel)) (L := false) rfl (fun h => nomatch h) c hl).returns
    (remove_settles c s).ne_outOfFuel).imp fun _ h => h.1

theorem removeAll_returns {s : State} (hl : s.additionsLocked = false) :
    ∃ t, removeAll w h s = .ok t :=
  ((removeAll_within (E := (· = .outOfFuel)) (L := false) rfl (fun h => nomatch h) hl).returns
    (removeAll_settles s).ne_outOfFuel).imp fun _ h => h.1

/-- The requirements loop of an admission returns, whatever the displaced
commands' `Removed` hooks call, when `m_additionsMutex` is free. -/
theorem giveRequirements_returns (c : Command) (reqs : List Subsystem) {s : State}
    (hl : s.additionsLocked = false) : ∃ t, giveRequirements w h c reqs s = .ok t :=
  ((giveRequirements_within (E := (· = .outOfFuel)) (L := false) rfl (fun h => nomatch h) c reqs s
    hl).returns (giveRequirements_ne_outOfFuel c reqs s)).imp fun _ h => h.1

/-- The loop of `RemoveAll` returns only once nothing runs. -/
theorem removeAllLoop_empty {r : Option Command → State → Except Fault State} :
    ∀ (k : Nat) {s t : State}, removeAllLoop r k s = .ok t → t.commands.toList = []
  | 0, s, t, he => by
    simp only [removeAllLoop] at he
    split at he
    · cases he; assumption
    · cases he
  | k + 1, s, t, he => by
    simp only [removeAllLoop] at he
    split at he
    · cases he; assumption
    · obtain ⟨u, -, he⟩ := bind_eq_ok.1 he
      exact removeAllLoop_empty k he

end Returns

/-! ## What they do -/

/-- What nested `Remove` calls did to `s`, ending in `t`: they erased running
commands, each with one `Removed` call, took no subsystem and started
nothing, and changed nothing but the running set, the holders, the log and
the queue. -/
structure Removes (s t : State) : Prop where
  commands : ∀ x ∈ t.commands, x ∈ s.commands
  holders : ∀ sub d, t.currentCommand sub = some d → s.currentCommand sub = some d
  lifecycle : ∀ c, lifecycle c t.log =
    lifecycle c s.log ++ if c ∈ s.commands ∧ c ∉ t.commands then [.removed c] else []
  frame : t =
    { s with commands := t.commands, currentCommand := t.currentCommand, log := t.log,
             additions := t.additions }

namespace Removes

variable {s t u : State}

theorem refl (s : State) : Removes s s :=
  ⟨fun _ h => h, fun _ _ h => h, fun c => by simp, rfl⟩

theorem trans (h₁ : Removes s t) (h₂ : Removes t u) : Removes s u where
  commands x hx := h₁.commands x (h₂.commands x hx)
  holders sub d hd := h₁.holders sub d (h₂.holders sub d hd)
  lifecycle c := by
    rw [h₂.lifecycle, h₁.lifecycle, List.append_assoc]
    by_cases ht : c ∈ t.commands
    · simp [ht, h₁.commands c ht]
    · have hu : c ∉ u.commands := fun hu => ht (h₂.commands c hu)
      simp [ht, hu]
  frame := h₂.frame.trans (by rw [h₁.frame])

theorem stable (w : Registry) (s : State) : Stable w (Removes s) where
  addCommand _ t _ ht he := by
    rw [addCommand_frame he]
    exact ⟨ht.commands, ht.holders, ht.lifecycle, by rw [ht.frame]⟩
  null t ht := ⟨ht.commands, ht.holders,
    fun c => by
      rw [State.record_log, lifecycle_append, ht.lifecycle,
        lifecycle_quiet (e := .error .nullParameter "command") rfl, List.append_nil]
      rfl,
    by rw [ht.frame]; rfl⟩
  erase d t hd ht := by
    refine ⟨fun x hx => ht.commands x (PtrSet.mem_erase.1 (eraseCommand_commands w d t ▸ hx)).2,
      fun sub y hy => ?_,
      fun c => ?_, ?_⟩
    · simp only [eraseCommand_currentCommand] at hy
      split_ifs at hy
      exact ht.holders sub y hy
    · rw [eraseCommand_log, lifecycle_append, ht.lifecycle, lifecycle_removed, eraseCommand_commands]
      by_cases e : d = c
      · subst e; simp [hd, ht.commands d hd]
      · simp [e, Ne.symm e]
    · rw [eraseCommand_eq, ht.frame]

end Removes

section Any

variable {w : Registry} {h : Hooks}

/-- **`Remove` under any user code.** With `m_additionsMutex` free, `Remove`
of a running command returns whatever the `Removed` hooks call, nested
`Remove` and `RemoveAll` included: the command is no longer running, every
subsystem it requires is free, `Removed` was called exactly once on it and on
each other command that stopped running, no command started and no subsystem
was taken, and nothing changed but the running set, the holders, the log and
the queue. -/
theorem remove_of_any_hooks {s : State} (hl : s.additionsLocked = false) {c : Command}
    (hc : c ∈ s.commands) :
    ∃ t, remove w h (some c) s = .ok t ∧ Removes s t ∧ c ∉ t.commands ∧
      ∀ sub ∈ w.requirements c, t.currentCommand sub = none := by
  obtain ⟨t, he⟩ := remove_returns (w := w) (h := h) hl (some c)
  refine ⟨t, he, ?_⟩
  simp only [remove, removeN, hc, if_true] at he
  have h₁ : Removes s (eraseCommand w c s) := (Removes.stable w s).erase c s hc (.refl s)
  have h₂ := (Removes.stable w (eraseCommand w c s)).performWith
    (fun _ _ _ => (Removes.stable w _).removeN _ _ _ _)
    (fun s s' => Stable.removeAllLoop (fun _ _ _ => (Removes.stable w _).removeN _ _ _ _)
      s.commands.size s s') _ _ _ (.refl _) he
  refine ⟨h₁.trans h₂, fun hct => by simpa using h₂.commands c hct, fun sub hsub => ?_⟩
  cases hsd : t.currentCommand sub with
  | none => rfl
  | some d => simpa [hsub] using h₂.holders sub d hsd

/-- Command `3`, whose `Removed` hook removes command `4`, removed from the
state where `3` and `4` run. -/
theorem remove_of_any_hooks_pair :
    pairState.additionsLocked = false ∧ 3 ∈ pairState.commands ∧
      (remove pairRegistry removingHooks (some 3) pairState).map (·.commands.toList) = .ok [] ∧
      ∃ t, remove pairRegistry removingHooks (some 3) pairState = .ok t ∧ Removes pairState t ∧
        3 ∉ t.commands ∧ ∀ sub ∈ pairRegistry.requirements 3, t.currentCommand sub = none :=
  have hc : 3 ∈ pairState.commands := by decide
  ⟨rfl, hc, rfl, remove_of_any_hooks rfl hc⟩

/-- **An admission under any user code.** With `m_additionsMutex` free, as in
the default-command loop of `Run`, `ProcessCommandAddition` of a command none
of whose requirements an uninterruptible command holds returns, whatever the
displaced commands' `Removed` hooks call, nested `Remove` and `RemoveAll`
included: the command runs and holds every subsystem it requires, and the
invariant holds. -/
theorem processCommandAddition_of_any_hooks {s : State} (hi : Invariant w false s) {c : Command}
    (hb : ∀ sub ∈ w.requirements c, blocked w s sub = false) :
    ∃ t, processCommandAddition w h (some c) s = .ok t ∧ Invariant w false t ∧ c ∈ t.commands ∧
      ∀ sub ∈ w.requirements c, t.currentCommand sub = some c := by
  by_cases hc : c ∈ s.commands
  · exact ⟨s, by simp [processCommandAddition, hi.idle, hc], hi, hc, hi.consistent.holds c hc⟩
  have hany : (w.requirements c).toList.any (blocked w s) = false :=
    List.any_eq_false.2 fun sub hs => by simp [hb sub (PtrSet.mem_toList.1 hs)]
  obtain ⟨u, hu⟩ := giveRequirements_returns (w := w) (h := h) c (w.requirements c).toList
    (s := { s with adding := true }) hi.mutex
  obtain ⟨ha, hheld⟩ :=
    Admitting.giveRequirements _ (fun _ hs => PtrSet.mem_toList.1 hs) (.begin hi hc) hu
  have hgiven : ∀ sub ∈ w.requirements c, u.currentCommand sub = some c :=
    fun sub hs => hheld sub (.inl (PtrSet.mem_toList.2 hs))
  refine ⟨_, ?_, ha.start hgiven, PtrSet.mem_insert.2 (.inl rfl), hgiven⟩
  simp only [processCommandAddition, hi.idle, hc, hany, Bool.false_eq_true, if_false, hu, ok_bind]

/-- Commands `3` and `4` started, then `5` admitted: it displaces `3`, whose
`Removed` hook removes `4`. Every command may be interrupted, so nothing
blocks. -/
theorem processCommandAddition_of_any_hooks_pair :
    ∃ s, execAll pairRegistry removingHooks [.addCommand (some 3), .addCommand (some 4), .run]
        State.init = .ok s ∧ s.commands.toList = [3, 4] ∧ Invariant pairRegistry false s ∧
      (∀ sub ∈ pairRegistry.requirements 5, blocked pairRegistry s sub = false) ∧
      ∃ t, processCommandAddition pairRegistry removingHooks (some 5) s = .ok t ∧
        Invariant pairRegistry false t ∧ 5 ∈ t.commands ∧
        ∀ sub ∈ pairRegistry.requirements 5, t.currentCommand sub = some 5 :=
  have hi := execAll_invariant_any (w := pairRegistry) (h := removingHooks)
    [.addCommand (some 3), .addCommand (some 4), .run] (Invariant.initial _) rfl
  have hb (s : State) : ∀ sub ∈ pairRegistry.requirements 5, blocked pairRegistry s sub = false :=
    fun _ _ => by unfold blocked; split <;> rfl
  ⟨_, rfl, rfl, hi, hb _, processCommandAddition_of_any_hooks hi (hb _)⟩

/-- **`ResetAll` under any user code.** From a holder-consistent state with
`m_additionsMutex` free, `ResetAll` returns whatever the `Removed` hooks call:
`Removed` was called exactly once on each command that was running and on no
other, and the scheduler is fresh but for `m_adding`, `m_enabled`, the
dashboard flag and the log. Every subsystem is free: `RemoveAll` leaves
nothing running, and in a holder-consistent state only running commands
hold. -/
theorem resetAll_of_any_hooks {s : State} (hs : HolderConsistent w s)
    (hl : s.additionsLocked = false) :
    ∃ t, resetAll w h s = .ok t ∧
      t = { State.init with adding := s.adding, enabled := s.enabled,
                            runningCommandsChanged := s.runningCommandsChanged, log := t.log } ∧
      ∀ c, lifecycle c t.log = lifecycle c s.log ++ if c ∈ s.commands then [.removed c] else [] := by
  obtain ⟨u, hu⟩ := removeAll_returns (w := w) (h := h) hl
  have hR : Removes s u := (Removes.stable w s).removeAll (.refl s) hu
  have h0 : u.commands.toList = [] := removeAllLoop_empty _ hu
  have hnot : ∀ c, c ∉ u.commands := fun c hc => by simpa [h0] using PtrSet.mem_toList.2 hc
  have hfree : u.currentCommand = fun _ => none :=
    funext (((HolderConsistent.stable w).removeAll hs hu).free_of_empty h0)
  refine ⟨_, by rw [resetAll, hu]; rfl, ?_, fun c => ?_⟩
  · rw [hR.frame, hfree, hl]
    rfl
  · simpa [hnot c] using hR.lifecycle c

/-- The state where commands `3` and `4` run, reset with command `3`'s
`Removed` hook removing `4`. -/
theorem resetAll_of_any_hooks_pair :
    HolderConsistent pairRegistry pairState ∧ pairState.additionsLocked = false ∧
      (resetAll pairRegistry removingHooks pairState).map (·.log) =
        .ok (pairState.log ++ [.removed 3, .removed 4]) ∧
      ∃ t, resetAll pairRegistry removingHooks pairState = .ok t ∧
        t = { State.init with adding := pairState.adding, enabled := pairState.enabled,
                              runningCommandsChanged := pairState.runningCommandsChanged,
                              log := t.log } ∧
        ∀ c, lifecycle c t.log =
          lifecycle c pairState.log ++ if c ∈ pairState.commands then [.removed c] else [] :=
  ⟨pairState_consistent, rfl, rfl, resetAll_of_any_hooks pairState_consistent rfl⟩

end Any

end Wpilib.Commands
