import Wpilib.Commands.Invariant

/-!
# Commands — the order of two admissions

In a holder-consistent state, admitting a command `c` starts it and displaces
exactly the running commands that share a requirement with `c`: what it does
to the running set and the holders depends on the state only through which
running commands overlap `c` (`Admitted.admits`). Admitting `c` also leaves
the blocked status of every subsystem outside its requirements as it was.
So two admissions whose requirement sets are disjoint commute: either order
ends with the same running set and the same holder for every subsystem
(`processCommandAddition_comm`), as long as the `Removed` hooks of the
displaced commands call only `Cancel`, and `AddCommand` while
`m_additionsMutex` is free. A `Removed` hook that calls `Remove` can free a
subsystem that blocks the second admission in one order only
(`processCommandAddition_order_matters`).
-/

namespace Wpilib.Commands

/-- Whether commands `c` and `d` share a requirement. -/
def Registry.overlap (w : Registry) (c d : Command) : Bool :=
  (w.requirements c).toList.any (· ∈ w.requirements d)

theorem Registry.overlap_eq_true {w : Registry} {c d : Command} :
    w.overlap c d = true ↔ ∃ sub ∈ w.requirements c, sub ∈ w.requirements d := by
  simp [Registry.overlap]

theorem Registry.overlap_eq_false {w : Registry} {c d : Command}
    (hdisj : ∀ x ∈ w.requirements c, x ∉ w.requirements d) : w.overlap c d = false := by
  simpa [Registry.overlap] using hdisj

theorem Option.filter_comm {α : Type} (p q : α → Bool) (o : Option α) :
    (o.filter p).filter q = (o.filter q).filter p := by
  cases o with
  | none => rfl
  | some a => cases hp : p a <;> cases hq : q a <;> simp [Option.filter_some, hp, hq]

/-- The running set and the holders after admitting `c` into `s`, in terms of
`s` alone: `c` runs and holds its requirements, and every command that shares
a requirement with `c` has left and holds nothing. -/
structure Admits (w : Registry) (c : Command) (s t : State) : Prop where
  commands : ∀ x, x ∈ t.commands ↔ x = c ∨ (x ∈ s.commands ∧ w.overlap c x = false)
  holder : ∀ sub, t.currentCommand sub =
    if sub ∈ w.requirements c then some c else (s.currentCommand sub).filter fun d => !w.overlap c d

section

variable {w : Registry} {c c₁ c₂ : Command} {s t u : State} {ds : List Command}

/-- Holder consistency reads only the requirements of running commands. -/
theorem HolderConsistent.of_requirements {w' : Registry} (hs : HolderConsistent w s)
    (hr : ∀ c ∈ s.commands, w'.requirements c = w.requirements c) : HolderConsistent w' s where
  holds c hc sub hsub := hs.holds c hc sub (hr c hc ▸ hsub)
  running sub c h := by
    obtain ⟨hc, hsub⟩ := hs.running sub c h
    exact ⟨hc, (hr c hc).symm ▸ hsub⟩

theorem HolderConsistent.holds_iff (hs : HolderConsistent w s) {sub : Subsystem} {d : Command} :
    s.currentCommand sub = some d ↔ d ∈ s.commands ∧ sub ∈ w.requirements d :=
  ⟨hs.running sub d, fun h => hs.holds d h.1 sub h.2⟩

/-- In a holder-consistent state the commands an admission displaces are the
running commands that share a requirement with it. -/
theorem Admitted.mem_iff_overlap (hs : HolderConsistent w s) (had : Admitted w c s t ds)
    (d : Command) : d ∈ ds ↔ d ∈ s.commands ∧ w.overlap c d = true := by
  rw [had.mem_iff, Registry.overlap_eq_true]
  simp only [hs.holds_iff]
  exact ⟨fun ⟨sub, hsub, hd, hsd⟩ => ⟨hd, sub, hsub, hsd⟩,
    fun ⟨hd, sub, hsub, hsd⟩ => ⟨sub, hsub, hd, hsd⟩⟩

theorem Admitted.admits (hs : HolderConsistent w s) (had : Admitted w c s t ds) : Admits w c s t where
  commands x := by
    rw [had.commands, had.mem_iff_overlap hs]
    cases w.overlap c x <;> simp
  holder sub := by
    split_ifs with hsub
    · exact had.given sub hsub
    cases hsd : s.currentCommand sub with
    | none => rw [had.kept sub hsub fun d _ h => by simp [hsd] at h, hsd]; rfl
    | some d =>
      by_cases hd : d ∈ ds
      · rw [had.released sub hsub d hd hsd, Option.filter_some,
          ((had.mem_iff_overlap hs d).1 hd).2]
        rfl
      · have hov : w.overlap c d = false := by
          simpa [had.mem_iff_overlap hs, (hs.running sub d hsd).1] using hd
        rw [had.kept sub hsub fun e he h => hd (by rw [hsd] at h; cases h; exact he), hsd,
          Option.filter_some, hov]
        rfl

/-- An unblocked admission leaves the blocked status of every subsystem
outside its requirements as it was: the holders it frees could be
interrupted. -/
theorem Admitted.blocked_eq (had : Admitted w c s t ds)
    (hb : (w.requirements c).toList.any (blocked w s) = false) {x : Subsystem}
    (hx : x ∉ w.requirements c) : blocked w t x = blocked w s x := by
  by_cases hds : ∃ e ∈ ds, s.currentCommand x = some e
  · obtain ⟨e, he, hxe⟩ := hds
    obtain ⟨sub, hsub, hse⟩ := (had.mem_iff e).1 he
    have hi : w.interruptible e = true := by
      simpa [blocked, hse] using List.any_eq_false.1 hb sub (PtrSet.mem_toList.2 hsub)
    simp [blocked, had.released x hx e he hxe, hxe, hi]
  · push_neg at hds
    simp only [blocked, had.kept x hx hds]

theorem Admitted.any_blocked_eq (had : Admitted w c s t ds)
    (hb : (w.requirements c).toList.any (blocked w s) = false) {reqs : List Subsystem}
    (hr : ∀ x ∈ reqs, x ∉ w.requirements c) : reqs.any (blocked w t) = reqs.any (blocked w s) :=
  Bool.eq_iff_iff.2 (by
    simp only [List.any_eq_true]
    exact exists_congr fun x => and_congr_right fun hx => by rw [had.blocked_eq hb (hr x hx)])

/-- Two admissions in a row, the second of a command that shares no
requirement with the first, in terms of the state before both. -/
theorem Admits.trans (a₁ : Admits w c₁ s u) (a₂ : Admits w c₂ u t)
    (hdisj : ∀ x ∈ w.requirements c₁, x ∉ w.requirements c₂) :
    (∀ x, x ∈ t.commands ↔
      x = c₁ ∨ x = c₂ ∨ (x ∈ s.commands ∧ w.overlap c₁ x = false ∧ w.overlap c₂ x = false)) ∧
    ∀ sub, t.currentCommand sub =
      if sub ∈ w.requirements c₁ then some c₁ else if sub ∈ w.requirements c₂ then some c₂
      else ((s.currentCommand sub).filter fun d => !w.overlap c₁ d).filter fun d => !w.overlap c₂ d := by
  have hov : w.overlap c₂ c₁ = false :=
    Registry.overlap_eq_false fun x h₂ h₁ => hdisj x h₁ h₂
  refine ⟨fun x => ?_, fun sub => ?_⟩
  · rw [a₂.commands, a₁.commands]
    by_cases h₁ : x = c₁
    · subst h₁; simp [hov]
    · simp [h₁, and_assoc]
  · rw [a₂.holder, a₁.holder]
    by_cases h₁ : sub ∈ w.requirements c₁
    · simp [h₁, hdisj sub h₁, Option.filter_some, hov]
    · simp [h₁]

end

section

variable {w : Registry} {h : Hooks} {s : State} {c₁ c₂ : Command}

theorem processCommandAddition_of_adding (hadd : s.adding = true) (c : Command) :
    processCommandAddition w h (some c) s =
      .ok (s.record (.error .incompatibleState "Can not start command from cancel method")) := by
  simp [processCommandAddition, hadd]

theorem processCommandAddition_of_blocked (hadd : s.adding = false) {c : Command}
    (hc : c ∉ s.commands) (hb : (w.requirements c).toList.any (blocked w s) = true) :
    processCommandAddition w h (some c) s = .ok s := by
  simp [processCommandAddition, hadd, hc, hb]

/-- Under tame `Removed` hooks an admission leaves `m_additionsMutex` alone. -/
theorem processCommandAddition_additionsLocked (hR : ∀ st d, ∀ a ∈ h.removed st d, a.Tame)
    (hs : HolderConsistent w s) {c : Option Command} {s' : State}
    (he : processCommandAddition w h c s = .ok s') : s'.additionsLocked = s.additionsLocked := by
  rcases processCommandAddition_cases hR hs he with rfl | ⟨-, rfl⟩ | ⟨_, _, -, -, -, -, had⟩
  · rfl
  · rfl
  · rw [had.frame]

/-- The second admission of a pair from a holder-consistent state returns
too. -/
theorem processCommandAddition_then_ok (hs : HolderConsistent w s)
    (hA : ∀ st d, ∀ a ∈ h.removed st d, a.Allowed s.additionsLocked) (c d : Command) :
    ∃ t, (processCommandAddition w h (some c) s >>= processCommandAddition w h (some d)) = .ok t := by
  obtain ⟨s₁, he₁⟩ := processCommandAddition_ok (w := w) (c := c) hA
  have hl := processCommandAddition_additionsLocked (fun st d a ha => (hA st d a ha).1) hs he₁
  obtain ⟨t, he₂⟩ := processCommandAddition_ok (w := w) (c := d) (s := s₁) (hl ▸ hA)
  exact ⟨t, by rw [he₁, ok_bind, he₂]⟩

/-- The second admission after an unblocked first one: it finds its command
not running and its blocked status unchanged, and returns. -/
theorem processCommandAddition_second (hs : HolderConsistent w s) (hadd : s.adding = false)
    (h₁ : c₁ ∉ s.commands) (h₂ : c₂ ∉ s.commands) (hne : c₁ ≠ c₂)
    (hdisj : ∀ x ∈ w.requirements c₁, x ∉ w.requirements c₂)
    (hb₁ : (w.requirements c₁).toList.any (blocked w s) = false)
    (hA : ∀ st d, ∀ a ∈ h.removed st d, a.Allowed s.additionsLocked) :
    ∃ s₁ ds₁, processCommandAddition w h (some c₁) s = .ok s₁ ∧ Admitted w c₁ s s₁ ds₁ ∧
      (processCommandAddition w h (some c₁) s >>= processCommandAddition w h (some c₂)) =
        processCommandAddition w h (some c₂) s₁ ∧
      s₁.adding = false ∧ c₂ ∉ s₁.commands ∧
      (w.requirements c₂).toList.any (blocked w s₁) = (w.requirements c₂).toList.any (blocked w s) ∧
      ∀ st d, ∀ a ∈ h.removed st d, a.Allowed s₁.additionsLocked := by
  obtain ⟨s₁, he₁⟩ := processCommandAddition_ok (w := w) (c := c₁) hA
  obtain ⟨ds₁, had⟩ := processCommandAddition_admits (fun st d a ha => (hA st d a ha).1) hs hadd h₁
    hb₁ he₁
  have hf := had.frame
  refine ⟨s₁, ds₁, he₁, had, by rw [he₁, ok_bind], by rw [hf]; exact hadd, ?_,
    had.any_blocked_eq hb₁ fun x hx h₁x => hdisj x h₁x (PtrSet.mem_toList.1 hx),
    by rw [hf]; exact hA⟩
  rw [had.commands]
  rintro (h | ⟨h, -⟩)
  · exact hne h.symm
  · exact h₂ h

/-- Two unblocked admissions of commands that are not running and share no
requirement: the second is admitted too, and the two together start both
commands and displace every running command that overlaps either. -/
theorem processCommandAddition_pair (hs : HolderConsistent w s) (hadd : s.adding = false)
    (h₁ : c₁ ∉ s.commands) (h₂ : c₂ ∉ s.commands) (hne : c₁ ≠ c₂)
    (hdisj : ∀ x ∈ w.requirements c₁, x ∉ w.requirements c₂)
    (hb₁ : (w.requirements c₁).toList.any (blocked w s) = false)
    (hb₂ : (w.requirements c₂).toList.any (blocked w s) = false)
    (hA : ∀ st d, ∀ a ∈ h.removed st d, a.Allowed s.additionsLocked) :
    ∃ t, (processCommandAddition w h (some c₁) s >>= processCommandAddition w h (some c₂)) = .ok t ∧
      (∀ x, x ∈ t.commands ↔
        x = c₁ ∨ x = c₂ ∨ (x ∈ s.commands ∧ w.overlap c₁ x = false ∧ w.overlap c₂ x = false)) ∧
      ∀ sub, t.currentCommand sub =
        if sub ∈ w.requirements c₁ then some c₁ else if sub ∈ w.requirements c₂ then some c₂
        else ((s.currentCommand sub).filter fun d => !w.overlap c₁ d).filter fun d => !w.overlap c₂ d := by
  obtain ⟨s₁, _, -, had₁, he, hadd₁, h₂', hb, hA₁⟩ :=
    processCommandAddition_second hs hadd h₁ h₂ hne hdisj hb₁ hA
  obtain ⟨t, he₂⟩ := processCommandAddition_ok (w := w) (c := c₂) hA₁
  obtain ⟨ds₂, had₂⟩ := processCommandAddition_admits (fun st d a ha => (hA st d a ha).1)
    (hs.admission had₁) hadd₁ h₂' (hb.trans hb₂) he₂
  exact ⟨t, he.trans he₂, (had₁.admits hs).trans (had₂.admits (hs.admission had₁)) hdisj⟩

/-- The pair's result when only the first command is unblocked: the second
admission does nothing in either order. -/
theorem processCommandAddition_one_blocked (hs : HolderConsistent w s) (hadd : s.adding = false)
    (h₁ : c₁ ∉ s.commands) (h₂ : c₂ ∉ s.commands) (hne : c₁ ≠ c₂)
    (hdisj : ∀ x ∈ w.requirements c₁, x ∉ w.requirements c₂)
    (hb₁ : (w.requirements c₁).toList.any (blocked w s) = false)
    (hb₂ : (w.requirements c₂).toList.any (blocked w s) = true)
    (hA : ∀ st d, ∀ a ∈ h.removed st d, a.Allowed s.additionsLocked) :
    ∃ t, (processCommandAddition w h (some c₁) s >>= processCommandAddition w h (some c₂)) = .ok t ∧
      (processCommandAddition w h (some c₂) s >>= processCommandAddition w h (some c₁)) = .ok t := by
  obtain ⟨s₁, _, he₁, -, he, hadd₁, h₂', hb, -⟩ :=
    processCommandAddition_second hs hadd h₁ h₂ hne hdisj hb₁ hA
  refine ⟨s₁, ?_, ?_⟩
  · rw [he, processCommandAddition_of_blocked hadd₁ h₂' (hb.trans hb₂)]
  · rw [processCommandAddition_of_blocked hadd h₂ hb₂, ok_bind, he₁]

/-- **Admissions with disjoint requirements commute.** From a
holder-consistent state, for two commands that are not running and share no
requirement, with `Removed` hooks whose user code calls only `Cancel`, and
`AddCommand` while `m_additionsMutex` is free, both orders of the two
admissions return, and they end with the same running set and the same holder
for every subsystem. -/
theorem processCommandAddition_comm (hs : HolderConsistent w s) (h₁ : c₁ ∉ s.commands)
    (h₂ : c₂ ∉ s.commands) (hdisj : ∀ x ∈ w.requirements c₁, x ∉ w.requirements c₂)
    (hA : ∀ st d, ∀ a ∈ h.removed st d, a.Allowed s.additionsLocked) :
    ∃ t₁₂ t₂₁,
      (processCommandAddition w h (some c₁) s >>= processCommandAddition w h (some c₂)) = .ok t₁₂ ∧
      (processCommandAddition w h (some c₂) s >>= processCommandAddition w h (some c₁)) = .ok t₂₁ ∧
      t₁₂.commands = t₂₁.commands ∧ ∀ sub, t₁₂.currentCommand sub = t₂₁.currentCommand sub := by
  have hdisj' : ∀ x ∈ w.requirements c₂, x ∉ w.requirements c₁ := fun x h₂ h₁ => hdisj x h₁ h₂
  rcases Bool.eq_false_or_eq_true s.adding with hadd | hadd
  · have hadd' : (s.record (.error .incompatibleState
        "Can not start command from cancel method")).adding = true := hadd
    rw [processCommandAddition_of_adding hadd c₁, processCommandAddition_of_adding hadd c₂, ok_bind,
      ok_bind, processCommandAddition_of_adding hadd', processCommandAddition_of_adding hadd']
    exact ⟨_, _, rfl, rfl, rfl, fun _ => rfl⟩
  by_cases hne : c₁ = c₂
  · subst hne
    obtain ⟨t, he⟩ := processCommandAddition_then_ok hs hA c₁ c₁
    exact ⟨t, t, he, he, rfl, fun _ => rfl⟩
  cases hb₁ : (w.requirements c₁).toList.any (blocked w s) <;>
    cases hb₂ : (w.requirements c₂).toList.any (blocked w s)
  · -- both unblocked
    obtain ⟨t₁₂, he₁₂, hc₁₂, hh₁₂⟩ := processCommandAddition_pair hs hadd h₁ h₂ hne hdisj hb₁ hb₂ hA
    obtain ⟨t₂₁, he₂₁, hc₂₁, hh₂₁⟩ :=
      processCommandAddition_pair hs hadd h₂ h₁ (Ne.symm hne) hdisj' hb₂ hb₁ hA
    refine ⟨t₁₂, t₂₁, he₁₂, he₂₁, PtrSet.ext_mem fun x => ?_, fun sub => ?_⟩
    · rw [hc₁₂, hc₂₁]
      exact or_left_comm.trans (or_congr_right (or_congr_right (and_congr_right fun _ => and_comm)))
    · rw [hh₁₂, hh₂₁]
      by_cases hs₁ : sub ∈ w.requirements c₁
      · simp [hs₁, hdisj sub hs₁]
      · simp [hs₁, Option.filter_comm]
  · -- only the second blocked
    obtain ⟨t, he₁₂, he₂₁⟩ := processCommandAddition_one_blocked hs hadd h₁ h₂ hne hdisj hb₁ hb₂ hA
    exact ⟨t, t, he₁₂, he₂₁, rfl, fun _ => rfl⟩
  · -- only the first blocked
    obtain ⟨t, he₂₁, he₁₂⟩ :=
      processCommandAddition_one_blocked hs hadd h₂ h₁ (Ne.symm hne) hdisj' hb₂ hb₁ hA
    exact ⟨t, t, he₁₂, he₂₁, rfl, fun _ => rfl⟩
  · -- both blocked
    refine ⟨s, s, ?_, ?_, rfl, fun _ => rfl⟩
    · rw [processCommandAddition_of_blocked hadd h₁ hb₁, ok_bind,
        processCommandAddition_of_blocked hadd h₂ hb₂]
    · rw [processCommandAddition_of_blocked hadd h₂ hb₂, ok_bind,
        processCommandAddition_of_blocked hadd h₁ hb₁]

/-- Command `5` starts and takes subsystems `1` and `2`. -/
def soloRun : List Op := [.addCommand (some 5), .run]

theorem processCommandAddition_comm_pair :
    ∃ s, execAll pairRegistry quietHooks soloRun State.init = .ok s ∧ s.commands.toList = [5] ∧
      HolderConsistent pairRegistry s ∧ 3 ∉ s.commands ∧ 4 ∉ s.commands ∧
      (∀ x ∈ pairRegistry.requirements 3, x ∉ pairRegistry.requirements 4) ∧
      (∀ st d, ∀ a ∈ quietHooks.removed st d, a.Allowed s.additionsLocked) ∧
      ∃ t₁₂ t₂₁,
        (processCommandAddition pairRegistry quietHooks (some 3) s >>=
          processCommandAddition pairRegistry quietHooks (some 4)) = .ok t₁₂ ∧
        (processCommandAddition pairRegistry quietHooks (some 4) s >>=
          processCommandAddition pairRegistry quietHooks (some 3)) = .ok t₂₁ ∧
        t₁₂.commands = t₂₁.commands ∧ ∀ sub, t₁₂.currentCommand sub = t₂₁.currentCommand sub :=
  have hr := Reachable.of_execAll (w := pairRegistry) (h := quietHooks) soloRun .init rfl
  have hs := (hr.invariant fun _ _ _ h => (List.not_mem_nil _ h).elim).consistent
  have hdisj : ∀ x ∈ pairRegistry.requirements 3, x ∉ pairRegistry.requirements 4 := fun x hx => by
    simp_all [pairRegistry, PtrSet.mem_def]
  have hA : ∀ st d, ∀ a ∈ quietHooks.removed st d, a.Allowed false :=
    fun _ _ _ ha => (List.not_mem_nil _ ha).elim
  ⟨_, rfl, rfl, hs, by decide, by decide, hdisj, hA,
    processCommandAddition_comm hs (by decide) (by decide) hdisj hA⟩

end

/-! ## A `Removed` hook that removes a blocker -/

/-- Commands `3` and `5` require subsystem `1`, commands `4` and `6` require
subsystem `2`; command `4` may not be interrupted. -/
def splitRegistry : Registry where
  requirements c :=
    if c = 3 ∨ c = 5 then ⟨[1], by decide⟩ else if c = 4 ∨ c = 6 then ⟨[2], by decide⟩ else .empty
  interruptible c := c ≠ 4
  id c := c
  name _ := "Command"
  defaultCommand _ := none

theorem splitRegistry_consistent : HolderConsistent splitRegistry pairState :=
  pairState_consistent.of_requirements fun c hc => by
    rcases (show c = 3 ∨ c = 4 by simpa [pairState, PtrSet.mem_def] using hc) with rfl | rfl <;> rfl

/-- **The order of two admissions can matter.** Commands `5` and `6` share no
requirement and neither runs. Admitting `5` displaces `3`, whose `Removed`
hook removes `4`, the holder of `6`'s requirement that cannot be interrupted,
so `6` is admitted after it. In the other order `4` still blocks `6`, which
is not admitted. -/
theorem processCommandAddition_order_matters :
    HolderConsistent splitRegistry pairState ∧ 5 ∉ pairState.commands ∧ 6 ∉ pairState.commands ∧
      (∀ x ∈ splitRegistry.requirements 5, x ∉ splitRegistry.requirements 6) ∧
      ∃ t₁₂ t₂₁,
        (processCommandAddition splitRegistry removingHooks (some 5) pairState >>=
          processCommandAddition splitRegistry removingHooks (some 6)) = .ok t₁₂ ∧
        (processCommandAddition splitRegistry removingHooks (some 6) pairState >>=
          processCommandAddition splitRegistry removingHooks (some 5)) = .ok t₂₁ ∧
        t₁₂.commands.toList = [5, 6] ∧ t₂₁.commands.toList = [5] ∧
        t₁₂.currentCommand 2 = some 6 ∧ t₂₁.currentCommand 2 = none :=
  ⟨splitRegistry_consistent, by decide, by decide,
    fun x hx => by simp_all [splitRegistry, PtrSet.mem_def], _, _, rfl, rfl, rfl, rfl, rfl, rfl⟩

end Wpilib.Commands
