import Wpilib.Commands.Invariant

/-!
# Commands — the step phase of `Run`

The command loop of `Scheduler::Run` advances its iterator before it steps the
command, so that `Remove` of the command being stepped leaves the iterator
valid. `stepEach` is the loop as it is meant to behave: every command of the
set as the phase found it is stepped once, in order, unless an earlier step
removed it.

When the `Run` and `Removed` hooks call only `AddCommand` and `Cancel`, a step
can erase no command but its own, and the iterator loop is `stepEach`
(`stepCommands_eq_stepEach`). A hook that removes the command after the one
being stepped leaves the iterator on an erased element
(`stepCommands_next_removed`).
-/

namespace Wpilib.Commands

section

variable (w : Registry) (h : Hooks)

/-- The step phase as it is meant to run: each command of the snapshot `cs`
that is still running when its turn comes is stepped once, in order. -/
def stepEach : List Command → State → Except Fault State
  | [], s => .ok s
  | c :: cs, s => (if c ∈ s.commands then stepCommand w h c s else .ok s) >>= stepEach cs

end

section Tame

variable {w : Registry} {h : Hooks}
variable (hRun : ∀ st c, ∀ a ∈ (h.run st c).1, a.Tame)
variable (hR : ∀ st d, ∀ a ∈ h.removed st d, a.Tame)

include hRun hR in
/-- A step under tame hooks erases at most the command stepped. -/
theorem stepCommand_commands {c : Command} {s t : State} (he : stepCommand w h c s = .ok t) :
    t.commands = s.commands ∨ t.commands = s.commands.erase c := by
  obtain ⟨u, hu, he⟩ := bind_eq_ok.1 he
  have hu' := perform_ok (hRun _ c) hu
  split at he
  · left; rw [← Except.ok.inj he, hu']; rfl
  · obtain ⟨v, hv, he⟩ := bind_eq_ok.1 he
    rw [← Except.ok.inj he]
    rcases remove_ok hR hv with ⟨-, rfl⟩ | ⟨-, hv'⟩
    · left; rw [hu']; rfl
    · right; rw [hv', hu']; simp

include hRun hR in
/-- With the mutex free, a step under tame hooks returns and leaves the mutex
free. -/
theorem stepCommand_ok (c : Command) {s : State} (hl : s.additionsLocked = false) :
    ∃ t, stepCommand w h c s = .ok t ∧ t.additionsLocked = false := by
  have hA : ∀ a ∈ (h.run (s.record (.run c)) c).1, a.Allowed (s.record (.run c)).additionsLocked :=
    fun a ha => ⟨hRun _ c a ha, fun _ => hl⟩
  unfold stepCommand
  dsimp only
  rw [perform, performWith_allowed _ hA]
  dsimp only [Bind.bind, Except.bind]
  split
  · exact ⟨_, rfl, hl⟩
  · obtain ⟨v, hv, hvl⟩ := remove_allowed (w := w) (h := h)
      (s := { s.record (.run c) with additions := _ })
      (fun st d a ha => ⟨hR st d a ha, fun _ => hl⟩) c
    exact ⟨_, by rw [hv], by simpa [hl] using hvl⟩

include hRun hR in
/-- The loop from a point where `pre` has been visited and `cs` is the rest of
the set: the iterator always stands on the next command of `cs`. -/
theorem stepCommands_eq_stepEach : ∀ (cs pre : List Command) (s : State),
    s.commands.toList = pre ++ cs → stepCommands w h cs cs.head? s = stepEach w h cs s
  | [], _, _, _ => rfl
  | c :: cs, pre, s, hs => by
    have hc : c ∈ s.commands := by simp [← PtrSet.mem_toList, hs]
    simp only [stepCommands, stepEach, List.head?_cons, ne_eq, not_true_eq_false, if_false,
      hc, not_true, if_true, PtrSet.next_eq_head hs]
    cases ht : stepCommand w h c s with
    | error e => rfl
    | ok t =>
      show stepCommands w h cs cs.head? t = stepEach w h cs t
      rcases stepCommand_commands hRun hR ht with h' | h'
      · exact stepCommands_eq_stepEach cs (pre ++ [c]) t (by rw [h', hs]; simp)
      · exact stepCommands_eq_stepEach cs pre t (by rw [h', PtrSet.erase_toList_of_eq hs])

include hRun hR in
theorem stepEach_ok : ∀ (cs : List Command) {s : State}, s.additionsLocked = false →
    ∃ t, stepEach w h cs s = .ok t
  | [], s, _ => ⟨s, rfl⟩
  | c :: cs, s, hl => by
    obtain ⟨u, hu, hul⟩ : ∃ u, (if c ∈ s.commands then stepCommand w h c s else .ok s) = .ok u ∧
        u.additionsLocked = false := by
      split
      · exact stepCommand_ok hRun hR c hl
      · exact ⟨s, rfl, hl⟩
    obtain ⟨t, ht⟩ := stepEach_ok cs hul
    exact ⟨t, by rw [stepEach, hu]; exact ht⟩

include hRun hR in
/-- **The step loop steps each running command once.** With `Run` and
`Removed` hooks that call only `AddCommand` and `Cancel`, the command loop of
`Run` is `stepEach` over the set as the phase found it, and with
`m_additionsMutex` free it returns. -/
theorem stepCommands_steps_each (s : State) :
    stepCommands w h s.commands.toList s.commands.toList.head? s =
        stepEach w h s.commands.toList s ∧
      (s.additionsLocked = false →
        ∃ t, stepCommands w h s.commands.toList s.commands.toList.head? s = .ok t) :=
  have heq := stepCommands_eq_stepEach hRun hR s.commands.toList [] s rfl
  ⟨heq, fun hl => heq ▸ stepEach_ok hRun hR _ hl⟩

end Tame

/-- Command `3`'s step removes command `4`, which follows it in the set. -/
def nextRemovingHooks : Hooks :=
  { quietHooks with run := fun _ c => (if c = 3 then [.remove (some 4)] else [], true) }

theorem stepCommands_steps_each_quiet :
    stepCommands pairRegistry quietHooks pairState.commands.toList
        pairState.commands.toList.head? pairState =
      stepEach pairRegistry quietHooks pairState.commands.toList pairState ∧
    (pairState.additionsLocked = false →
      ∃ t, stepCommands pairRegistry quietHooks pairState.commands.toList
        pairState.commands.toList.head? pairState = .ok t) :=
  stepCommands_steps_each (fun _ _ _ h => (List.not_mem_nil _ h).elim)
    (fun _ _ _ h => (List.not_mem_nil _ h).elim) pairState

/-- **The iterator can land on an erased command.** Commands `3` and `4` run;
in the next tick, `3`'s step removes `4`, where the iterator already stands:
the loop's next round dereferences an erased element, where `stepEach` would
have skipped `4`. -/
theorem stepCommands_next_removed :
    ∃ s, execAll pairRegistry nextRemovingHooks
        [.addCommand (some 3), .addCommand (some 4), .run] State.init = .ok s ∧
      s.commands.toList = [3, 4] ∧
      stepCommands pairRegistry nextRemovingHooks s.commands.toList
        s.commands.toList.head? s = .error .invalidIterator ∧
      (∃ t, stepEach pairRegistry nextRemovingHooks s.commands.toList s = .ok t) ∧
      run pairRegistry nextRemovingHooks s = .error .invalidIterator :=
  ⟨_, rfl, rfl, rfl, ⟨_, rfl⟩, rfl⟩

end Wpilib.Commands
