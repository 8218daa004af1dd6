import Wpilib.Commands.Calls

/-!
# Commands — the fuel of nested `Remove`

`removeN` bounds how deep `Remove` nests through `Removed` hooks, and `remove`
starts it one past the size of the running set. A nested `Remove` that does
anything erases a running command first, and no call a hook makes adds to the
running set, so the size of the running set bounds the depth (`removeN_fuel`).
Whatever the hooks' user code calls, no entry point of the scheduler fails by
running out of fuel (`execAll_ne_outOfFuel`): the fuel is a bound the code
never reaches, not a behaviour of the model.
-/

namespace Wpilib.Commands

/-- A result with at most `n` running commands, or a failure other than
running out of fuel. -/
def Settles (n : Nat) : Except Fault State → Prop
  | .ok t => t.commands.size ≤ n
  | .error e => e ≠ .outOfFuel

namespace Settles

variable {m n : Nat} {x : Except Fault State}

theorem mono (hx : Settles m x) (hmn : m ≤ n) : Settles n x := by
  cases x with
  | ok t => exact Nat.le_trans hx hmn
  | error e => exact hx

theorem ne_outOfFuel (hx : Settles n x) : x ≠ .error .outOfFuel := by
  cases x with
  | ok t => exact fun h => nomatch h
  | error e => exact fun h => hx (Except.error.inj h)

/-- A chain settles when its first call does and the rest settles from every
state the first call can return, with no more running commands. -/
theorem bind {f : State → Except Fault State} (hx : Settles n x)
    (hf : ∀ t, t.commands.size ≤ n → Settles t.commands.size (f t)) : Settles n (x >>= f) := by
  cases x with
  | ok t => exact (hf t hx).mono hx
  | error e => exact hx

end Settles

theorem ne_outOfFuel_bind {x : Except Fault State} {f : State → Except Fault State}
    (hx : x ≠ .error .outOfFuel) (hf : ∀ t, x = .ok t → f t ≠ .error .outOfFuel) :
    x >>= f ≠ .error .outOfFuel := by
  cases x with
  | ok t => exact hf t rfl
  | error e => exact hx

theorem ok_ne_outOfFuel (t : State) : (Except.ok t : Except Fault State) ≠ .error .outOfFuel :=
  fun h => nomatch h

/-! ## `Remove` and `RemoveAll` -/

/-- What `removeN n` does below size `n`: every call returns with no more
running commands, and one on a running command with fewer. -/
def FuelFor (r : Option Command → State → Except Fault State) (n : Nat) : Prop :=
  ∀ c s, s.commands.size < n → Settles s.commands.size (r c s) ∧
    ∀ d, c = some d → d ∈ s.commands → Settles (s.commands.size - 1) (r c s)

section

variable {w : Registry} {h : Hooks}

theorem addCommand_settles (c : Option Command) (s : State) :
    Settles s.commands.size (addCommand c s) := by
  unfold addCommand
  split_ifs
  · exact fun h => nomatch h
  · exact Nat.le_refl _
  · exact Nat.le_refl _

/-- The loop of `RemoveAll` settles when each round removes a running
command. -/
theorem removeAllLoop_settles {r : Option Command → State → Except Fault State} {n : Nat}
    (hr : FuelFor r n) : ∀ (k : Nat) (s : State), s.commands.size ≤ k → s.commands.size < n →
      Settles s.commands.size (removeAllLoop r k s)
  | 0, s, hk, _ => by
    have hs : s.commands.toList = [] := List.length_eq_zero.1 (Nat.le_zero.1 hk)
    simp only [removeAllLoop, hs, if_true]
    exact Nat.le_refl _
  | k + 1, s, hk, hn => by
    unfold removeAllLoop
    split
    · exact Nat.le_refl _
    · rename_i c rest hc
      have hmem : c ∈ s.commands := PtrSet.mem_toList.1 (hc ▸ List.mem_cons_self c rest)
      refine (((hr (some c) s hn).2 c rfl hmem).bind fun t ht => ?_).mono (Nat.sub_le _ _)
      exact removeAllLoop_settles hr k t (by omega) (by omega)

/-- The calls of a hook settle when `Remove` does below size `n`. -/
theorem performWith_settles {r : Option Command → State → Except Fault State} {n : Nat}
    (hr : FuelFor r n) : ∀ (as : List Action) (s : State), s.commands.size < n →
      Settles s.commands.size
        (performWith r (fun s => removeAllLoop r s.commands.size s) as s)
  | [], _, _ => Nat.le_refl _
  | .addCommand c :: as, s, hn =>
    (addCommand_settles c s).bind fun t ht => performWith_settles hr as t (by omega)
  | .cancel _ :: as, s, hn => performWith_settles hr as s hn
  | .remove c :: as, s, hn =>
    (hr c s hn).1.bind fun t ht => performWith_settles hr as t (by omega)
  | .removeAll :: as, s, hn =>
    (removeAllLoop_settles hr _ s (Nat.le_refl _) hn).bind fun t ht =>
      performWith_settles hr as t (by omega)

/-- **The nesting of `Remove` is no deeper than the running set is large.** -/
theorem removeN_fuel : ∀ n, FuelFor (removeN w h n) n
  | 0 => fun _ _ hn => absurd hn (Nat.not_lt_zero _)
  | n + 1 => fun c s hn => by
    cases c with
    | none => exact ⟨Nat.le_refl _, fun _ h => nomatch h⟩
    | some d =>
      by_cases hd : d ∈ s.commands
      · have hpos : 0 < s.commands.size := List.length_pos_of_mem hd
        have hsize : (eraseCommand w d s).commands.size = s.commands.size - 1 := by
          simp [PtrSet.size_erase hd]
        have hx : Settles (s.commands.size - 1) (removeN w h (n + 1) (some d) s) := by
          simp only [removeN, hd, if_true]
          rw [← hsize]
          exact performWith_settles (removeN_fuel n) _ _ (by omega)
        exact ⟨hx.mono (Nat.sub_le _ _), fun _ _ _ => hx⟩
      · simp only [removeN, hd, if_false]
        exact ⟨Nat.le_refl _, fun _ hc hd' => absurd (Option.some.inj hc ▸ hd') hd⟩

theorem remove_fuel (n : Nat) : FuelFor (remove w h) n := fun c s _ =>
  removeN_fuel _ c s (Nat.lt_succ_self _)

theorem remove_settles (c : Option Command) (s : State) :
    Settles s.commands.size (remove w h c s) :=
  (remove_fuel (s.commands.size + 1) c s (Nat.lt_succ_self _)).1

theorem removeAll_settles (s : State) : Settles s.commands.size (removeAll w h s) :=
  removeAllLoop_settles (remove_fuel (s.commands.size + 1)) _ s (Nat.le_refl _) (Nat.lt_succ_self _)

theorem perform_settles (as : List Action) (s : State) :
    Settles s.commands.size (perform w h as s) :=
  performWith_settles (remove_fuel (s.commands.size + 1)) as s (Nat.lt_succ_self _)

/-! ## Every entry point -/

theorem giveRequirements_ne_outOfFuel (c : Command) :
    ∀ (reqs : List Subsystem) (s : State), giveRequirements w h c reqs s ≠ .error .outOfFuel
  | [], s => ok_ne_outOfFuel s
  | lock :: rest, s => by
    refine ne_outOfFuel_bind ?_ fun t _ => giveRequirements_ne_outOfFuel c rest _
    split
    · exact (remove_settles _ _).ne_outOfFuel
    · exact ok_ne_outOfFuel s

theorem processCommandAddition_ne_outOfFuel (c : Option Command) (s : State) :
    processCommandAddition w h c s ≠ .error .outOfFuel := by
  unfold processCommandAddition
  split
  · exact ok_ne_outOfFuel s
  · split_ifs
    · exact ok_ne_outOfFuel _
    · exact ok_ne_outOfFuel s
    · exact ok_ne_outOfFuel s
    · exact ne_outOfFuel_bind (giveRequirements_ne_outOfFuel _ _ _) fun t _ => ok_ne_outOfFuel _

theorem pollButtons_ne_outOfFuel :
    ∀ (bs : List ButtonScheduler) (s : State), pollButtons w h bs s ≠ .error .outOfFuel
  | [], s => ok_ne_outOfFuel s
  | _ :: bs, _ => ne_outOfFuel_bind (perform_settles _ _).ne_outOfFuel fun t _ =>
    pollButtons_ne_outOfFuel bs t

theorem callPeriodic_ne_outOfFuel :
    ∀ (subs : List Subsystem) (s : State), callPeriodic w h subs s ≠ .error .outOfFuel
  | [], s => ok_ne_outOfFuel s
  | _ :: subs, _ => ne_outOfFuel_bind (perform_settles _ _).ne_outOfFuel fun t _ =>
    callPeriodic_ne_outOfFuel subs t

theorem stepCommand_ne_outOfFuel (c : Command) (s : State) :
    stepCommand w h c s ≠ .error .outOfFuel := by
  refine ne_outOfFuel_bind (perform_settles _ _).ne_outOfFuel fun t _ => ?_
  split
  · exact ok_ne_outOfFuel t
  · exact ne_outOfFuel_bind (remove_settles _ _).ne_outOfFuel fun u _ => ok_ne_outOfFuel _

theorem stepCommands_ne_outOfFuel : ∀ (cs : List Command) (it : Option Command) (s : State),
    stepCommands w h cs it s ≠ .error .outOfFuel
  | [], _, s => ok_ne_outOfFuel s
  | c :: cs, it, s => by
    unfold stepCommands
    split_ifs
    · exact stepCommands_ne_outOfFuel cs it s
    · exact ne_outOfFuel_bind (stepCommand_ne_outOfFuel c s) fun t _ =>
        stepCommands_ne_outOfFuel cs _ t
    · exact fun h => nomatch h

theorem processAdditions_ne_outOfFuel :
    ∀ (q : List (Option Command)) (s : State), processAdditions w h q s ≠ .error .outOfFuel
  | [], s => ok_ne_outOfFuel s
  | c :: q, s => ne_outOfFuel_bind (processCommandAddition_ne_outOfFuel c s) fun t _ =>
    processAdditions_ne_outOfFuel q t

theorem addDefaults_ne_outOfFuel :
    ∀ (subs : List Subsystem) (s : State), addDefaults w h subs s ≠ .error .outOfFuel
  | [], s => ok_ne_outOfFuel s
  | sub :: subs, s => by
    refine ne_outOfFuel_bind ?_ fun t _ => addDefaults_ne_outOfFuel subs _
    split
    · exact processCommandAddition_ne_outOfFuel _ s
    · exact ok_ne_outOfFuel s

theorem run_ne_outOfFuel (s : State) : run w h s ≠ .error .outOfFuel := by
  unfold run runPhases drainAdditions
  split
  · refine ne_outOfFuel_bind ?_ fun t _ => addDefaults_ne_outOfFuel _ t
    refine ne_outOfFuel_bind (pollButtons_ne_outOfFuel _ s) fun t₁ _ => ?_
    refine ne_outOfFuel_bind (callPeriodic_ne_outOfFuel _ t₁) fun t₂ _ => ?_
    refine ne_outOfFuel_bind (stepCommands_ne_outOfFuel _ _ _) fun t₃ _ => ?_
    exact ne_outOfFuel_bind (processAdditions_ne_outOfFuel _ _) fun t₄ _ => ok_ne_outOfFuel _
  · exact ok_ne_outOfFuel s

/-- **No entry point runs out of fuel**: whatever the hooks' user code calls,
any sequence of the scheduler's entry points from any state returns or fails
for a reason of the code's own, a relocked mutex or an erased iterator. -/
theorem execAll_ne_outOfFuel :
    ∀ (ops : List Op) (s : State), execAll w h ops s ≠ .error .outOfFuel
  | [], s => ok_ne_outOfFuel s
  | op :: ops, s => by
    refine ne_outOfFuel_bind ?_ fun t _ => execAll_ne_outOfFuel ops t
    cases op with
    | addCommand c => exact (addCommand_settles c s).ne_outOfFuel
    | run => exact run_ne_outOfFuel s
    | remove c => exact (remove_settles c s).ne_outOfFuel
    | removeAll => exact (removeAll_settles s).ne_outOfFuel
    | _ => exact ok_ne_outOfFuel _

end

end Wpilib.Commands
