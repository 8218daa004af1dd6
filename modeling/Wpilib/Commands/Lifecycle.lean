import Wpilib.Commands.Admission

/-!
# Commands — the lifecycle calls

The scheduler calls a command's `StartRunning` when it admits it and its
`Removed` when `Remove` erases it. `lifecycle c log` picks those calls of `c`
out of the event log; `Alternates` says they alternate from `StartRunning`,
and that `c` is running exactly after an odd number of them. Erasing a running
command and admitting a command that is not running keep that
(`Alternates.erase`, `Alternates.admission`); every other event leaves the
lifecycle calls alone.
-/

namespace Wpilib.Commands

/-- `StartRunning` and `Removed` calls. -/
def Event.isLifecycle : Event → Bool
  | .startRunning _ => true
  | .removed _ => true
  | _ => false

/-- The `StartRunning` and `Removed` calls of `c` in the log, in order. -/
def lifecycle (c : Command) (log : List Event) : List Event :=
  log.filter fun e => e = .startRunning c ∨ e = .removed c

/-- `n` calls of `c`'s hooks alternating from `StartRunning`. -/
def alternation (c : Command) (n : Nat) : List Event :=
  (List.range n).map fun i => if i % 2 = 0 then .startRunning c else .removed c

/-- Every command's `StartRunning` and `Removed` calls alternate, starting with
`StartRunning`, and the command is running exactly when the last was
`StartRunning`. -/
def Alternates (s : State) : Prop :=
  ∀ c, lifecycle c s.log = alternation c (lifecycle c s.log).length ∧
    (c ∈ s.commands ↔ (lifecycle c s.log).length % 2 = 1)

section Lemmas

variable {c : Command}

@[simp] theorem lifecycle_nil : lifecycle c [] = [] := rfl

@[simp] theorem lifecycle_append (l₁ l₂ : List Event) :
    lifecycle c (l₁ ++ l₂) = lifecycle c l₁ ++ lifecycle c l₂ := by simp [lifecycle]

theorem lifecycle_quiet {e : Event} (he : e.isLifecycle = false) : lifecycle c [e] = [] := by
  cases e <;> simp_all [lifecycle, Event.isLifecycle]

@[simp] theorem lifecycle_startRunning (d : Command) :
    lifecycle c [.startRunning d] = if d = c then [.startRunning c] else [] := by
  by_cases h : d = c <;> simp [lifecycle, h]

@[simp] theorem lifecycle_removed (d : Command) :
    lifecycle c [.removed d] = if d = c then [.removed c] else [] := by
  by_cases h : d = c <;> simp [lifecycle, h]

@[simp] theorem lifecycle_cancel (d : Command) : lifecycle c [.cancel d] = [] := by
  simp [lifecycle]

/-- The displacements of an admission show one `Removed` for each displaced
command. -/
theorem lifecycle_displaced {ds : List Command} (hds : ds.Nodup) :
    lifecycle c (ds.flatMap fun d => [.cancel d, .removed d]) =
      if c ∈ ds then [.removed c] else [] := by
  induction ds with
  | nil => simp
  | cons d ds ih =>
    obtain ⟨hd, hds⟩ := List.nodup_cons.1 hds
    rw [List.flatMap_cons, lifecycle_append, ih hds,
      show [Event.cancel d, .removed d] = [.cancel d] ++ [.removed d] from rfl, lifecycle_append]
    by_cases e : d = c
    · subst e; simp [hd]
    · simp [e, Ne.symm e]

theorem alternation_succ (n : Nat) :
    alternation c (n + 1) =
      alternation c n ++ [if n % 2 = 0 then .startRunning c else .removed c] := by
  simp [alternation, List.range_succ]

@[simp] theorem length_alternation (n : Nat) : (alternation c n).length = n := by
  simp [alternation]

end Lemmas

namespace Alternates

variable {s s' : State}

/-- Events other than lifecycle calls, and changes away from the running set,
keep the alternation. -/
theorem congr (ha : Alternates s) (hc : s'.commands = s.commands)
    (hl : ∀ c, lifecycle c s'.log = lifecycle c s.log) : Alternates s' := fun c => by
  rw [hl, hc]; exact ha c

theorem record (ha : Alternates s) {e : Event} (he : e.isLifecycle = false) :
    Alternates (s.record e) :=
  ha.congr rfl fun c => by simp [lifecycle_quiet he]

/-- One more lifecycle call of `c`, when it is the one the alternation expects. -/
theorem snoc {c : Command} {e : Event} {log : List Event}
    (h : lifecycle c log = alternation c (lifecycle c log).length)
    (he : e = if (lifecycle c log).length % 2 = 0 then .startRunning c else .removed c) :
    lifecycle c log ++ [e] = alternation c ((lifecycle c log).length + 1) := by
  rw [alternation_succ, ← h, he]

/-- `Remove` erasing a running command. -/
theorem erase (ha : Alternates s) (w : Registry) {c : Command} (hc : c ∈ s.commands) :
    Alternates (eraseCommand w c s) := by
  intro d
  by_cases e : c = d
  · subst e
    have hodd := (ha c).2.1 hc
    have hl : lifecycle c (eraseCommand w c s).log = lifecycle c s.log ++ [.removed c] := by simp
    rw [hl, List.length_append, List.length_singleton]
    refine ⟨snoc (ha c).1 (by simp [hodd]), ?_⟩
    simp only [eraseCommand_commands, PtrSet.mem_erase, ne_eq, not_true_eq_false, false_and,
      false_iff]
    omega
  · simpa [e, Ne.symm e] using ha d

/-- An admission of a command that is not running, from a holder-consistent
state. -/
theorem admission (ha : Alternates s) {w : Registry} (hs : HolderConsistent w s) {c : Command}
    {ds : List Command} (hc : c ∉ s.commands) (had : Admitted w c s s' ds) : Alternates s' := by
  have hds : ∀ {d}, d ∈ ds → d ∈ s.commands := fun hd => by
    obtain ⟨sub, -, hsd⟩ := (had.mem_iff _).1 hd
    exact (hs.running sub _ hsd).1
  intro d
  rw [had.log, lifecycle_append, lifecycle_append, lifecycle_displaced had.nodup,
    lifecycle_startRunning, had.commands]
  by_cases hd : d ∈ ds
  · have hdc : c ≠ d := fun e => hc (e ▸ hds hd)
    have hodd := (ha d).2.1 (hds hd)
    simp only [hd, if_true, hdc, if_false, List.append_nil, List.length_append,
      List.length_singleton]
    refine ⟨snoc (ha d).1 (by simp [hodd]), ?_⟩
    simp only [Ne.symm hdc, false_or, hd, not_true_eq_false, and_false, false_iff]
    omega
  · by_cases e : c = d
    · subst e
      have heven : (lifecycle c s.log).length % 2 = 0 :=
        Nat.mod_two_ne_one.1 fun h => hc ((ha c).2.2 h)
      simp only [hd, if_false, List.append_nil, if_true, List.length_append,
        List.length_singleton, true_or, true_iff]
      refine ⟨snoc (ha c).1 (by simp [heven]), ?_⟩
      omega
    · simp only [hd, if_false, e, List.append_nil, Ne.symm e, false_or, not_false_eq_true,
        and_true]
      exact ha d

end Alternates

end Wpilib.Commands
