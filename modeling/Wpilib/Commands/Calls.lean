import Wpilib.Commands.Scheduler

/-!
# Commands — what hooks' calls do

Most results about the scheduler assume hooks whose user code calls only
`AddCommand` and `Cancel` (`Hooks.Tame`). For such calls the scheduler's whole
response is to the additions queue: `performWith_tame` computes it, and a call
of `AddCommand` with `m_additionsMutex` held is the one way they fail.
`remove_ok` then says everything `Scheduler::Remove` can do under tame hooks.

Each loop of `Run` threads the state through one call per element; its rule
(`pollButtons_rule`, ..., `addDefaults_rule`) says that a property every call
keeps holds after the loop.
-/

namespace Wpilib.Commands

namespace Action

/-- The call is `AddCommand` or `Cancel`. -/
def Tame : Action → Prop
  | .addCommand _ => True
  | .cancel _ => True
  | _ => False

/-- Whether the call is `AddCommand`. -/
def isAddCommand : Action → Bool
  | .addCommand _ => true
  | _ => false

/-- A call that returns whether `m_additionsMutex` is held (`locked`) or
not: `Cancel`, and `AddCommand` while the mutex is free. -/
def Allowed (locked : Bool) (a : Action) : Prop := a.Tame ∧ (a.isAddCommand → locked = false)

end Action

/-- Every hook's user code calls only `AddCommand` and `Cancel`. -/
structure Hooks.Tame (h : Hooks) : Prop where
  execute : ∀ s b, ∀ a ∈ h.execute s b, a.Tame
  periodic : ∀ s sub, ∀ a ∈ h.periodic s sub, a.Tame
  run : ∀ s c, ∀ a ∈ (h.run s c).1, a.Tame
  removed : ∀ s c, ∀ a ∈ h.removed s c, a.Tame

/-- The queue after `AddCommand` for each command the calls name, in order. -/
def enqueue (q : List (Option Command)) : List Action → List (Option Command)
  | [] => q
  | .addCommand c :: as => enqueue (if c ∈ q then q else q ++ [c]) as
  | _ :: as => enqueue q as

/-- A chain of calls returned iff its first call returned and so did the
rest. -/
theorem bind_eq_ok {ε α β : Type} {x : Except ε α} {f : α → Except ε β} {b : β} :
    x >>= f = .ok b ↔ ∃ a, x = .ok a ∧ f a = .ok b := by
  cases x <;> simp [Bind.bind, Except.bind]

@[simp] theorem ok_bind {ε α β : Type} (a : α) (f : α → Except ε β) :
    (Except.ok a : Except ε α) >>= f = f a := rfl

section

variable {w : Registry} {h : Hooks}

/-- **Tame calls touch only the queue**: they fail exactly when one of them is
`AddCommand` while the scheduler's thread holds `m_additionsMutex`. -/
theorem performWith_tame {r : Option Command → State → Except Fault State}
    {ra : State → Except Fault State} {as : List Action} (s : State)
    (hT : ∀ a ∈ as, a.Tame) :
    performWith r ra as s =
      if s.additionsLocked && as.any Action.isAddCommand then .error .deadlock
      else .ok { s with additions := enqueue s.additions as } := by
  induction as generalizing s with
  | nil => simp [performWith, enqueue]
  | cons a as ih =>
    have hT' : ∀ a ∈ as, a.Tame := fun a ha => hT a (List.mem_cons_of_mem _ ha)
    cases a with
    | addCommand c =>
      cases hl : s.additionsLocked
      · by_cases hc : c ∈ s.additions
        · simp [performWith, addCommand, hl, hc, ih s hT', enqueue, Bind.bind, Except.bind]
        · simp [performWith, addCommand, hl, hc, ih _ hT', enqueue, Bind.bind, Except.bind]
      · simp [performWith, addCommand, hl, Bind.bind, Except.bind, Action.isAddCommand]
    | cancel c => simp [performWith, ih s hT', enqueue, Action.isAddCommand]
    | remove c => exact (hT _ (List.mem_cons_self _ _)).elim
    | removeAll => exact (hT _ (List.mem_cons_self _ _)).elim

theorem performWith_ok {r : Option Command → State → Except Fault State}
    {ra : State → Except Fault State} {as : List Action} {s s' : State}
    (hT : ∀ a ∈ as, a.Tame) (he : performWith r ra as s = .ok s') :
    s' = { s with additions := s'.additions } := by
  rw [performWith_tame s hT] at he
  split at he
  · cases he
  · cases he; rfl

/-- Calls that are `Allowed` under the mutex's state return. -/
theorem performWith_allowed {r : Option Command → State → Except Fault State}
    {ra : State → Except Fault State} {as : List Action} (s : State)
    (hA : ∀ a ∈ as, a.Allowed s.additionsLocked) :
    performWith r ra as s = .ok { s with additions := enqueue s.additions as } := by
  rw [performWith_tame s fun a ha => (hA a ha).1]
  have : ¬ (s.additionsLocked && as.any Action.isAddCommand) = true := by
    simp only [Bool.and_eq_true, List.any_eq_true, not_and, not_exists]
    exact fun hl a ha hadd => by simp [(hA a ha).2 hadd] at hl
  simp [this]

theorem perform_ok {as : List Action} {s s' : State} (hT : ∀ a ∈ as, a.Tame)
    (he : perform w h as s = .ok s') : s' = { s with additions := s'.additions } :=
  performWith_ok hT he

@[simp] theorem releaseRequirements_eq (s : State) (reqs : List Subsystem) :
    releaseRequirements s reqs =
      { s with currentCommand := fun sub => if sub ∈ reqs then none else s.currentCommand sub } := by
  induction reqs generalizing s with
  | nil => rfl
  | cons lock rest ih =>
    simp only [releaseRequirements, List.foldl_cons] at ih ⊢
    rw [ih]
    congr 1
    funext sub
    by_cases h1 : sub = lock <;> by_cases h2 : sub ∈ rest <;> simp [h1, h2]

section EraseCommand

variable (w : Registry) (c : Command) (s : State)

theorem eraseCommand_eq : eraseCommand w c s =
    { s with commands := s.commands.erase c,
             currentCommand := fun sub => if sub ∈ w.requirements c then none else s.currentCommand sub,
             log := s.log ++ [.removed c] } := by
  simp [eraseCommand, State.record]

@[simp] theorem eraseCommand_commands : (eraseCommand w c s).commands = s.commands.erase c := by
  simp [eraseCommand]
@[simp] theorem eraseCommand_currentCommand (sub : Subsystem) :
    (eraseCommand w c s).currentCommand sub =
      if sub ∈ w.requirements c then none else s.currentCommand sub := by
  simp [eraseCommand]
@[simp] theorem eraseCommand_log : (eraseCommand w c s).log = s.log ++ [.removed c] := by
  simp [eraseCommand]
@[simp] theorem eraseCommand_additions : (eraseCommand w c s).additions = s.additions := by
  simp [eraseCommand]
@[simp] theorem eraseCommand_additionsLocked :
    (eraseCommand w c s).additionsLocked = s.additionsLocked := by simp [eraseCommand]
@[simp] theorem eraseCommand_adding : (eraseCommand w c s).adding = s.adding := by
  simp [eraseCommand]
@[simp] theorem eraseCommand_subsystems : (eraseCommand w c s).subsystems = s.subsystems := by
  simp [eraseCommand]
@[simp] theorem eraseCommand_runningCommandsChanged :
    (eraseCommand w c s).runningCommandsChanged = s.runningCommandsChanged := by
  simp [eraseCommand]
@[simp] theorem eraseCommand_enabled : (eraseCommand w c s).enabled = s.enabled := by
  simp [eraseCommand]

end EraseCommand

/-- `Remove` of a command that is not running changes nothing and calls no
hook, whatever the hooks do. -/
theorem remove_of_not_mem {c : Command} {s : State} (hc : c ∉ s.commands) :
    remove w h (some c) s = .ok s := by
  simp [remove, removeN, hc]

/-- `Remove` of a running command under tame hooks. -/
theorem remove_of_mem (hR : ∀ st d, ∀ a ∈ h.removed st d, a.Tame) {c : Command} {s : State}
    (hc : c ∈ s.commands) :
    remove w h (some c) s =
      if s.additionsLocked && (h.removed (eraseCommand w c s) c).any Action.isAddCommand then
        .error .deadlock
      else .ok { eraseCommand w c s with
        additions := enqueue s.additions (h.removed (eraseCommand w c s) c) } := by
  simp only [remove, removeN, hc, if_true]
  rw [performWith_tame _ (hR _ c)]
  simp

/-- `Remove` of a running command, with `Removed` hooks whose calls return
under the mutex's state. -/
theorem remove_of_mem_allowed {c : Command} {s : State}
    (hA : ∀ st d, ∀ a ∈ h.removed st d, a.Allowed s.additionsLocked) (hc : c ∈ s.commands) :
    remove w h (some c) s = .ok { eraseCommand w c s with
      additions := enqueue s.additions (h.removed (eraseCommand w c s) c) } := by
  simp only [remove, removeN, hc, if_true]
  rw [performWith_allowed _ fun a ha => by simpa using hA _ c a ha]
  simp

/-- With `Removed` hooks whose calls return under the mutex's state, `Remove`
returns and leaves the mutex as it was. -/
theorem remove_allowed {s : State} (hA : ∀ st d, ∀ a ∈ h.removed st d, a.Allowed s.additionsLocked)
    (c : Command) : ∃ s', remove w h (some c) s = .ok s' ∧ s'.additionsLocked = s.additionsLocked := by
  by_cases hc : c ∈ s.commands
  · exact ⟨_, remove_of_mem_allowed hA hc, by simp⟩
  · exact ⟨s, remove_of_not_mem hc, rfl⟩

/-- **Everything `Remove` can do under tame hooks**: nothing, to a command
that is not running; to a running one, `eraseCommand` and queue additions. -/
theorem remove_ok (hR : ∀ st d, ∀ a ∈ h.removed st d, a.Tame) {c : Command} {s s' : State}
    (he : remove w h (some c) s = .ok s') :
    (c ∉ s.commands ∧ s' = s) ∨
      (c ∈ s.commands ∧ s' = { eraseCommand w c s with additions := s'.additions }) := by
  by_cases hc : c ∈ s.commands
  · rw [remove_of_mem hR hc] at he
    split at he
    · cases he
    · cases he; exact .inr ⟨hc, rfl⟩
  · rw [remove_of_not_mem hc] at he
    cases he; exact .inl ⟨hc, rfl⟩

end

/-! ## Loop rules -/

section Loops

variable {w : Registry} {h : Hooks} (I : State → Prop)

theorem pollButtons_rule
    (hstep : ∀ b s t, I s →
      perform w h (h.execute (s.record (.execute b)) b) (s.record (.execute b)) = .ok t → I t) :
    ∀ (bs : List ButtonScheduler) {s t : State}, I s → pollButtons w h bs s = .ok t → I t
  | [], _, _, hs, he => by cases he; exact hs
  | b :: bs, _, _, hs, he => by
    obtain ⟨u, hu, he⟩ := bind_eq_ok.1 he
    exact pollButtons_rule hstep bs (hstep b _ u hs hu) he

theorem callPeriodic_rule
    (hstep : ∀ sub s t, I s →
      perform w h (h.periodic (s.record (.periodic sub)) sub) (s.record (.periodic sub)) = .ok t →
        I t) :
    ∀ (subs : List Subsystem) {s t : State}, I s → callPeriodic w h subs s = .ok t → I t
  | [], _, _, hs, he => by cases he; exact hs
  | sub :: subs, _, _, hs, he => by
    obtain ⟨u, hu, he⟩ := bind_eq_ok.1 he
    exact callPeriodic_rule hstep subs (hstep sub _ u hs hu) he

theorem stepCommands_rule (hstep : ∀ c s t, I s → stepCommand w h c s = .ok t → I t) :
    ∀ (cs : List Command) (it : Option Command) {s t : State}, I s →
      stepCommands w h cs it s = .ok t → I t
  | [], _, _, _, hs, he => by cases he; exact hs
  | c :: cs, it, s, t, hs, he => by
    unfold stepCommands at he
    split_ifs at he
    · exact stepCommands_rule hstep cs it hs he
    · obtain ⟨u, hu, he⟩ := bind_eq_ok.1 he
      exact stepCommands_rule hstep cs _ (hstep c s u hs hu) he

theorem processAdditions_rule
    (hstep : ∀ c s t, I s → processCommandAddition w h c s = .ok t → I t) :
    ∀ (q : List (Option Command)) {s t : State}, I s → processAdditions w h q s = .ok t → I t
  | [], _, _, hs, he => by cases he; exact hs
  | c :: q, _, _, hs, he => by
    obtain ⟨u, hu, he⟩ := bind_eq_ok.1 he
    exact processAdditions_rule hstep q (hstep c _ u hs hu) he

theorem addDefaults_rule
    (hstep : ∀ lock s t, I s → (if s.currentCommand lock = none then
      processCommandAddition w h (w.defaultCommand lock) s else .ok s) = .ok t →
        I (t.record (.confirmCommand lock))) :
    ∀ (subs : List Subsystem) {s t : State}, I s → addDefaults w h subs s = .ok t → I t
  | [], _, _, hs, he => by cases he; exact hs
  | lock :: subs, _, _, hs, he => by
    obtain ⟨u, hu, he⟩ := bind_eq_ok.1 he
    exact addDefaults_rule hstep subs (hstep lock _ u hs hu) he

end Loops

end Wpilib.Commands
