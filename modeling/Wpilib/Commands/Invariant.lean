import Wpilib.Commands.Lifecycle

/-!
# Commands — the invariant of reachable states

Between the scheduler's steps, with hooks that call only `AddCommand` and
`Cancel`: holders are consistent, every command's lifecycle calls alternate,
no admission is under way and `m_additionsMutex` is free. Inside `Run` the
same holds except that the mutex is held during the additions drain, so the
invariant is stated for either state of the mutex.

The proof is the usual one for a step system: the three changes that touch
the running set (`Remove` erasing a running command, an admission, and
nothing else) keep the invariant, every other change leaves the running set,
the holders and the lifecycle calls alone, and each loop of `Scheduler.cpp`
is an induction over the list it walks.
-/

namespace Wpilib.Commands

namespace HolderConsistent

variable {w : Registry} {s s' : State}

theorem congr (hs : HolderConsistent w s) (hc : s'.commands = s.commands)
    (hh : s'.currentCommand = s.currentCommand) : HolderConsistent w s' :=
  ⟨fun c hc' sub hsub => by rw [hh]; exact hs.holds c (hc ▸ hc') sub hsub,
    fun sub c h => by rw [hh] at h; rw [hc]; exact hs.running sub c h⟩

/-- Two running commands requiring one subsystem are the same. -/
theorem exclusive (hs : HolderConsistent w s) {c₁ c₂ : Command} (h₁ : c₁ ∈ s.commands)
    (h₂ : c₂ ∈ s.commands) {sub : Subsystem} (hs₁ : sub ∈ w.requirements c₁)
    (hs₂ : sub ∈ w.requirements c₂) : c₁ = c₂ :=
  Option.some.inj ((hs.holds c₁ h₁ sub hs₁).symm.trans (hs.holds c₂ h₂ sub hs₂))

/-- `Remove` erasing a running command. -/
theorem erase (hs : HolderConsistent w s) {c : Command} (hc : c ∈ s.commands) :
    HolderConsistent w (eraseCommand w c s) where
  holds x hx sub hsub := by
    simp only [eraseCommand_commands, PtrSet.mem_erase] at hx
    have hsc : sub ∉ w.requirements c := fun h => hx.1 (hs.exclusive hx.2 hc hsub h)
    simp [hsc, hs.holds x hx.2 sub hsub]
  running sub x h := by
    simp only [eraseCommand_currentCommand] at h
    split_ifs at h with hsc
    obtain ⟨hx, hsx⟩ := hs.running sub x h
    refine ⟨?_, hsx⟩
    simp only [eraseCommand_commands, PtrSet.mem_erase]
    exact ⟨fun e => hsc (e ▸ hsx), hx⟩

/-- An admission. -/
theorem admission (hs : HolderConsistent w s) {c : Command} {ds : List Command}
    (had : Admitted w c s s' ds) : HolderConsistent w s' where
  holds x hx sub hsub := by
    rcases (had.commands x).1 hx with rfl | ⟨hxs, hxd⟩
    · exact had.given sub hsub
    · have hsx := hs.holds x hxs sub hsub
      by_cases hsc : sub ∈ w.requirements c
      · exact absurd ((had.mem_iff x).2 ⟨sub, hsc, hsx⟩) hxd
      · rw [had.kept sub hsc fun d hd hsd => hxd (Option.some.inj (hsx.symm.trans hsd) ▸ hd)]
        exact hsx
  running sub x h := by
    by_cases hsc : sub ∈ w.requirements c
    · rw [had.given sub hsc, Option.some.injEq] at h
      subst h
      exact ⟨(had.commands _).2 (.inl rfl), hsc⟩
    · cases hsd : s.currentCommand sub with
      | none => rw [had.kept sub hsc fun d _ h' => by simp [hsd] at h', hsd] at h; cases h
      | some d =>
        by_cases hd : d ∈ ds
        · rw [had.released sub hsc d hd hsd] at h; cases h
        · rw [had.kept sub hsc fun d' hd' h' => hd (by rw [hsd] at h'; cases h'; exact hd'),
            hsd, Option.some.injEq] at h
          subst h
          obtain ⟨hx, hsx⟩ := hs.running sub d hsd
          exact ⟨(had.commands d).2 (.inr ⟨hx, hd⟩), hsx⟩

end HolderConsistent

/-- What holds between the scheduler's steps, with `m_additionsMutex` held or
not as `locked` says. -/
structure Invariant (w : Registry) (locked : Bool) (s : State) : Prop where
  consistent : HolderConsistent w s
  alternates : Alternates s
  idle : s.adding = false
  mutex : s.additionsLocked = locked

namespace Invariant

variable {w : Registry} {h : Hooks} {L : Bool} {s s' : State}

/-- Changes away from the running set, the holders, the lifecycle calls and
the two flags. -/
theorem congr (hi : Invariant w L s) (hc : s'.commands = s.commands)
    (hh : s'.currentCommand = s.currentCommand) (hl : ∀ c, lifecycle c s'.log = lifecycle c s.log)
    (hadd : s'.adding = s.adding) (hm : s'.additionsLocked = s.additionsLocked) :
    Invariant w L s' :=
  ⟨hi.consistent.congr hc hh, hi.alternates.congr hc hl, hadd.trans hi.idle, hm.trans hi.mutex⟩

theorem record (hi : Invariant w L s) {e : Event} (he : e.isLifecycle = false) :
    Invariant w L (s.record e) :=
  hi.congr rfl rfl (fun _ => by simp [lifecycle_quiet he]) rfl rfl

theorem additions (hi : Invariant w L s) (q : List (Option Command)) :
    Invariant w L { s with additions := q } :=
  hi.congr rfl rfl (fun _ => rfl) rfl rfl

theorem changed (hi : Invariant w L s) (b : Bool) :
    Invariant w L { s with runningCommandsChanged := b } :=
  hi.congr rfl rfl (fun _ => rfl) rfl rfl

theorem lock (hi : Invariant w L s) (L' : Bool) :
    Invariant w L' { s with additionsLocked := L' } :=
  ⟨hi.consistent.congr rfl rfl, hi.alternates.congr rfl fun _ => rfl, hi.idle, rfl⟩

theorem erase (hi : Invariant w L s) {c : Command} (hc : c ∈ s.commands) :
    Invariant w L (eraseCommand w c s) :=
  ⟨hi.consistent.erase hc, hi.alternates.erase w hc, by simpa using hi.idle,
    by simpa using hi.mutex⟩

end Invariant

section Steps

variable {w : Registry} {h : Hooks} {L : Bool}

theorem addCommand_invariant {c : Option Command} {s s' : State} (hi : Invariant w L s)
    (he : addCommand c s = .ok s') : Invariant w L s' := by
  simp only [addCommand] at he
  split_ifs at he
  · exact Except.ok.inj he ▸ hi
  · rw [← Except.ok.inj he]; exact hi.additions _

theorem remove_invariant (hR : ∀ st d, ∀ a ∈ h.removed st d, a.Tame) {c : Option Command}
    {s s' : State} (hi : Invariant w L s) (he : remove w h c s = .ok s') : Invariant w L s' := by
  cases c with
  | none =>
    simp only [remove, removeN, Except.ok.injEq] at he
    exact he ▸ hi.record rfl
  | some c =>
    rcases remove_ok hR he with ⟨-, rfl⟩ | ⟨hc, hs'⟩
    · exact hi
    · rw [hs']; exact (hi.erase hc).additions _

theorem removeAllLoop_invariant (hR : ∀ st d, ∀ a ∈ h.removed st d, a.Tame) :
    ∀ (n : Nat) {s s' : State}, Invariant w L s → removeAllLoop (remove w h) n s = .ok s' →
      Invariant w L s'
  | 0, s, s', hi, he => by
    simp only [removeAllLoop] at he
    split at he
    · exact Except.ok.inj he ▸ hi
    · cases he
  | n + 1, s, s', hi, he => by
    simp only [removeAllLoop] at he
    split at he
    · exact Except.ok.inj he ▸ hi
    · obtain ⟨t, ht, he⟩ := bind_eq_ok.1 he
      exact removeAllLoop_invariant hR n (remove_invariant hR hi ht) he

/-- Whatever a hook's user code calls, its calls keep the invariant, as long
as the `Removed` hooks call only `AddCommand` and `Cancel`. -/
theorem perform_invariant (hR : ∀ st d, ∀ a ∈ h.removed st d, a.Tame) :
    ∀ (as : List Action) {s s' : State}, Invariant w L s → perform w h as s = .ok s' →
      Invariant w L s'
  | [], _, _, hi, he => Except.ok.inj he ▸ hi
  | a :: as, s, s', hi, he => by
    unfold perform at he
    cases a with
    | addCommand c =>
      obtain ⟨t, ht, he⟩ := bind_eq_ok.1 he
      exact perform_invariant hR as (addCommand_invariant hi ht) he
    | cancel _ => exact perform_invariant hR as hi he
    | remove c =>
      obtain ⟨t, ht, he⟩ := bind_eq_ok.1 he
      exact perform_invariant hR as (remove_invariant hR hi ht) he
    | removeAll =>
      obtain ⟨t, ht, he⟩ := bind_eq_ok.1 he
      exact perform_invariant hR as (removeAllLoop_invariant hR _ hi ht) he

theorem processCommandAddition_invariant (hR : ∀ st d, ∀ a ∈ h.removed st d, a.Tame)
    {c : Option Command} {s s' : State} (hi : Invariant w L s)
    (he : processCommandAddition w h c s = .ok s') : Invariant w L s' := by
  rcases processCommandAddition_cases hR hi.consistent he with rfl | ⟨hadd, -⟩ |
    ⟨c, ds, -, hc, -, -, had⟩
  · exact hi
  · simp [hi.idle] at hadd
  · have hf := had.frame
    exact ⟨hi.consistent.admission had, hi.alternates.admission hi.consistent hc had,
      by rw [hf]; exact hi.idle, by rw [hf]; exact hi.mutex⟩

theorem pollButtons_invariant (hR : ∀ st d, ∀ a ∈ h.removed st d, a.Tame) :
    ∀ (bs : List ButtonScheduler) {s s' : State}, Invariant w L s →
      pollButtons w h bs s = .ok s' → Invariant w L s' :=
  pollButtons_rule _ fun b _ _ hi => perform_invariant hR _ (hi.record (e := .execute b) rfl)

theorem callPeriodic_invariant (hR : ∀ st d, ∀ a ∈ h.removed st d, a.Tame) :
    ∀ (subs : List Subsystem) {s s' : State}, Invariant w L s →
      callPeriodic w h subs s = .ok s' → Invariant w L s' :=
  callPeriodic_rule _ fun sub _ _ hi => perform_invariant hR _ (hi.record (e := .periodic sub) rfl)

theorem stepCommand_invariant (hR : ∀ st d, ∀ a ∈ h.removed st d, a.Tame) {c : Command} {s s' : State} (hi : Invariant w L s)
    (he : stepCommand w h c s = .ok s') : Invariant w L s' := by
  obtain ⟨t, ht, he⟩ := bind_eq_ok.1 he
  have hit := perform_invariant hR _ (hi.record (e := .run c) rfl) ht
  split at he
  · exact Except.ok.inj he ▸ hit
  · obtain ⟨u, hu, he⟩ := bind_eq_ok.1 he
    rw [← Except.ok.inj he]
    exact (remove_invariant hR hit hu).changed true

theorem stepCommands_invariant (hR : ∀ st d, ∀ a ∈ h.removed st d, a.Tame) :
    ∀ (cs : List Command) (it : Option Command) {s s' : State}, Invariant w L s →
      stepCommands w h cs it s = .ok s' → Invariant w L s' :=
  stepCommands_rule _ fun _ _ _ hi => stepCommand_invariant hR hi

theorem processAdditions_invariant (hR : ∀ st d, ∀ a ∈ h.removed st d, a.Tame) :
    ∀ (q : List (Option Command)) {s s' : State}, Invariant w L s →
      processAdditions w h q s = .ok s' → Invariant w L s' :=
  processAdditions_rule _ fun _ _ _ hi => processCommandAddition_invariant hR hi

theorem drainAdditions_invariant (hR : ∀ st d, ∀ a ∈ h.removed st d, a.Tame) {s s' : State}
    (hi : Invariant w false s) (he : drainAdditions w h s = .ok s') : Invariant w false s' := by
  obtain ⟨t, ht, he⟩ := bind_eq_ok.1 he
  rw [← Except.ok.inj he]
  exact ((processAdditions_invariant hR _ (hi.lock true) ht).additions []).lock false

theorem addDefaults_invariant (hR : ∀ st d, ∀ a ∈ h.removed st d, a.Tame) :
    ∀ (subs : List Subsystem) {s s' : State}, Invariant w L s →
      addDefaults w h subs s = .ok s' → Invariant w L s' :=
  addDefaults_rule _ fun sub _ _ hi ht => by
    refine Invariant.record (e := .confirmCommand sub) ?_ rfl
    split at ht
    · exact processCommandAddition_invariant hR hi ht
    · exact Except.ok.inj ht ▸ hi

theorem runPhases_invariant (hR : ∀ st d, ∀ a ∈ h.removed st d, a.Tame) {s s' : State}
    (hi : Invariant w false s) (he : runPhases w h s = .ok s') : Invariant w false s' := by
  obtain ⟨t₁, h₁, he⟩ := bind_eq_ok.1 he
  obtain ⟨t₂, h₂, he⟩ := bind_eq_ok.1 he
  obtain ⟨t₃, h₃, he⟩ := bind_eq_ok.1 he
  have hi₂ := callPeriodic_invariant hR _ (pollButtons_invariant hR _ hi h₁) h₂
  exact drainAdditions_invariant hR (stepCommands_invariant hR _ _ (hi₂.changed false) h₃) he

theorem run_invariant (hR : ∀ st d, ∀ a ∈ h.removed st d, a.Tame) {s s' : State} (hi : Invariant w false s)
    (he : run w h s = .ok s') : Invariant w false s' := by
  unfold run at he
  split at he
  · obtain ⟨t, ht, he⟩ := bind_eq_ok.1 he
    exact addDefaults_invariant hR _ (runPhases_invariant hR hi ht) he
  · exact Except.ok.inj he ▸ hi

/-- `Cancel` called `n` times on `c`. -/
theorem foldl_record_cancel (c : Command) (l : List Nat) (t : State) :
    l.foldl (fun s _ => s.record (.cancel c)) t =
      { t with log := t.log ++ List.replicate l.length (.cancel c) } := by
  induction l generalizing t with
  | nil => simp
  | cons _ l ih => simp only [List.foldl_cons, ih]; simp [State.record, List.replicate_succ]

/-- The cancel loop of the update callback only records `Cancel` calls. -/
theorem cancelRequested_frame (toCancel : List Nat) :
    ∀ (cs : List Command) (s : State), ∃ l : List Event,
      cancelRequested w toCancel cs s = { s with log := s.log ++ l } ∧ ∀ c, lifecycle c l = []
  | [], s => ⟨[], by simp [cancelRequested], fun _ => rfl⟩
  | c :: cs, s => by
    obtain ⟨l, hl, hq⟩ := cancelRequested_frame toCancel cs
      ((toCancel.filter (· = w.id c)).foldl (fun s _ => s.record (.cancel c)) s)
    refine ⟨List.replicate (toCancel.filter (· = w.id c)).length (.cancel c) ++ l, ?_, fun d => ?_⟩
    · rw [cancelRequested, hl, foldl_record_cancel]; simp
    · rw [lifecycle_append, hq]; simp [lifecycle, List.filter_eq_nil_iff]

theorem updateTable_invariant {s : State} (hi : Invariant w L s) : Invariant w L (updateTable w s) := by
  obtain ⟨l, hl, hq⟩ := cancelRequested_frame s.cancelEntry s.commands.toList s
  have hc : Invariant w L (if s.cancelEntry = [] then s
      else { cancelRequested w s.cancelEntry s.commands.toList s with cancelEntry := [] }) := by
    split
    · exact hi
    · rw [hl]; exact hi.congr rfl rfl (fun _ => by simp [hq]) rfl rfl
  unfold updateTable
  dsimp only
  generalize (if s.cancelEntry = [] then s
    else { cancelRequested w s.cancelEntry s.commands.toList s with cancelEntry := [] }) = t at hc ⊢
  split
  · exact hc.congr rfl rfl (fun _ => rfl) rfl rfl
  · exact hc

theorem exec_invariant (hR : ∀ st d, ∀ a ∈ h.removed st d, a.Tame) {op : Op} {s s' : State} (hi : Invariant w false s)
    (he : exec w h op s = .ok s') : Invariant w false s' := by
  cases op with
  | registerSubsystem sub =>
    cases sub <;> simp only [exec, registerSubsystem, Except.ok.injEq] at he <;> subst he
    · exact hi.record (e := .error .nullParameter "subsystem") rfl
    · exact hi.congr rfl rfl (fun _ => rfl) rfl rfl
  | addCommand c => exact addCommand_invariant hi he
  | addButton | setEnabled | requestCancel =>
    simp only [exec, Except.ok.injEq] at he; subst he
    exact hi.congr rfl rfl (fun _ => rfl) rfl rfl
  | run => exact run_invariant hR hi he
  | remove c => exact remove_invariant hR hi he
  | removeAll => exact removeAllLoop_invariant hR _ hi he
  | updateTable =>
    simp only [exec, Except.ok.injEq] at he; subst he
    exact updateTable_invariant hi

/-- A property that a fresh scheduler has and every entry point keeps holds in
every reachable state. -/
theorem Reachable.rule (P : State → Prop) (h₀ : P State.init)
    (hstep : ∀ (op : Op) {s s' : State}, P s → exec w h op s = .ok s' → P s') {s : State}
    (hr : Reachable w h s) : P s := by
  induction hr with
  | init => exact h₀
  | step op _ he ih => exact hstep op ih he

/-- A fresh scheduler satisfies the invariant. -/
theorem Invariant.initial (w : Registry) : Invariant w false State.init :=
  ⟨⟨fun _ h => absurd h (PtrSet.not_mem_empty _), fun _ _ h => by simp [State.init] at h⟩,
    fun _ => by simp [State.init, alternation], rfl, rfl⟩

/-- **Every reachable state satisfies the invariant**, with `Removed` hooks
that call only `AddCommand` and `Cancel`; the other hooks may make any of
the modelled calls. -/
theorem Reachable.invariant (hR : ∀ st d, ∀ a ∈ h.removed st d, a.Tame) {s : State} (hr : Reachable w h s) :
    Invariant w false s :=
  hr.rule _ (Invariant.initial w) fun _ _ _ => exec_invariant hR

theorem Reachable.of_execAll : ∀ (ops : List Op) {s s' : State}, Reachable w h s →
    execAll w h ops s = .ok s' → Reachable w h s'
  | [], _, _, hr, he => Except.ok.inj he ▸ hr
  | op :: ops, _, _, hr, he => by
    obtain ⟨t, ht, he⟩ := bind_eq_ok.1 he
    exact Reachable.of_execAll ops (.step op hr ht) he

end Steps

/-! ## Mutual exclusion and the lifecycle -/

section Safety

variable {w : Registry} {h : Hooks}

/-- **Mutual exclusion.** In every reachable state, every requirement of a
running command is held by it, every holder is running and requires what it
holds, and so no two running commands share a requirement. Only the `Removed`
hooks are restricted, to `AddCommand` and `Cancel`. -/
theorem mutual_exclusion (hR : ∀ st d, ∀ a ∈ h.removed st d, a.Tame) {s : State}
    (hr : Reachable w h s) :
    HolderConsistent w s ∧ ∀ c₁ ∈ s.commands, ∀ c₂ ∈ s.commands,
      ∀ sub ∈ w.requirements c₁, sub ∈ w.requirements c₂ → c₁ = c₂ :=
  have hs := (hr.invariant hR).consistent
  ⟨hs, fun _ h₁ _ h₂ _ hs₁ hs₂ => hs.exclusive h₁ h₂ hs₁ hs₂⟩

/-- Commands `3` and `4` start, then command `5` displaces both. -/
def pairRun : List Op :=
  [.addCommand (some 3), .addCommand (some 4), .run, .addCommand (some 5), .run]

theorem mutual_exclusion_pairRun :
    ∃ s, execAll pairRegistry quietHooks pairRun State.init = .ok s ∧ s.commands.toList = [5] ∧
      HolderConsistent pairRegistry s ∧ ∀ c₁ ∈ s.commands, ∀ c₂ ∈ s.commands,
        ∀ sub ∈ pairRegistry.requirements c₁, sub ∈ pairRegistry.requirements c₂ → c₁ = c₂ :=
  ⟨_, rfl, rfl, mutual_exclusion (h := quietHooks) (fun _ _ _ h => nomatch h)
    (Reachable.of_execAll pairRun .init rfl)⟩

/-- **Lifecycle calls alternate.** In every reachable state each command's
`StartRunning` and `Removed` calls alternate from `StartRunning`, and the
command is running exactly after an odd number of them; every holder is
running, so a displacement always removes a running command; and `Remove` of
a command that is not running, which is what a displacement or a completion
of such a command would call, changes nothing and calls no hook. -/
theorem lifecycle_alternates (hR : ∀ st d, ∀ a ∈ h.removed st d, a.Tame) {s : State}
    (hr : Reachable w h s) :
    (∀ c, lifecycle c s.log = alternation c (lifecycle c s.log).length ∧
        (c ∈ s.commands ↔ (lifecycle c s.log).length % 2 = 1)) ∧
      (∀ sub d, s.currentCommand sub = some d → d ∈ s.commands) ∧
      ∀ (c : Command) (t : State), c ∉ t.commands → remove w h (some c) t = .ok t :=
  have hi := hr.invariant hR
  ⟨hi.alternates, fun sub d hd => (hi.consistent.running sub d hd).1,
    fun _ _ hc => remove_of_not_mem hc⟩

theorem lifecycle_alternates_pairRun :
    ∃ s, execAll pairRegistry quietHooks pairRun State.init = .ok s ∧
      lifecycle 3 s.log = [.startRunning 3, .removed 3] ∧
      (∀ c, lifecycle c s.log = alternation c (lifecycle c s.log).length ∧
          (c ∈ s.commands ↔ (lifecycle c s.log).length % 2 = 1)) ∧
        (∀ sub d, s.currentCommand sub = some d → d ∈ s.commands) ∧
        ∀ (c : Command) (t : State), c ∉ t.commands →
          remove pairRegistry quietHooks (some c) t = .ok t :=
  ⟨_, rfl, rfl, lifecycle_alternates (h := quietHooks) (fun _ _ _ h => nomatch h)
    (Reachable.of_execAll pairRun .init rfl)⟩

end Safety

end Wpilib.Commands
