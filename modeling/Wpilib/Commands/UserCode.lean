import Wpilib.Commands.Invariant

/-!
# Commands — whatever the hooks' user code calls

The invariant of reachable states was first proved for `Removed` hooks that
call only `AddCommand` and `Cancel`. It holds whatever the user code calls.
The scheduler answers a call from user code in three ways: `AddCommand`
queues, `Remove(nullptr)` reports an error, and a nested `Remove` or
`RemoveAll` erases running commands, each releasing all it requires. A
property those three keep (`Stable`) survives every chain of nested calls a
hook can start (`Stable.perform`).

Inside an admission the admitted command already holds some of its
requirements while it is not yet running; a nested `Remove` never releases
them, because no running command requires a subsystem it does not hold
(`Admitting`). So an admission keeps the invariant under any hooks, and so
does every entry point (`Reachable.invariant_of_any_hooks`).
-/

namespace Wpilib.Commands

/-- `P` survives each way the scheduler answers a call from user code:
queueing a command, reporting a null `Remove`, and erasing a running
command. -/
structure Stable (w : Registry) (P : State → Prop) : Prop where
  addCommand : ∀ c s s', P s → addCommand c s = .ok s' → P s'
  null : ∀ s, P s → P (s.record (.error .nullParameter "command"))
  erase : ∀ c s, c ∈ s.commands → P s → P (eraseCommand w c s)

/-- `AddCommand` changes the queue and nothing else. -/
theorem addCommand_frame {c : Option Command} {s s' : State} (he : addCommand c s = .ok s') :
    s' = { s with additions := s'.additions } := by
  unfold addCommand at he
  split_ifs at he
  · cases he; rfl
  · cases he; rfl

namespace Stable

variable {w : Registry} {h : Hooks} {P : State → Prop} (hP : Stable w P)

include hP in
theorem performWith {r : Option Command → State → Except Fault State}
    {ra : State → Except Fault State}
    (hr : ∀ c s s', P s → r c s = .ok s' → P s') (hra : ∀ s s', P s → ra s = .ok s' → P s') :
    ∀ (as : List Action) (s s' : State), P s → Wpilib.Commands.performWith r ra as s = .ok s' →
      P s'
  | [], _, _, hs, he => Except.ok.inj he ▸ hs
  | .addCommand c :: as, s, s', hs, he => by
    obtain ⟨t, ht, he⟩ := bind_eq_ok.1 he
    exact performWith hr hra as t s' (hP.addCommand c s t hs ht) he
  | .cancel _ :: as, s, s', hs, he => performWith hr hra as s s' hs he
  | .remove c :: as, s, s', hs, he => by
    obtain ⟨t, ht, he⟩ := bind_eq_ok.1 he
    exact performWith hr hra as t s' (hr c s t hs ht) he
  | .removeAll :: as, s, s', hs, he => by
    obtain ⟨t, ht, he⟩ := bind_eq_ok.1 he
    exact performWith hr hra as t s' (hra s t hs ht) he

theorem removeAllLoop {r : Option Command → State → Except Fault State}
    (hr : ∀ c s s', P s → r c s = .ok s' → P s') :
    ∀ (k : Nat) (s s' : State), P s → Wpilib.Commands.removeAllLoop r k s = .ok s' → P s'
  | 0, s, s', hs, he => by
    simp only [Wpilib.Commands.removeAllLoop] at he
    split at he
    · exact Except.ok.inj he ▸ hs
    · cases he
  | k + 1, s, s', hs, he => by
    simp only [Wpilib.Commands.removeAllLoop] at he
    split at he
    · exact Except.ok.inj he ▸ hs
    · obtain ⟨t, ht, he⟩ := bind_eq_ok.1 he
      exact removeAllLoop hr k t s' (hr _ s t hs ht) he

include hP in
/-- **Nested `Remove` keeps a stable property**, whatever the `Removed` hooks
call, to any depth. -/
theorem removeN : ∀ (n : Nat) (c : Option Command) (s s' : State), P s →
    Wpilib.Commands.removeN w h n c s = .ok s' → P s'
  | n, none, s, s', hs, he => by
    cases n <;> simp only [Wpilib.Commands.removeN, Except.ok.injEq] at he <;>
      exact he ▸ hP.null s hs
  | 0, some c, s, s', hs, he => by
    simp only [Wpilib.Commands.removeN] at he
    split_ifs at he
    exact Except.ok.inj he ▸ hs
  | n + 1, some c, s, s', hs, he => by
    simp only [Wpilib.Commands.removeN] at he
    split_ifs at he with hc
    · exact hP.performWith (removeN n)
        (fun s s' hs he => removeAllLoop (removeN n) s.commands.size s s' hs he) _ _ _
        (hP.erase c s hc hs) he
    · exact Except.ok.inj he ▸ hs

include hP in
theorem remove {c : Option Command} {s s' : State} (hs : P s)
    (he : Wpilib.Commands.remove w h c s = .ok s') : P s' :=
  hP.removeN _ c s s' hs he

include hP in
theorem removeAll {s s' : State} (hs : P s) (he : Wpilib.Commands.removeAll w h s = .ok s') :
    P s' :=
  removeAllLoop (fun _ _ _ => hP.remove) _ s s' hs he

include hP in
/-- **The calls of a hook keep a stable property**, whatever its user code
calls. -/
theorem perform {as : List Action} {s s' : State} (hs : P s)
    (he : Wpilib.Commands.perform w h as s = .ok s') : P s' :=
  hP.performWith (fun _ _ _ => hP.remove) (fun _ _ => hP.removeAll) as s s' hs he

end Stable

/-! ## The invariant -/

theorem Invariant.stable (w : Registry) (L : Bool) : Stable w (Invariant w L) where
  addCommand _ _ _ hi he := addCommand_invariant hi he
  null _ hi := hi.record rfl
  erase _ _ hc hi := hi.erase hc

/-- A `StartRunning` call of a command that is not running, which then runs. -/
theorem Alternates.start {s s' : State} (ha : Alternates s) {c : Command} (hc : c ∉ s.commands)
    (hcom : ∀ x, x ∈ s'.commands ↔ x = c ∨ x ∈ s.commands)
    (hlog : s'.log = s.log ++ [.startRunning c]) : Alternates s' := by
  intro d
  rw [hlog, lifecycle_append, lifecycle_startRunning, hcom]
  by_cases e : c = d
  · subst e
    have heven : (lifecycle c s.log).length % 2 = 0 :=
      Nat.mod_two_ne_one.1 fun h => hc ((ha c).2.2 h)
    simp only [if_true, List.length_append, List.length_singleton, true_or, true_iff]
    exact ⟨Alternates.snoc (ha c).1 (by simp [heven]), by omega⟩
  · simpa [e, Ne.symm e] using ha d

/-! ## Admission -/

/-- `Remove` erasing a running command keeps the loop's invariant. -/
theorem Pending.erase {w : Registry} {c d : Command} {t : State} (hp : Pending w c t)
    (hd : d ∈ t.commands) : Pending w c (eraseCommand w d t) where
  not_mem := by simp [hp.not_mem]
  holds x hx sub hsub := by
    simp only [eraseCommand_commands, PtrSet.mem_erase] at hx
    have hsd : sub ∉ w.requirements d := fun hs => hx.1 (hp.eq_of_requires hx.2 hsub hd hs)
    simp [hsd, hp.holds x hx.2 sub hsub]
  holder sub y hy := by
    simp only [eraseCommand_currentCommand] at hy
    split_ifs at hy with hs
    rcases hp.holder sub y hy with rfl | ⟨hyr, hys⟩
    · exact .inl rfl
    · refine .inr ⟨?_, hys⟩
      simp only [eraseCommand_commands, PtrSet.mem_erase]
      exact ⟨fun e => hs (e ▸ hys), hyr⟩

/-- The requirements loop's invariant under any hooks: the loop's `Pending`,
`c` holds nothing it does not require, the lifecycle calls alternate, and the
admission flag and the mutex stay as the admission found them. -/
structure Admitting (w : Registry) (c : Command) (L : Bool) (t : State) : Prop where
  pending : Pending w c t
  own : ∀ sub, t.currentCommand sub = some c → sub ∈ w.requirements c
  alternates : Alternates t
  adding : t.adding = true
  mutex : t.additionsLocked = L

namespace Admitting

variable {w : Registry} {h : Hooks} {c : Command} {L : Bool} {t t' : State}

theorem congr (ha : Admitting w c L t) (hc : t'.commands = t.commands)
    (hh : t'.currentCommand = t.currentCommand) (hl : ∀ d, lifecycle d t'.log = lifecycle d t.log)
    (hadd : t'.adding = t.adding) (hm : t'.additionsLocked = t.additionsLocked) :
    Admitting w c L t' where
  pending := ⟨hc ▸ ha.pending.not_mem, fun d hd sub hsub => by
      rw [hh]; exact ha.pending.holds d (hc ▸ hd) sub hsub,
    fun sub d hsd => by rw [hc]; exact ha.pending.holder sub d (hh ▸ hsd)⟩
  own sub hs := ha.own sub (hh ▸ hs)
  alternates := ha.alternates.congr hc hl
  adding := hadd.trans ha.adding
  mutex := hm.trans ha.mutex

/-- The requirements loop starts from a state with the invariant, `c` not
running and the admission flag raised. -/
theorem begin {s : State} (hi : Invariant w L s) (hc : c ∉ s.commands) :
    Admitting w c L { s with adding := true } :=
  ⟨⟨hc, hi.consistent.holds, fun sub d hd => .inr (hi.consistent.running sub d hd)⟩,
    fun sub hs => absurd (hi.consistent.running sub c hs).1 hc,
    hi.alternates.congr rfl fun _ => rfl, rfl, hi.mutex⟩

theorem erase (ha : Admitting w c L t) {d : Command} (hd : d ∈ t.commands) :
    Admitting w c L (eraseCommand w d t) where
  pending := ha.pending.erase hd
  own sub hs := ha.own sub (by simp only [eraseCommand_currentCommand] at hs; split_ifs at hs; exact hs)
  alternates := ha.alternates.erase w hd
  adding := by simpa using ha.adding
  mutex := by simpa using ha.mutex

/-- A subsystem `c` holds keeps its holder when a running command is erased:
no running command requires it. -/
theorem erase_held (ha : Admitting w c L t) {d : Command} (hd : d ∈ t.commands) {sub : Subsystem}
    (hs : t.currentCommand sub = some c) : (eraseCommand w d t).currentCommand sub = some c := by
  have hsd : sub ∉ w.requirements d := fun h' => ha.pending.not_mem
    (Option.some.inj ((ha.pending.holds d hd sub h').symm.trans hs) ▸ hd)
  simp [hsd, hs]

/-- Inside the `Remove` of a displaced holder: the loop's invariant, the
subsystems `c` held before it, and the displaced lock free. -/
theorem stable (t₀ : State) (lock : Subsystem) :
    Stable w fun x => Admitting w c L x ∧
      (∀ sub, t₀.currentCommand sub = some c → x.currentCommand sub = some c) ∧
      x.currentCommand lock = none where
  addCommand _ s _ hs he := by
    rw [addCommand_frame he]
    exact ⟨hs.1.congr rfl rfl (fun _ => rfl) rfl rfl, hs.2.1, hs.2.2⟩
  null s hs := ⟨hs.1.congr rfl rfl (fun _ => by simp [lifecycle]) rfl rfl, hs.2.1, hs.2.2⟩
  erase d s hd hs := ⟨hs.1.erase hd, fun sub h₀ => hs.1.erase_held hd (hs.2.1 sub h₀),
    by simp [hs.2.2]⟩

/-- `c` takes a requirement that is free or already its own. -/
theorem setLock (ha : Admitting w c L t) {lock : Subsystem}
    (hl : t.currentCommand lock = none ∨ t.currentCommand lock = some c)
    (hlr : lock ∈ w.requirements c) : Admitting w c L (t.setCurrentCommand lock (some c)) where
  pending := ⟨ha.pending.not_mem, fun d hd sub hsub => by
      have hds := ha.pending.holds d hd sub hsub
      by_cases e : sub = lock
      · subst e
        rcases hl with hl | hl <;> rw [hl] at hds
        · cases hds
        · exact absurd (Option.some.inj hds ▸ hd) ha.pending.not_mem
      · simp [e, hds],
    fun sub d hsd => by
      by_cases e : sub = lock
      · simp only [State.setCurrentCommand_currentCommand, e, if_true, Option.some.injEq] at hsd
        exact .inl hsd.symm
      · simp only [State.setCurrentCommand_currentCommand, e, if_false] at hsd
        exact ha.pending.holder sub d hsd⟩
  own sub hs := by
    by_cases e : sub = lock
    · exact e ▸ hlr
    · simp only [State.setCurrentCommand_currentCommand, e, if_false] at hs
      exact ha.own sub hs
  alternates := ha.alternates.congr rfl fun _ => rfl
  adding := ha.adding
  mutex := ha.mutex

/-- One round of the requirements loop: cancel and remove the holder of
`lock`, whatever its `Removed` hook calls. The round keeps the invariant and
what `c` holds, and leaves `lock` free or `c`'s. -/
theorem displace (ha : Admitting w c L t) {lock : Subsystem} {d : Command}
    (hl : t.currentCommand lock = some d) (he : remove w h (some d) (t.record (.cancel d)) = .ok t') :
    Admitting w c L t' ∧ (∀ sub, t.currentCommand sub = some c → t'.currentCommand sub = some c) ∧
      (t'.currentCommand lock = none ∨ t'.currentCommand lock = some c) := by
  have ha₁ : Admitting w c L (t.record (.cancel d)) :=
    ha.congr rfl rfl (fun _ => by simp) rfl rfl
  by_cases hdc : d = c
  · subst hdc
    rw [remove_of_not_mem (by simpa using ha.pending.not_mem)] at he
    cases he
    exact ⟨ha₁, fun _ hs => hs, .inr hl⟩
  · have hd : d ∈ (t.record (.cancel d)).commands := by
      simpa using (ha.pending.holder_running hl hdc).1
    simp only [Wpilib.Commands.remove, Wpilib.Commands.removeN, hd, if_true] at he
    have hlock : lock ∈ w.requirements d := (ha.pending.holder_running hl hdc).2
    have hs := (Admitting.stable t lock).performWith
      (fun _ _ _ => (Admitting.stable t lock).removeN _ _ _ _)
      (fun s s' => Stable.removeAllLoop (fun _ _ _ => (Admitting.stable t lock).removeN _ _ _ _)
        s.commands.size s s')
      _ _ _ ⟨ha₁.erase hd, fun sub hs' => ha₁.erase_held hd hs', by simp [hlock]⟩ he
    exact ⟨hs.1, hs.2.1, .inl hs.2.2⟩

/-- **The requirements loop under any hooks** keeps the invariant, gives `c`
every requirement it visits, and takes nothing from `c`. -/
theorem giveRequirements : ∀ (reqs : List Subsystem) {t t' : State},
    (∀ sub ∈ reqs, sub ∈ w.requirements c) → Admitting w c L t →
    Wpilib.Commands.giveRequirements w h c reqs t = .ok t' →
    Admitting w c L t' ∧
      ∀ sub, (sub ∈ reqs ∨ t.currentCommand sub = some c) → t'.currentCommand sub = some c
  | [], _, _, _, ha, he => by
    cases he; exact ⟨ha, fun _ hs => hs.resolve_left (List.not_mem_nil _)⟩
  | lock :: rest, t, t', hreq, ha, he => by
    rw [Wpilib.Commands.giveRequirements] at he
    obtain ⟨t₁, h₁, he⟩ := bind_eq_ok.1 he
    have hstep : Admitting w c L t₁ ∧
        (∀ sub, t.currentCommand sub = some c → t₁.currentCommand sub = some c) ∧
        (t₁.currentCommand lock = none ∨ t₁.currentCommand lock = some c) := by
      cases hl : t.currentCommand lock with
      | none => rw [hl] at h₁; cases h₁; exact ⟨ha, fun _ hs => hs, .inl hl⟩
      | some d => rw [hl] at h₁; exact ha.displace hl h₁
    obtain ⟨ha', hheld⟩ := giveRequirements rest (fun sub hs => hreq sub (List.mem_cons_of_mem _ hs))
      (hstep.1.setLock hstep.2.2 (hreq lock (List.mem_cons_self _ _))) he
    refine ⟨ha', fun sub hs => hheld sub ?_⟩
    by_cases e : sub = lock
    · exact .inr (by simp [e])
    · rcases hs with hs | hs
      · exact .inl ((List.mem_cons.1 hs).resolve_left e)
      · exact .inr (by simp [e, hstep.2.1 sub hs])

/-- The end of an admission: `c` holds all it requires and starts. -/
theorem start (ha : Admitting w c L t) (hgiven : ∀ sub ∈ w.requirements c, t.currentCommand sub = some c) :
    Invariant w L { ({ t with adding := false, commands := t.commands.insert c }.record
      (.startRunning c)) with runningCommandsChanged := true } where
  consistent :=
    ⟨fun x hx sub hsub => by
      rcases PtrSet.mem_insert.1 hx with rfl | hx
      · exact hgiven sub hsub
      · exact ha.pending.holds x hx sub hsub,
    fun sub x hsx => by
      rcases ha.pending.holder sub x hsx with rfl | ⟨hx, hsub⟩
      · exact ⟨PtrSet.mem_insert.2 (.inl rfl), ha.own sub hsx⟩
      · exact ⟨PtrSet.mem_insert.2 (.inr hx), hsub⟩⟩
  alternates := ha.alternates.start ha.pending.not_mem (fun _ => PtrSet.mem_insert) rfl
  idle := rfl
  mutex := ha.mutex

end Admitting

section Steps

variable {w : Registry} {h : Hooks} {L : Bool}

/-- **An admission keeps the invariant under any hooks.** -/
theorem processCommandAddition_invariant_any {c : Option Command} {s s' : State}
    (hi : Invariant w L s) (he : processCommandAddition w h c s = .ok s') : Invariant w L s' := by
  cases c with
  | none => cases he; exact hi
  | some c =>
    simp only [processCommandAddition] at he
    split_ifs at he with hadd hc hb
    · cases he; exact hi.record rfl
    · cases he; exact hi
    · cases he; exact hi
    · obtain ⟨t, ht, he⟩ := bind_eq_ok.1 he
      cases he
      obtain ⟨ha', hheld⟩ :=
        Admitting.giveRequirements _ (fun _ hs => PtrSet.mem_toList.1 hs) (.begin hi hc) ht
      exact ha'.start fun sub hs => hheld sub (.inl (PtrSet.mem_toList.2 hs))

theorem stepCommand_invariant_any {c : Command} {s s' : State} (hi : Invariant w L s)
    (he : stepCommand w h c s = .ok s') : Invariant w L s' := by
  obtain ⟨t, ht, he⟩ := bind_eq_ok.1 he
  have hit := (Invariant.stable w L).perform (hi.record (e := .run c) rfl) ht
  split at he
  · exact Except.ok.inj he ▸ hit
  · obtain ⟨u, hu, he⟩ := bind_eq_ok.1 he
    rw [← Except.ok.inj he]
    exact ((Invariant.stable w L).remove hit hu).changed true

theorem addDefaults_invariant_any :
    ∀ (subs : List Subsystem) {s s' : State}, Invariant w L s →
      addDefaults w h subs s = .ok s' → Invariant w L s' :=
  addDefaults_rule _ fun sub _ _ hi ht => by
    refine Invariant.record (e := .confirmCommand sub) ?_ rfl
    split at ht
    · exact processCommandAddition_invariant_any hi ht
    · exact Except.ok.inj ht ▸ hi

theorem runPhases_invariant_any {s s' : State} (hi : Invariant w false s)
    (he : runPhases w h s = .ok s') : Invariant w false s' := by
  obtain ⟨t₁, h₁, he⟩ := bind_eq_ok.1 he
  obtain ⟨t₂, h₂, he⟩ := bind_eq_ok.1 he
  obtain ⟨t₃, h₃, he⟩ := bind_eq_ok.1 he
  obtain ⟨t₄, h₄, he⟩ := bind_eq_ok.1 he
  have hP := Invariant.stable w false
  have hi₁ := pollButtons_rule _ (fun b _ _ hi => hP.perform (hi.record (e := .execute b) rfl)) _
    hi h₁
  have hi₂ := callPeriodic_rule _ (fun sub _ _ hi => hP.perform (hi.record (e := .periodic sub) rfl))
    _ hi₁ h₂
  have hi₃ := stepCommands_rule _ (fun _ _ _ hi => stepCommand_invariant_any hi) _ _
    (hi₂.changed false) h₃
  have hi₄ := processAdditions_rule _ (fun _ _ _ hi => processCommandAddition_invariant_any hi) _
    (hi₃.lock true) h₄
  rw [← Except.ok.inj he]
  exact (hi₄.additions []).lock false

theorem exec_invariant_any {op : Op} {s s' : State} (hi : Invariant w false s)
    (he : exec w h op s = .ok s') : Invariant w false s' := by
  cases op with
  | run =>
    simp only [exec, run] at he
    split at he
    · obtain ⟨t, ht, he⟩ := bind_eq_ok.1 he
      exact addDefaults_invariant_any _ (runPhases_invariant_any hi ht) he
    · exact Except.ok.inj he ▸ hi
  | remove c => exact (Invariant.stable w false).remove hi he
  | removeAll => exact (Invariant.stable w false).removeAll hi he
  | registerSubsystem sub =>
    cases sub <;> simp only [exec, registerSubsystem, Except.ok.injEq] at he <;> subst he
    · exact hi.record (e := .error .nullParameter "subsystem") rfl
    · exact hi.congr rfl rfl (fun _ => rfl) rfl rfl
  | addCommand c => exact addCommand_invariant hi he
  | addButton | setEnabled | requestCancel =>
    simp only [exec, Except.ok.injEq] at he; subst he
    exact hi.congr rfl rfl (fun _ => rfl) rfl rfl
  | updateTable =>
    simp only [exec, Except.ok.injEq] at he; subst he
    exact updateTable_invariant hi

theorem execAll_invariant_any :
    ∀ (ops : List Op) {s s' : State}, Invariant w false s → execAll w h ops s = .ok s' →
      Invariant w false s'
  | [], _, _, hi, he => Except.ok.inj he ▸ hi
  | _ :: ops, _, _, hi, he => by
    obtain ⟨t, ht, he⟩ := bind_eq_ok.1 he
    exact execAll_invariant_any ops (exec_invariant_any hi ht) he

end Steps

/-- **The invariant holds whatever the hooks' user code calls**: in every
state a fresh scheduler reaches, with hooks that may call `AddCommand`,
`Cancel`, `Remove` and `RemoveAll` from any hook and to any depth, every
running command holds each subsystem it requires and every holder is a running
command requiring what it holds, each command's `StartRunning` and `Removed`
calls alternate from `StartRunning` with the command running exactly after
an odd number of them, no admission is under way, and `m_additionsMutex` is
free. -/
theorem Reachable.invariant_of_any_hooks {w : Registry} {h : Hooks} {s : State}
    (hr : Reachable w h s) : Invariant w false s :=
  hr.rule _ (Invariant.initial w) fun _ _ _ => exec_invariant_any

/-- Commands `3` and `4` start, then `5` displaces `3`, whose `Removed` hook
removes `4`: a hook that calls `Remove` from inside an admission. -/
theorem invariant_of_any_hooks_pairRun :
    ∃ s, execAll pairRegistry removingHooks pairRun State.init = .ok s ∧ s.commands.toList = [5] ∧
      s.log.count (.removed 4) = 1 ∧ Invariant pairRegistry false s :=
  have hr := Reachable.of_execAll (w := pairRegistry) (h := removingHooks) pairRun .init rfl
  ⟨_, rfl, rfl, rfl, Reachable.invariant_of_any_hooks hr⟩

end Wpilib.Commands
