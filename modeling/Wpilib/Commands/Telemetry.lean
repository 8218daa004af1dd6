import Wpilib.Commands.Tick

/-!
# Commands — the dashboard entries

The update callback republishes `Names` and `Ids` only when
`m_runningCommandsChanged` is set. `Run` clears the flag before its step loop
and sets it for every removal in the loop and every admission, so a tick that
changes the running set always raises it (`run_published`). `Remove` and
`RemoveAll` called from outside a tick change the running set without raising
it, and the entries go stale (`updateTable_stale`).
-/

namespace Wpilib.Commands

/-- The `Names` and `Ids` entries list the running commands, in set order. -/
def Published (w : Registry) (s : State) : Prop :=
  s.names = s.commands.toList.map w.name ∧ s.ids = s.commands.toList.map w.id

/-- From `s` to `t` the entries are untouched, and the running set is
unchanged unless the change flag is up. -/
structure Tracks (s t : State) : Prop where
  names : t.names = s.names
  ids : t.ids = s.ids
  quiet : t.runningCommandsChanged = false →
    t.commands = s.commands ∧ s.runningCommandsChanged = false

namespace Tracks

variable {s t u : State}

theorem refl (s : State) : Tracks s s := ⟨rfl, rfl, fun h => ⟨rfl, h⟩⟩

theorem trans (h₁ : Tracks s t) (h₂ : Tracks t u) : Tracks s u where
  names := h₂.names.trans h₁.names
  ids := h₂.ids.trans h₁.ids
  quiet hu :=
    have ht := h₂.quiet hu
    ⟨ht.1.trans (h₁.quiet ht.2).1, (h₁.quiet ht.2).2⟩

/-- A change that leaves the running set, the flag and the entries alone. -/
theorem frame (hc : t.commands = s.commands) (hf : t.runningCommandsChanged = s.runningCommandsChanged)
    (hn : t.names = s.names) (hi : t.ids = s.ids) : Tracks s t :=
  ⟨hn, hi, fun h => ⟨hc, hf ▸ h⟩⟩

/-- A change that raises the flag and leaves the entries alone. -/
theorem raise (hf : t.runningCommandsChanged = true) (hn : t.names = s.names)
    (hi : t.ids = s.ids) : Tracks s t :=
  ⟨hn, hi, fun h => by simp [hf] at h⟩

end Tracks

section Tick

variable {w : Registry} {h : Hooks} (hT : h.Tame)

theorem remove_entries (hR : ∀ st d, ∀ a ∈ h.removed st d, a.Tame) {c : Option Command}
    {s t : State} (he : remove w h c s = .ok t) : t.names = s.names ∧ t.ids = s.ids := by
  cases c with
  | none =>
    simp only [remove, removeN, Except.ok.injEq] at he
    subst he; exact ⟨rfl, rfl⟩
  | some c =>
    rcases remove_ok hR he with ⟨-, rfl⟩ | ⟨-, ht⟩
    · exact ⟨rfl, rfl⟩
    · rw [ht, eraseCommand_eq]; exact ⟨rfl, rfl⟩

include hT in
/-- The button and `Periodic` phases only queue additions and log calls. -/
theorem pollButtons_frame : ∀ (bs : List ButtonScheduler) {s t : State},
    pollButtons w h bs s = .ok t → t = { s with additions := t.additions, log := t.log } :=
  fun bs s _ => pollButtons_rule (fun t => t = { s with additions := t.additions, log := t.log })
    (fun b _ _ hu he => by rw [perform_ok (hT.execute _ b) he, hu]; rfl) bs rfl

include hT in
theorem callPeriodic_frame : ∀ (subs : List Subsystem) {s t : State},
    callPeriodic w h subs s = .ok t → t = { s with additions := t.additions, log := t.log } :=
  fun subs s _ => callPeriodic_rule (fun t => t = { s with additions := t.additions, log := t.log })
    (fun sub _ _ hu he => by rw [perform_ok (hT.periodic _ sub) he, hu]; rfl) subs rfl

include hT in
theorem stepCommand_tracks {c : Command} {s t : State} (he : stepCommand w h c s = .ok t) :
    Tracks s t := by
  obtain ⟨u, hu, he⟩ := bind_eq_ok.1 he
  rw [perform_ok (hT.run _ c) hu] at he
  split at he
  · exact Except.ok.inj he ▸ .frame rfl rfl rfl rfl
  · obtain ⟨v, hv, he⟩ := bind_eq_ok.1 he
    rw [← Except.ok.inj he]
    have hn := remove_entries hT.removed hv
    exact .raise rfl hn.1 hn.2

include hT in
theorem stepCommands_tracks : ∀ (cs : List Command) (it : Option Command) {s t : State},
    stepCommands w h cs it s = .ok t → Tracks s t :=
  fun cs it s _ => stepCommands_rule (Tracks s) (fun _ _ _ hu he => hu.trans (stepCommand_tracks hT he))
    cs it (.refl s)

include hT in
/-- An admission raises the flag; nothing else in `ProcessCommandAddition`
touches the running set. -/
theorem processCommandAddition_tracks {L : Bool} {c : Option Command} {s t : State}
    (hi : Invariant w L s) (he : processCommandAddition w h c s = .ok t) : Tracks s t := by
  rcases processCommandAddition_cases hT.removed hi.consistent he with rfl | ⟨-, rfl⟩ |
    ⟨c, ds, -, -, -, -, had⟩
  · exact .refl _
  · exact .frame rfl rfl rfl rfl
  · have hf := had.frame
    exact .raise (by rw [hf]) (by rw [hf]) (by rw [hf])

include hT in
theorem processAdditions_tracks {L : Bool} : ∀ (q : List (Option Command)) {s t : State},
    Invariant w L s → processAdditions w h q s = .ok t → Tracks s t :=
  fun q s _ hi he => (processAdditions_rule (fun t => Tracks s t ∧ Invariant w L t)
    (fun _ _ _ hu he => ⟨hu.1.trans (processCommandAddition_tracks hT hu.2 he),
      processCommandAddition_invariant hT.removed hu.2 he⟩) q ⟨.refl s, hi⟩ he).1

include hT in
theorem drainAdditions_tracks {s t : State} (hi : Invariant w false s)
    (he : drainAdditions w h s = .ok t) : Tracks s t := by
  obtain ⟨u, hu, he⟩ := bind_eq_ok.1 he
  rw [← Except.ok.inj he]
  refine ((Tracks.frame ?_ ?_ ?_ ?_).trans (processAdditions_tracks hT _ (hi.lock true) hu)).trans
    (.frame ?_ ?_ ?_ ?_) <;> rfl

include hT in
theorem addDefaults_tracks {L : Bool} : ∀ (subs : List Subsystem) {s t : State},
    Invariant w L s → addDefaults w h subs s = .ok t → Tracks s t :=
  fun subs s _ hi he => (addDefaults_rule (fun t => Tracks s t ∧ Invariant w L t)
    (fun sub u v hu hv => by
      have hsv : Tracks u v ∧ Invariant w L v := by
        split at hv
        · exact ⟨processCommandAddition_tracks hT hu.2 hv, processCommandAddition_invariant hT.removed hu.2 hv⟩
        · exact Except.ok.inj hv ▸ ⟨.refl _, hu.2⟩
      refine ⟨(hu.1.trans hsv.1).trans (.frame ?_ ?_ ?_ ?_),
        hsv.2.record (e := .confirmCommand sub) rfl⟩ <;> rfl) subs ⟨.refl s, hi⟩ he).1

/-- The update callback leaves the entries right when they were right or the
flag is up. -/
theorem published_updateTable {t : State}
    (hp : t.runningCommandsChanged = false → Published w t) : Published w (updateTable w t) := by
  obtain ⟨l, hl, -⟩ := cancelRequested_frame (w := w) t.cancelEntry t.commands.toList t
  unfold updateTable
  dsimp only
  generalize hu : (if t.cancelEntry = [] then t
    else { cancelRequested w t.cancelEntry t.commands.toList t with cancelEntry := [] }) = u
  have hut : u.runningCommandsChanged = t.runningCommandsChanged ∧ u.commands = t.commands ∧
      u.names = t.names ∧ u.ids = t.ids := by
    rw [← hu]
    split
    · exact ⟨rfl, rfl, rfl, rfl⟩
    · rw [hl]; exact ⟨rfl, rfl, rfl, rfl⟩
  obtain ⟨hf, hc, hn, hi⟩ := hut
  split
  · exact ⟨rfl, rfl⟩
  · rename_i hq
    rw [Published, hc, hn, hi]
    exact hp (by simpa [hf] using hq)

include hT in
/-- **A tick that changes the running set raises the flag**, so the update
after a tick publishes the running set, when the entries were right before it. -/
theorem run_published {s s' : State} (hi : Invariant w false s) (hp : Published w s)
    (he : run w h s = .ok s') : Published w (updateTable w s') := by
  apply published_updateTable
  intro hq
  unfold run at he
  split at he
  · obtain ⟨t, ht, he⟩ := bind_eq_ok.1 he
    obtain ⟨t₁, h₁, ht⟩ := bind_eq_ok.1 ht
    obtain ⟨t₂, h₂, ht⟩ := bind_eq_ok.1 ht
    obtain ⟨t₃, h₃, ht⟩ := bind_eq_ok.1 ht
    have hi₂ := (callPeriodic_invariant hT.removed _ (pollButtons_invariant hT.removed _ hi h₁) h₂).changed false
    have hi₃ := stepCommands_invariant hT.removed _ _ hi₂ h₃
    have hB := ((stepCommands_tracks hT _ _ h₃).trans (drainAdditions_tracks hT hi₃ ht)).trans
      (addDefaults_tracks hT _ (drainAdditions_invariant hT.removed hi₃ ht) he)
    have hA : t₂ = { s with additions := t₂.additions, log := t₂.log } := by
      rw [callPeriodic_frame hT _ h₂, pollButtons_frame hT _ h₁]
    obtain ⟨hc, -⟩ := hB.quiet hq
    rw [Published, hB.names, hB.ids, hc, hA]
    exact hp
  · exact Except.ok.inj he ▸ hp

/-- `Remove` and `RemoveAll`, called from outside a tick. -/
def Op.removes : Op → Bool
  | .remove _ => true
  | .removeAll => true
  | _ => false

include hT in
theorem exec_published {op : Op} {s t : State} (hop : op.removes = false)
    (hi : Invariant w false s) (hp : Published w s) (he : exec w h op s = .ok t) :
    Published w (updateTable w t) := by
  cases op with
  | run => exact run_published hT hi hp he
  | remove | removeAll => cases hop
  | updateTable =>
    cases he
    exact published_updateTable fun _ => published_updateTable fun _ => hp
  | addCommand c =>
    simp only [exec, addCommand] at he
    split_ifs at he <;> cases he <;> exact published_updateTable fun _ => hp
  | registerSubsystem sub => cases sub <;> cases he <;> exact published_updateTable fun _ => hp
  | addButton | setEnabled | requestCancel => cases he; exact published_updateTable fun _ => hp

include hT in
theorem published_after_updates : ∀ (ops : List Op) {s s' : State},
    (∀ op ∈ ops, op.removes = false) → Invariant w false s → Published w s →
      execAll w h (ops.flatMap fun op => [op, .updateTable]) s = .ok s' → Published w s'
  | [], _, _, _, _, hp, he => Except.ok.inj he ▸ hp
  | op :: ops, s, s', hops, hi, hp, he => by
    simp only [List.flatMap_cons, List.cons_append, List.nil_append, execAll] at he
    obtain ⟨t, ht, he⟩ := bind_eq_ok.1 he
    obtain ⟨u, hu, he⟩ := bind_eq_ok.1 he
    obtain rfl : u = updateTable w t := (Except.ok.inj hu).symm
    exact published_after_updates ops (fun o ho => hops o (List.mem_cons_of_mem _ ho))
      (updateTable_invariant (exec_invariant hT.removed hi ht))
      (exec_published hT (hops op (List.mem_cons_self _ _)) hi hp ht) he

include hT in
/-- **The entries are right after every update** as long as only ticks change
the running set: from a fresh scheduler, after any operations other than
`Remove` and `RemoveAll`, each followed by the update callback, with hooks
that call only `AddCommand` and `Cancel`. -/
theorem published_of_updates (ops : List Op) (hops : ∀ op ∈ ops, op.removes = false) {s : State}
    (he : execAll w h (ops.flatMap fun op => [op, .updateTable]) State.init = .ok s) :
    Published w s :=
  published_after_updates hT ops hops (Reachable.invariant hT.removed .init) ⟨rfl, rfl⟩ he

end Tick

theorem published_of_updates_pair :
    ∃ s, execAll pairRegistry quietHooks
        ([.addCommand (some 3), .run, .run].flatMap fun op => [op, .updateTable]) State.init = .ok s ∧
      s.ids = [3] ∧ Published pairRegistry s :=
  ⟨_, rfl, rfl, published_of_updates quietHooks_tame [.addCommand (some 3), .run, .run] (by decide) rfl⟩

/-- **`Remove` from outside a tick leaves the entries stale.** Command `3`
starts, a tick in which nothing changes clears the flag, and an outside
`Remove` erases `3` without raising it: the update after it keeps publishing
`3`. -/
theorem updateTable_stale :
    ∃ s, execAll pairRegistry quietHooks
        ([.addCommand (some 3), .run, .run, .remove (some 3)].flatMap fun op => [op, .updateTable])
        State.init = .ok s ∧
      s.commands.toList = [] ∧ s.names = ["Command"] ∧ s.ids = [3] :=
  ⟨_, rfl, rfl, rfl, rfl⟩

/-! ## What the callback leaves alone -/

section Frame

variable {w : Registry}

/-- The update callback leaves the queue alone: its cancel loop only records
`Cancel` calls. -/
@[simp] theorem updateTable_additions (s : State) : (updateTable w s).additions = s.additions := by
  obtain ⟨l, hl, -⟩ := cancelRequested_frame (w := w) s.cancelEntry s.commands.toList s
  unfold updateTable
  dsimp only
  split <;> split <;> simp [hl]

@[simp] theorem updateTable_additionsLocked (s : State) :
    (updateTable w s).additionsLocked = s.additionsLocked := by
  obtain ⟨l, hl, -⟩ := cancelRequested_frame (w := w) s.cancelEntry s.commands.toList s
  unfold updateTable
  dsimp only
  split <;> split <;> simp [hl]

end Frame

end Wpilib.Commands
