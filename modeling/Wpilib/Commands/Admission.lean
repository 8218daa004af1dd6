import Wpilib.Commands.Calls

/-!
# Commands — admission

`ProcessCommandAddition` is the scheduler's one way into the running set. Its
first loop gives up if some requirement's holder may not be interrupted; its
second gives every requirement to the new command, cancelling and removing the
holder first. Under holder consistency each displaced command is running and
holds all it requires, so `Remove` releases exactly what it held and the
later requirements it held are found free: `giveRequirements_gave` is that
loop, as the induction over the requirement list sees it.
-/

namespace Wpilib.Commands

/-- Holder consistency: every running command holds each subsystem it
requires, and every held subsystem is held by a running command that requires
it. -/
structure HolderConsistent (w : Registry) (s : State) : Prop where
  holds : ∀ c ∈ s.commands, ∀ sub ∈ w.requirements c, s.currentCommand sub = some c
  running : ∀ sub c, s.currentCommand sub = some c → c ∈ s.commands ∧ sub ∈ w.requirements c

/-- The requirements loop's invariant while it gives requirements to `c`:
`c` is not running, every running command holds all it requires, and every
holder is `c` or a running command that requires what it holds. -/
structure Pending (w : Registry) (c : Command) (t : State) : Prop where
  not_mem : c ∉ t.commands
  holds : ∀ d ∈ t.commands, ∀ sub ∈ w.requirements d, t.currentCommand sub = some d
  holder : ∀ sub d, t.currentCommand sub = some d → d = c ∨ (d ∈ t.commands ∧ sub ∈ w.requirements d)

namespace Pending

variable {w : Registry} {c : Command} {t : State} {lock : Subsystem}

/-- A free requirement goes to `c`. -/
theorem setLock (hp : Pending w c t) (hl : t.currentCommand lock = none) :
    Pending w c (t.setCurrentCommand lock (some c)) where
  not_mem := hp.not_mem
  holds d hd sub hsub := by
    have hd' := hp.holds d hd sub hsub
    by_cases e : sub = lock
    · subst e; simp [hl] at hd'
    · simp [e, hd']
  holder sub d hsd := by
    by_cases e : sub = lock
    · simp only [State.setCurrentCommand_currentCommand, e, if_true, Option.some.injEq] at hsd
      exact .inl hsd.symm
    · simp only [State.setCurrentCommand_currentCommand, e, if_false] at hsd
      exact hp.holder sub d hsd

/-- The holder `d` of a requirement is running and requires it. -/
theorem holder_running (hp : Pending w c t) {d : Command} (hl : t.currentCommand lock = some d)
    (hd : d ≠ c) : d ∈ t.commands ∧ lock ∈ w.requirements d :=
  (hp.holder lock d hl).resolve_left hd

/-- Two running commands requiring one subsystem are the same. -/
theorem eq_of_requires (hp : Pending w c t) {d e : Command} {sub : Subsystem}
    (hd : d ∈ t.commands) (hsd : sub ∈ w.requirements d)
    (he : e ∈ t.commands) (hse : sub ∈ w.requirements e) : d = e := by
  have h1 := hp.holds d hd sub hsd
  rw [hp.holds e he sub hse] at h1
  exact (Option.some.inj h1).symm

/-- The holder `d` of a requirement is cancelled and removed, then the
requirement goes to `c`. -/
theorem displace (hp : Pending w c t) {d : Command} (hl : t.currentCommand lock = some d)
    (hd : d ≠ c) (q : List (Option Command)) :
    Pending w c ({ eraseCommand w d (t.record (.cancel d)) with additions := q }.setCurrentCommand
      lock (some c)) := by
  obtain ⟨hdr, hld⟩ := hp.holder_running hl hd
  refine ⟨by simp [hp.not_mem], ?_, ?_⟩
  · intro x hx sub hsub
    simp only [State.setCurrentCommand_commands, eraseCommand_commands, State.record_commands,
      PtrSet.mem_erase] at hx
    have hsub_lock : sub ≠ lock := fun e => hx.1 (hp.eq_of_requires hx.2 (e ▸ hsub) hdr hld)
    have hsub_d : sub ∉ w.requirements d := fun hs => hx.1 (hp.eq_of_requires hx.2 hsub hdr hs)
    simp [hsub_lock, hsub_d, hp.holds x hx.2 sub hsub]
  · intro sub y hy
    by_cases e : sub = lock
    · simp only [State.setCurrentCommand_currentCommand, e, if_true, Option.some.injEq] at hy
      exact .inl hy.symm
    · by_cases hs : sub ∈ w.requirements d
      · simp [e, hs] at hy
      · simp only [State.setCurrentCommand_currentCommand, e, if_false,
          eraseCommand_currentCommand, hs, State.record_currentCommand] at hy
        rcases hp.holder sub y hy with rfl | ⟨hyr, hys⟩
        · exact .inl rfl
        · have hyd : y ≠ d := fun e => hs (e ▸ hys)
          exact .inr ⟨by simp [hyd, hyr], hys⟩

end Pending

/-- What the requirements loop did, giving `reqs` to `c` from `t` and ending
in `t'`: it displaced `ds`, the holders of `reqs`, cancelling and removing each
once; every other subsystem a displaced command held is free, and every
remaining subsystem keeps its holder. -/
structure Gave (w : Registry) (c : Command) (reqs : List Subsystem) (t t' : State)
    (ds : List Command) : Prop where
  nodup : ds.Nodup
  mem_iff : ∀ d, d ∈ ds ↔ ∃ sub ∈ reqs, t.currentCommand sub = some d
  log : t'.log = t.log ++ ds.flatMap fun d => [.cancel d, .removed d]
  commands : ∀ x, x ∈ t'.commands ↔ x ∈ t.commands ∧ x ∉ ds
  given : ∀ sub ∈ reqs, t'.currentCommand sub = some c
  released : ∀ sub ∉ reqs, ∀ d ∈ ds, t.currentCommand sub = some d → t'.currentCommand sub = none
  kept : ∀ sub ∉ reqs, (∀ d ∈ ds, t.currentCommand sub ≠ some d) →
    t'.currentCommand sub = t.currentCommand sub
  frame : t' =
    { t with commands := t'.commands, currentCommand := t'.currentCommand, log := t'.log,
             additions := t'.additions }

namespace Gave

variable {w : Registry} {c : Command} {reqs : List Subsystem} {t t' : State}
  {ds : List Command} {lock : Subsystem}

/-- The loop on an empty list gives nothing. -/
theorem nil (t : State) : Gave w c [] t t [] where
  nodup := List.nodup_nil
  mem_iff _ := by simp
  log := by simp
  commands _ := by simp
  given _ h := (List.not_mem_nil _ h).elim
  released _ _ _ h := (List.not_mem_nil _ h).elim
  kept _ _ _ := rfl
  frame := rfl

/-- A round on a free requirement, then the rest of the loop. -/
theorem cons_free (hlr : lock ∉ reqs) (hl : t.currentCommand lock = none)
    (hnc : ∀ sub ∈ reqs, t.currentCommand sub ≠ some c)
    (g : Gave w c reqs (t.setCurrentCommand lock (some c)) t' ds) :
    Gave w c (lock :: reqs) t t' ds := by
  have hne : ∀ {sub}, sub ∈ reqs → sub ≠ lock := fun hs e => hlr (e ▸ hs)
  have hcds : c ∉ ds := fun hc => by
    obtain ⟨sub, hs, hsc⟩ := (g.mem_iff c).1 hc
    exact hnc sub hs (by simpa [hne hs] using hsc)
  refine ⟨g.nodup, fun d => ?_, by simpa using g.log, by simpa using g.commands, ?_, ?_, ?_,
    g.frame⟩
  · rw [g.mem_iff]
    simp only [List.mem_cons, or_and_right, exists_or, exists_eq_left, hl, reduceCtorEq,
      false_or]
    exact exists_congr fun sub => and_congr_right fun hs => by simp [hne hs]
  · intro sub hs
    rcases List.mem_cons.1 hs with rfl | hs
    · rw [g.kept sub hlr fun d hd => by simp; exact fun e => hcds (e ▸ hd)]; simp
    · exact g.given sub hs
  · intro sub hs d hd htd
    have hsl : sub ≠ lock := fun e => hs (e ▸ List.mem_cons_self _ _)
    exact g.released sub (fun h => hs (List.mem_cons_of_mem _ h)) d hd (by simpa [hsl] using htd)
  · intro sub hs hall
    have hsl : sub ≠ lock := fun e => hs (e ▸ List.mem_cons_self _ _)
    rw [g.kept sub (fun h => hs (List.mem_cons_of_mem _ h)) (by simpa [hsl] using hall)]
    simp [hsl]

/-- A round that cancels and removes the holder `d`, then the rest of the
loop. -/
theorem cons_displace (hp : Pending w c t) (hlr : lock ∉ reqs) {d : Command}
    (hl : t.currentCommand lock = some d)
    (hnc : ∀ sub ∈ lock :: reqs, t.currentCommand sub ≠ some c) {q : List (Option Command)}
    (g : Gave w c reqs ({ eraseCommand w d (t.record (.cancel d)) with additions := q
      }.setCurrentCommand lock (some c)) t' ds) :
    Gave w c (lock :: reqs) t t' (d :: ds) := by
  have hdc : d ≠ c := fun e => hnc lock (List.mem_cons_self _ _) (e ▸ hl)
  have hdr := (hp.holder_running hl hdc).1
  have hheld : ∀ {sub}, t.currentCommand sub = some d → sub ∈ w.requirements d :=
    fun h => ((hp.holder _ d h).resolve_left hdc).2
  have hreq : ∀ {sub}, sub ∈ w.requirements d → t.currentCommand sub = some d :=
    fun h => hp.holds d hdr _ h
  have hne : ∀ {sub}, sub ∈ reqs → sub ≠ lock := fun hs e => hlr (e ▸ hs)
  have hout : ∀ {sub}, sub ∉ lock :: reqs → sub ≠ lock ∧ sub ∉ reqs :=
    fun hs => ⟨fun e => hs (e ▸ List.mem_cons_self _ _), fun h => hs (List.mem_cons_of_mem _ h)⟩
  -- the holders the rest of the loop starts from
  have ht2 : ∀ sub, ({ eraseCommand w d (t.record (.cancel d)) with additions := q
      }.setCurrentCommand lock (some c)).currentCommand sub =
      if sub = lock then some c else if sub ∈ w.requirements d then none
      else t.currentCommand sub := fun sub => by simp
  have hdds : d ∉ ds := fun hd => by
    obtain ⟨sub, hs, hsd⟩ := (g.mem_iff d).1 hd
    rw [ht2, if_neg (hne hs)] at hsd
    split_ifs at hsd with h2
    exact h2 (hheld hsd)
  have hcds : c ∉ ds := fun hc => by
    obtain ⟨sub, hs, hsc⟩ := (g.mem_iff c).1 hc
    rw [ht2, if_neg (hne hs)] at hsc
    split_ifs at hsc
    exact hnc sub (List.mem_cons_of_mem _ hs) hsc
  refine ⟨List.nodup_cons.2 ⟨hdds, g.nodup⟩, fun e => ?_, ?_, fun x => ?_, ?_, ?_, ?_,
    g.frame.trans (by rw [eraseCommand_eq]; rfl)⟩
  · rw [List.mem_cons, g.mem_iff]
    simp only [List.mem_cons, or_and_right, exists_or, exists_eq_left, hl, Option.some.injEq]
    constructor
    · rintro (rfl | ⟨sub, hs, hse⟩)
      · exact .inl rfl
      · rw [ht2, if_neg (hne hs)] at hse
        split_ifs at hse
        exact .inr ⟨sub, hs, hse⟩
    · rintro (rfl | ⟨sub, hs, hse⟩)
      · exact .inl rfl
      · by_cases hsd : sub ∈ w.requirements d
        · exact .inl (Option.some.inj ((hreq hsd).symm.trans hse)).symm
        · exact .inr ⟨sub, hs, by rw [ht2, if_neg (hne hs), if_neg hsd]; exact hse⟩
  · rw [g.log]; simp
  · rw [g.commands]; simp only [State.setCurrentCommand_commands, eraseCommand_commands,
      State.record_commands, PtrSet.mem_erase, List.mem_cons, not_or]
    exact ⟨fun ⟨⟨hd, hx⟩, hds⟩ => ⟨hx, hd, hds⟩, fun ⟨hx, hd, hds⟩ => ⟨⟨hd, hx⟩, hds⟩⟩
  · intro sub hs
    rcases List.mem_cons.1 hs with rfl | hs
    · rw [g.kept sub hlr fun e he => by
        rw [ht2, if_pos rfl]; exact fun h => hcds (Option.some.inj h ▸ he)]
      simp
    · exact g.given sub hs
  · intro sub hs e he hte
    obtain ⟨hsl, hsr⟩ := hout hs
    by_cases hsd : sub ∈ w.requirements d
    · rw [g.kept sub hsr fun _ _ => by rw [ht2]; simp [hsl, hsd]]
      simp [hsl, hsd]
    · rcases List.mem_cons.1 he with rfl | he
      · exact absurd (hheld hte) hsd
      · exact g.released sub hsr e he (by rw [ht2]; simp [hsl, hsd, hte])
  · intro sub hs hall
    obtain ⟨hsl, hsr⟩ := hout hs
    have hsd : sub ∉ w.requirements d := fun h => hall d (List.mem_cons_self _ _) (hreq h)
    rw [g.kept sub hsr fun e he => by
      rw [ht2]; simpa [hsl, hsd] using hall e (List.mem_cons_of_mem _ he)]
    simp [hsl, hsd]

end Gave

section Loop

variable {w : Registry} {h : Hooks} {c : Command}

/-- **The requirements loop**: a run of it that returns, from a state where
its invariant holds and with `Removed` hooks that call only `AddCommand` and
`Cancel`, gave `reqs` to `c`. -/
theorem giveRequirements_gave (hR : ∀ st d, ∀ a ∈ h.removed st d, a.Tame) :
    ∀ {reqs : List Subsystem} {t t' : State}, reqs.Nodup → Pending w c t →
      (∀ sub ∈ reqs, t.currentCommand sub ≠ some c) →
      giveRequirements w h c reqs t = .ok t' → ∃ ds, Gave w c reqs t t' ds
  | [], t, _, _, _, _, he => by
    cases he
    exact ⟨[], Gave.nil t⟩
  | lock :: rest, t, t', hnd, hp, hnc, he => by
    obtain ⟨hlr, hnd⟩ := List.nodup_cons.1 hnd
    have hne : ∀ {sub}, sub ∈ rest → sub ≠ lock := fun hs e => hlr (e ▸ hs)
    rw [giveRequirements, bind_eq_ok] at he
    obtain ⟨t1, h1, h2⟩ := he
    cases hl : t.currentCommand lock with
    | none =>
      rw [hl] at h1
      cases h1
      obtain ⟨ds, g⟩ := giveRequirements_gave hR hnd (hp.setLock hl)
        (fun sub hs => by simpa [hne hs] using hnc sub (List.mem_cons_of_mem _ hs)) h2
      exact ⟨ds, g.cons_free hlr hl fun sub hs => hnc sub (List.mem_cons_of_mem _ hs)⟩
    | some d =>
      rw [hl] at h1
      have hdc : d ≠ c := fun e => hnc lock (List.mem_cons_self _ _) (e ▸ hl)
      rcases remove_ok hR h1 with ⟨hnm, -⟩ | ⟨-, ht1⟩
      · exact absurd (by simpa using (hp.holder_running hl hdc).1) hnm
      · rw [ht1] at h2
        obtain ⟨ds, g⟩ := giveRequirements_gave hR hnd (hp.displace hl hdc _)
          (fun sub hs => by
            have := hnc sub (List.mem_cons_of_mem _ hs)
            simp only [State.setCurrentCommand_currentCommand, if_neg (hne hs),
              eraseCommand_currentCommand, State.record_currentCommand]
            split_ifs
            exacts [by simp, this]) h2
        exact ⟨d :: ds, g.cons_displace hp hlr hl hnc⟩

/-- With `Removed` hooks whose calls return under the mutex's state, the
requirements loop returns. -/
theorem giveRequirements_ok {locked : Bool}
    (hA : ∀ st d, ∀ a ∈ h.removed st d, a.Allowed locked) :
    ∀ (reqs : List Subsystem) (t : State), t.additionsLocked = locked →
      ∃ t', giveRequirements w h c reqs t = .ok t'
  | [], t, _ => ⟨t, rfl⟩
  | lock :: rest, t, hl => by
    rw [giveRequirements]
    cases hlk : t.currentCommand lock with
    | none =>
      obtain ⟨t', h'⟩ := giveRequirements_ok hA rest (t.setCurrentCommand lock (some c))
        (by simpa using hl)
      exact ⟨t', by simpa [Bind.bind, Except.bind] using h'⟩
    | some d =>
      obtain ⟨t1, h1, hl1⟩ := remove_allowed (w := w) (s := t.record (.cancel d))
        (by simpa [hl] using hA) d
      obtain ⟨t', h'⟩ := giveRequirements_ok hA rest (t1.setCurrentCommand lock (some c))
        (by simpa [hl] using hl1)
      exact ⟨t', by simp [h1, Bind.bind, Except.bind, h']⟩

end Loop

/-- What an admission of `c` did to `s`, ending in `s'`: it displaced `ds`,
the holders of `c`'s requirements, cancelling and removing each once, then
started `c`, which holds all it requires; every other subsystem a displaced
command held is free, and every remaining subsystem keeps its holder. The log
holds the calls the scheduler makes, so `log` counts the admission's own
`Cancel` calls; one that hook user code makes leaves no event. -/
structure Admitted (w : Registry) (c : Command) (s s' : State) (ds : List Command) : Prop where
  nodup : ds.Nodup
  mem_iff : ∀ d, d ∈ ds ↔ ∃ sub ∈ w.requirements c, s.currentCommand sub = some d
  log : s'.log = s.log ++ (ds.flatMap fun d => [.cancel d, .removed d]) ++ [.startRunning c]
  commands : ∀ x, x ∈ s'.commands ↔ x = c ∨ (x ∈ s.commands ∧ x ∉ ds)
  given : ∀ sub ∈ w.requirements c, s'.currentCommand sub = some c
  released : ∀ sub ∉ w.requirements c, ∀ d ∈ ds, s.currentCommand sub = some d →
    s'.currentCommand sub = none
  kept : ∀ sub ∉ w.requirements c, (∀ d ∈ ds, s.currentCommand sub ≠ some d) →
    s'.currentCommand sub = s.currentCommand sub
  frame : s' =
    { s with commands := s'.commands, currentCommand := s'.currentCommand, log := s'.log,
             additions := s'.additions, runningCommandsChanged := true }

/-- The loop's result, with `c` inserted and started, is an admission. -/
theorem Gave.admitted {w : Registry} {c : Command} {s t : State} {ds : List Command}
    (hadd : s.adding = false)
    (g : Gave w c (w.requirements c).toList { s with adding := true } t ds) :
    Admitted w c s { ({ t with adding := false, commands := t.commands.insert c }.record
      (.startRunning c)) with runningCommandsChanged := true } ds where
  nodup := g.nodup
  mem_iff d := by simpa using g.mem_iff d
  log := by simp [g.log]
  commands x := by simp [g.commands]
  given sub hs := by simpa using g.given sub hs
  released sub hs d hd htd := by simpa using g.released sub hs d hd htd
  kept sub hs hall := by simpa using g.kept sub hs hall
  frame := by
    have hf := g.frame
    rcases s with ⟨⟩
    rcases t with ⟨⟩
    simp only [State.mk.injEq] at hf hadd
    simp [State.record, hf, hadd]

section Process

variable {w : Registry} {h : Hooks} {s s' : State}

/-- An admission that is not blocked, of a command that is not running, from
a holder-consistent state with no admission under way, is an `Admitted`. -/
theorem processCommandAddition_admits (hR : ∀ st d, ∀ a ∈ h.removed st d, a.Tame)
    (hs : HolderConsistent w s) (hadd : s.adding = false) {c : Command} (hc : c ∉ s.commands)
    (hb : (w.requirements c).toList.any (blocked w s) = false)
    (he : processCommandAddition w h (some c) s = .ok s') : ∃ ds, Admitted w c s s' ds := by
  simp only [processCommandAddition, hadd, hc, hb, Bool.false_eq_true, if_false] at he
  obtain ⟨t, ht, he⟩ := bind_eq_ok.1 he
  obtain ⟨ds, g⟩ := giveRequirements_gave (t := { s with adding := true }) hR
    (w.requirements c).nodup
    ⟨hc, hs.holds, fun sub d hd => .inr (hs.running sub d hd)⟩
    (fun sub _ hsc => hc (hs.running sub c hsc).1) ht
  rw [← Except.ok.inj he]
  exact ⟨ds, g.admitted hadd⟩

/-- **Everything `ProcessCommandAddition` can do** from a holder-consistent
state, under tame `Removed` hooks: nothing; report that an admission is under
way; or admit a command that was not running. -/
theorem processCommandAddition_cases (hR : ∀ st d, ∀ a ∈ h.removed st d, a.Tame)
    (hs : HolderConsistent w s) {command : Option Command}
    (he : processCommandAddition w h command s = .ok s') :
    s' = s ∨
      (s.adding = true ∧
        s' = s.record (.error .incompatibleState "Can not start command from cancel method")) ∨
      ∃ c ds, command = some c ∧ c ∉ s.commands ∧ s.adding = false ∧
        (w.requirements c).toList.any (blocked w s) = false ∧ Admitted w c s s' ds := by
  cases command with
  | none => exact .inl (Except.ok.inj he).symm
  | some c =>
    by_cases hadd : s.adding = true
    · simp only [processCommandAddition, hadd, if_true] at he
      exact .inr (.inl ⟨hadd, (Except.ok.inj he).symm⟩)
    have hadd : s.adding = false := by simpa using hadd
    by_cases hc : c ∈ s.commands
    · simp only [processCommandAddition, hadd, hc, Bool.false_eq_true, if_false, if_true] at he
      exact .inl (Except.ok.inj he).symm
    cases hb : (w.requirements c).toList.any (blocked w s)
    · obtain ⟨ds, had⟩ := processCommandAddition_admits hR hs hadd hc hb he
      exact .inr (.inr ⟨c, ds, rfl, hc, hadd, hb, had⟩)
    · simp only [processCommandAddition, hadd, hc, hb, Bool.false_eq_true, if_false, if_true] at he
      exact .inl (Except.ok.inj he).symm

/-- An admission that is not blocked, of a command that is not running, with
`Removed` hooks whose calls return under the mutex's state, returns. -/
theorem processCommandAddition_ok {c : Command}
    (hA : ∀ st d, ∀ a ∈ h.removed st d, a.Allowed s.additionsLocked) :
    ∃ s', processCommandAddition w h (some c) s = .ok s' := by
  simp only [processCommandAddition]
  split_ifs
  · exact ⟨_, rfl⟩
  · exact ⟨_, rfl⟩
  · exact ⟨_, rfl⟩
  · obtain ⟨t, ht⟩ := giveRequirements_ok (w := w) (c := c) hA (w.requirements c).toList
      { s with adding := true } rfl
    exact ⟨_, by rw [ht]; rfl⟩

/-- No requirement is blocked when every holder of one may be interrupted. -/
theorem any_blocked_eq_false {c : Command}
    (hi : ∀ sub ∈ w.requirements c, ∀ d, s.currentCommand sub = some d → w.interruptible d = true) :
    (w.requirements c).toList.any (blocked w s) = false :=
  List.any_eq_false.2 fun sub hsub => by
    cases hsd : s.currentCommand sub with
    | none => simp [blocked, hsd]
    | some d => simp [blocked, hsd, hi sub (PtrSet.mem_toList.1 hsub) d hsd]

/-- **Admission, blocked or not.** From a holder-consistent state with no
admission under way, for a command `c` that is not running, and with `Removed`
hooks whose user code calls only `Cancel`, and `AddCommand` while the
additions mutex is free: if a holder of one of `c`'s requirements may not be
interrupted, nothing changes and no hook is called; otherwise the admission
returns, having displaced exactly the holders of `c`'s requirements, each
cancelled by the admission itself then removed once, before starting `c`. -/
theorem processCommandAddition_spec (hs : HolderConsistent w s) (hadd : s.adding = false)
    {c : Command} (hc : c ∉ s.commands)
    (hA : ∀ st d, ∀ a ∈ h.removed st d, a.Allowed s.additionsLocked) :
    ((∃ sub ∈ w.requirements c, ∃ d, s.currentCommand sub = some d ∧ w.interruptible d = false) →
        processCommandAddition w h (some c) s = .ok s) ∧
      ((∀ sub ∈ w.requirements c, ∀ d, s.currentCommand sub = some d → w.interruptible d = true) →
        ∃ s' ds, processCommandAddition w h (some c) s = .ok s' ∧ Admitted w c s s' ds) := by
  constructor
  · rintro ⟨sub, hsub, d, hsd, hi⟩
    have hb : (w.requirements c).toList.any (blocked w s) = true :=
      List.any_eq_true.2 ⟨sub, hsub, by simp [blocked, hsd, hi]⟩
    simp [processCommandAddition, hadd, hc, hb]
  · intro hi
    obtain ⟨s', he⟩ := processCommandAddition_ok (w := w) (c := c) hA
    obtain ⟨ds, had⟩ := processCommandAddition_admits (fun st d a ha => (hA st d a ha).1) hs hadd hc
      (any_blocked_eq_false hi) he
    exact ⟨s', ds, he, had⟩

end Process

/-! ## Two holders of one command's requirements -/

/-- Command `5` requires subsystems `1` and `2`, command `3` requires `1` and
command `4` requires `2`; every command may be interrupted. -/
def pairRegistry : Registry where
  requirements c :=
    if c = 3 then ⟨[1], by decide⟩ else if c = 4 then ⟨[2], by decide⟩
    else if c = 5 then ⟨[1, 2], by decide⟩ else .empty
  interruptible _ := true
  id c := c
  name _ := "Command"
  defaultCommand _ := none

/-- Commands `3` and `4` running, holding subsystems `1` and `2`. -/
def pairState : State :=
  { State.init with
    commands := ⟨[3, 4], by decide⟩
    currentCommand := fun sub => if sub = 1 then some 3 else if sub = 2 then some 4 else none }

theorem pairState_consistent : HolderConsistent pairRegistry pairState where
  holds c hc sub hsub := by
    rcases (show c = 3 ∨ c = 4 by simpa [pairState, PtrSet.mem_def] using hc) with rfl | rfl <;>
      simp_all [pairRegistry, pairState, PtrSet.mem_def]
  running sub c hsc := by
    by_cases h1 : sub = 1
    · subst h1; simp only [pairState, if_true, Option.some.injEq] at hsc; subst hsc; decide
    · by_cases h2 : sub = 2
      · subst h2; simp only [pairState] at hsc; simp at hsc; subst hsc; decide
      · simp [pairState, h1, h2] at hsc

/-- Hooks whose user code calls nothing; every command continues. -/
def quietHooks : Hooks where
  execute _ _ := []
  periodic _ _ := []
  run _ _ := ([], true)
  removed _ _ := []

theorem processCommandAddition_spec_pair :
    HolderConsistent pairRegistry pairState ∧ pairState.adding = false ∧
      5 ∉ pairState.commands ∧
      (∀ st d, ∀ a ∈ quietHooks.removed st d, a.Allowed pairState.additionsLocked) ∧
      ∃ s' ds, processCommandAddition pairRegistry quietHooks (some 5) pairState = .ok s' ∧
        Admitted pairRegistry 5 pairState s' ds :=
  have hA : ∀ st d, ∀ a ∈ quietHooks.removed st d, a.Allowed pairState.additionsLocked :=
    fun _ _ _ ha => (List.not_mem_nil _ ha).elim
  ⟨pairState_consistent, rfl, by decide, hA,
    (processCommandAddition_spec pairState_consistent rfl (by decide) hA).2
      fun _ _ _ _ => rfl⟩

/-- Command `3`'s `Removed` hook removes command `4`. -/
def removingHooks : Hooks :=
  { quietHooks with removed := fun _ c => if c = 3 then [.remove (some 4)] else [] }

/-- **A hook's `Remove` escapes the displacement law**: command `4` holds
requirement `2` of command `5`, which no holder blocks, yet admitting `5`
never cancels `4`: the `Removed` hook of `3` removed it first. -/
theorem processCommandAddition_hook_removes_displaced :
    HolderConsistent pairRegistry pairState ∧ pairState.adding = false ∧
      5 ∉ pairState.commands ∧ pairState.currentCommand 2 = some 4 ∧
      2 ∈ pairRegistry.requirements 5 ∧ (∀ d, pairRegistry.interruptible d = true) ∧
      ∃ s', processCommandAddition pairRegistry removingHooks (some 5) pairState = .ok s' ∧
        s'.log = pairState.log ++ [.cancel 3, .removed 3, .removed 4, .startRunning 5] :=
  ⟨pairState_consistent, rfl, by decide, rfl, by decide, fun _ => rfl, _, rfl, rfl⟩

end Wpilib.Commands
