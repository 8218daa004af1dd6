import Wpilib.Commands.Invariant

/-!
# Commands — `RemoveAll`

`Scheduler::RemoveAll` calls `Remove` on the first running command, in address
order, until none is left. When the `Removed` hooks' calls return, each round
erases that command, calls its `Removed` once and queues what the hook adds;
nothing a hook calls puts a command back, so the loop takes one round per
running command. Every holder is a running command in a holder-consistent
state, so the loop also leaves every subsystem free, although `Remove` clears
only the requirements of the command it erases (`removeAll_spec`).
-/

namespace Wpilib.Commands

/-- Every holder is running, so a state with nothing running holds nothing. -/
theorem HolderConsistent.free_of_empty {w : Registry} {s : State} (hs : HolderConsistent w s)
    (h0 : s.commands.toList = []) (sub : Subsystem) : s.currentCommand sub = none := by
  cases hsub : s.currentCommand sub with
  | none => rfl
  | some c => exact (List.not_mem_nil c (h0 ▸ PtrSet.mem_toList.2 (hs.running sub c hsub).1)).elim

section

variable {w : Registry} {h : Hooks}

/-- The loop of `RemoveAll` with fuel for every running command: one round per
command, in address order, each calling `Removed` on its command once. -/
theorem removeAllLoop_spec {L : Bool} (hA : ∀ st d, ∀ a ∈ h.removed st d, a.Allowed L) :
    ∀ (k : Nat) (u : State), u.commands.size ≤ k → HolderConsistent w u → u.additionsLocked = L →
      ∃ t, removeAllLoop (remove w h) k u = .ok t ∧ t.commands.toList = [] ∧
        (∀ sub, t.currentCommand sub = none) ∧ t.log = u.log ++ u.commands.toList.map Event.removed
  | 0, u, hk, hs, _ => by
    have h0 : u.commands.toList = [] := List.length_eq_zero.1 (Nat.le_zero.1 hk)
    exact ⟨u, by simp [removeAllLoop, h0], h0, hs.free_of_empty h0, by simp [h0]⟩
  | k + 1, u, hk, hs, hl => by
    unfold removeAllLoop
    split
    · rename_i h0
      exact ⟨u, rfl, h0, hs.free_of_empty h0, by simp [h0]⟩
    · rename_i c rest hcr
      have hc : c ∈ u.commands := PtrSet.mem_toList.1 (hcr ▸ List.mem_cons_self c rest)
      have hrest : (u.commands.erase c).toList = rest := by simp [PtrSet.erase, hcr]
      have hk' : rest.length ≤ k := by simp only [PtrSet.size, hcr, List.length_cons] at hk; omega
      have hA' : ∀ st d, ∀ a ∈ h.removed st d, a.Allowed u.additionsLocked := by rw [hl]; exact hA
      rw [remove_of_mem_allowed hA' hc, ok_bind]
      generalize enqueue u.additions (h.removed (eraseCommand w c u) c) = q
      have hs' : HolderConsistent w { eraseCommand w c u with additions := q } :=
        (hs.erase hc).congr rfl rfl
      obtain ⟨t, ht, h0, hfree, hlog⟩ := removeAllLoop_spec hA k _
        (by simpa [PtrSet.size, hrest] using hk') hs' (by simpa using hl)
      exact ⟨t, ht, h0, hfree, by simp [hlog, hrest, hcr]⟩

/-- **`RemoveAll` empties the scheduler.** From a holder-consistent state, with
`Removed` hooks whose user code calls only `Cancel`, and `AddCommand` while
`m_additionsMutex` is free, `RemoveAll` returns after one round per running
command: it has called `Removed` exactly once on each command that was
running, in address order, and left nothing running and every subsystem
free. The mutex is free at every call of `RemoveAll` when `Removed` hooks call
only `AddCommand` and `Cancel`, since the additions drain, the one phase that
holds it, runs no other user code; there the hypothesis on the hooks is just
that. -/
theorem removeAll_spec {s : State} (hs : HolderConsistent w s)
    (hA : ∀ st d, ∀ a ∈ h.removed st d, a.Allowed s.additionsLocked) :
    ∃ t, removeAll w h s = .ok t ∧ t.commands.toList = [] ∧ (∀ sub, t.currentCommand sub = none) ∧
      t.log = s.log ++ s.commands.toList.map Event.removed :=
  removeAllLoop_spec hA _ s (Nat.le_refl _) hs rfl

/-- Every command's `Removed` hook queues it to start again. -/
def requeueingHooks : Hooks := { quietHooks with removed := fun _ c => [.addCommand (some c)] }

theorem removeAll_spec_pair :
    HolderConsistent pairRegistry pairState ∧
      (∀ st d, ∀ a ∈ requeueingHooks.removed st d, a.Allowed pairState.additionsLocked) ∧
      ∃ t, removeAll pairRegistry requeueingHooks pairState = .ok t ∧ t.commands.toList = [] ∧
        (∀ sub, t.currentCommand sub = none) ∧ t.log = pairState.log ++ [.removed 3, .removed 4] :=
  have hA : ∀ st d, ∀ a ∈ requeueingHooks.removed st d, a.Allowed pairState.additionsLocked :=
    fun _ _ a ha => by
      rw [List.mem_singleton.1 ha]
      exact ⟨trivial, fun _ => rfl⟩
  ⟨pairState_consistent, hA, removeAll_spec pairState_consistent hA⟩

end

end Wpilib.Commands
