import Mathlib.Data.List.Sort

/-!
# Commands — pointer sets

The scheduler keeps its running commands and its registered subsystems in a
`std::set<T*>`, and a command's requirements are one too. Such a set orders its
elements by address, so iterating it visits the addresses in ascending order,
each once. `PtrSet` is that set: the ascending list of addresses, with the
ordering carried as a field so that no operation can build a set out of order.
-/

namespace Wpilib.Commands

/-- A `std::set<T*>`: the addresses in ascending order. Iterating the set is
walking `toList`. -/
structure PtrSet where
  toList : List Nat
  sorted : toList.Sorted (· < ·)

namespace PtrSet

instance : Membership Nat PtrSet := ⟨fun s a => a ∈ s.toList⟩

instance (a : Nat) (s : PtrSet) : Decidable (a ∈ s) :=
  inferInstanceAs (Decidable (a ∈ s.toList))

theorem mem_def {a : Nat} {s : PtrSet} : a ∈ s ↔ a ∈ s.toList := Iff.rfl

@[simp] theorem mem_toList {a : Nat} {s : PtrSet} : a ∈ s.toList ↔ a ∈ s := Iff.rfl

theorem nodup (s : PtrSet) : s.toList.Nodup := s.sorted.nodup

theorem ext {s t : PtrSet} (h : s.toList = t.toList) : s = t := by
  cases s; cases t; cases h; rfl

/-- Two sets with the same elements are the same set: each is its elements in
address order. -/
theorem ext_mem {s t : PtrSet} (h : ∀ a, a ∈ s ↔ a ∈ t) : s = t :=
  ext (List.eq_of_perm_of_sorted ((List.perm_ext_iff_of_nodup s.nodup t.nodup).2 h) s.sorted t.sorted)

/-- The empty set. -/
def empty : PtrSet := ⟨[], List.sorted_nil⟩

@[simp] theorem not_mem_empty (a : Nat) : a ∉ empty := List.not_mem_nil a

/-- `size()`. -/
def size (s : PtrSet) : Nat := s.toList.length

/-- `insert(a)`: nothing changes when `a` is present; otherwise `a` goes to
its place in address order. -/
def insert (s : PtrSet) (a : Nat) : PtrSet :=
  if h : a ∈ s.toList then s
  else ⟨s.toList.orderedInsert (· ≤ ·) a,
    List.Sorted.lt_of_le (s.sorted.le_of_lt.orderedInsert a _)
      ((List.perm_orderedInsert _ a _).nodup_iff.2 (List.nodup_cons.2 ⟨h, s.nodup⟩))⟩

@[simp] theorem mem_insert {a b : Nat} {s : PtrSet} : b ∈ s.insert a ↔ b = a ∨ b ∈ s := by
  unfold insert
  split
  · rename_i h
    exact ⟨Or.inr, fun hb => hb.elim (fun e => e ▸ h) id⟩
  · exact List.mem_orderedInsert _

/-- `erase(a)`. -/
def erase (s : PtrSet) (a : Nat) : PtrSet := ⟨s.toList.erase a, s.sorted.erase a⟩

@[simp] theorem mem_erase {a b : Nat} {s : PtrSet} : b ∈ s.erase a ↔ b ≠ a ∧ b ∈ s :=
  s.nodup.mem_erase_iff

theorem size_erase {a : Nat} {s : PtrSet} (h : a ∈ s) : (s.erase a).size = s.size - 1 :=
  List.length_erase_of_mem h

/-- Where `++it` lands from an iterator at `a`: the first element past `a`, or
the end. -/
def next (s : PtrSet) (a : Nat) : Option Nat := s.toList.find? (a < ·)

/-- `++it` from an element of the set lands on the element after it. -/
theorem next_eq_head {s : PtrSet} {pre post : List Nat} {a : Nat}
    (h : s.toList = pre ++ a :: post) : s.next a = post.head? := by
  have hs := s.sorted
  rw [h, List.Sorted, List.pairwise_append] at hs
  obtain ⟨-, hpost, hlt⟩ := hs
  have hpre : pre.find? (a < ·) = none :=
    List.find?_eq_none.2 fun x hx => by simpa using (hlt x hx a (List.mem_cons_self _ _)).le
  rw [next, h, List.find?_append, hpre, Option.none_or, List.find?_cons_of_neg _ (by simp)]
  cases post with
  | nil => rfl
  | cons y post =>
    exact List.find?_cons_of_pos _
      (by simpa using List.rel_of_pairwise_cons hpost (List.mem_cons_self y post))

theorem erase_toList_of_eq {s : PtrSet} {pre post : List Nat} {a : Nat}
    (h : s.toList = pre ++ a :: post) : (s.erase a).toList = pre ++ post := by
  have hs := s.sorted
  rw [h, List.Sorted, List.pairwise_append] at hs
  have ha : a ∉ pre := fun ha => lt_irrefl a (hs.2.2 a ha a (List.mem_cons_self _ _))
  simp [erase, h, List.erase_append_right _ ha]

end PtrSet

end Wpilib.Commands
