-- Sets of ids that know in which order the ids came.
import Std.Data.TreeSet

namespace TabledRules

theorem mem_no_members (i : Nat) : i ∈ (∅ : Std.TreeSet Nat) ↔ i ∈ ([] : List Nat) := by simp

/-- `ids` has the last id first, and `members` has the same ids. -/
structure IdSet where
  ids : List Nat := []
  members : Std.TreeSet Nat := ∅
  mem_members : ∀ i, i ∈ members ↔ i ∈ ids := by exact mem_no_members

namespace IdSet

instance : Inhabited IdSet := ⟨{}⟩

def insert (s : IdSet) (i : Nat) : IdSet where
  ids := i :: s.ids
  members := s.members.insert i
  mem_members j := by
    rw [Std.TreeSet.mem_insert, Std.LawfulEqCmp.compare_eq_iff_eq, List.mem_cons, s.mem_members,
      eq_comm]

def size (s : IdSet) : Nat := s.members.size

def contains (s : IdSet) (i : Nat) : Bool := s.members.contains i

/-- The ids, the first that came first. -/
def toList (s : IdSet) : List Nat := s.ids.reverse

theorem contains_iff (s : IdSet) (i : Nat) : s.contains i = true ↔ i ∈ s.toList := by
  rw [contains, Std.TreeSet.contains_iff_mem, s.mem_members, toList, List.mem_reverse]

theorem toList_insert (s : IdSet) (i : Nat) : (s.insert i).toList = s.toList ++ [i] := by
  simp [insert, toList]

end IdSet

end TabledRules
