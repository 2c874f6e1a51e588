-- Things in the order in which they came, and by a number that each of them
-- has. Things that differ may share their number.
import Std.Data.TreeMap

namespace TabledRules

theorem getD_no_buckets {α : Type} (key : α → Nat) (k : Nat) :
    (∅ : Std.TreeMap Nat (List α)).getD k [] = (#[] : Array α).toList.filter (key · = k) := by
  simp

/-- The bucket of a number has the items with this number. -/
structure Index {α : Type} (key : α → Nat) where
  items : Array α := #[]
  buckets : Std.TreeMap Nat (List α) := ∅
  getD_buckets : ∀ k, buckets.getD k [] = items.toList.filter (key · = k) := by
    exact getD_no_buckets _

namespace Index

variable {α : Type} {key : α → Nat}

instance : Inhabited (Index key) := ⟨{}⟩

/-! ## What is in it -/

def size (s : Index key) : Nat := s.items.size

def toList (s : Index key) : List α := s.items.toList

/-- The item that came after `i` others. -/
def get? (s : Index key) (i : Nat) : Option α := s.items[i]?

/-- The items with a number, in order. -/
def bucket (s : Index key) (k : Nat) : List α := s.buckets.getD k []

def contains [DecidableEq α] (s : Index key) (a : α) : Bool := decide (a ∈ s.bucket (key a))

theorem bucket_eq (s : Index key) (k : Nat) : s.bucket k = s.toList.filter (key · = k) :=
  s.getD_buckets k

theorem contains_iff [DecidableEq α] (s : Index key) (a : α) :
    s.contains a = true ↔ a ∈ s.toList := by
  simp [contains, bucket_eq]

/-! ## Building one -/

def push (s : Index key) (a : α) : Index key where
  items := s.items.push a
  buckets := s.buckets.insert (key a) (s.buckets.getD (key a) [] ++ [a])
  getD_buckets k := by
    rw [Std.TreeMap.getD_insert, Array.toList_push, List.filter_append, ← s.getD_buckets]
    split
    · next h => simp [Std.LawfulEqCmp.eq_of_compare h]
    · next h =>
      have : key a ≠ k := fun e => h (by simp [e])
      simp [this]

def ofList (as : List α) : Index key := as.foldl push {}

theorem toList_push (s : Index key) (a : α) : (s.push a).toList = s.toList ++ [a] := by
  simp [push, toList]

theorem toList_foldl_push (as : List α) (s : Index key) :
    (as.foldl push s).toList = s.toList ++ as := by
  induction as generalizing s with
  | nil => simp
  | cons a as ih => simp [ih, toList_push]

theorem toList_ofList (as : List α) : (ofList as : Index key).toList = as := by
  rw [ofList, toList_foldl_push]
  rfl

end Index

end TabledRules
