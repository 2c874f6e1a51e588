-- Queues: what came first is taken first.

namespace TabledRules

/-- `front` has the next items, the next one first, and `back` those after them, the
last one first. -/
structure Queue (α : Type) where
  front : List α := []
  back : List α := []
deriving Inhabited

namespace Queue

variable {α : Type}

/-- The items, the next one first. -/
def toList (q : Queue α) : List α := q.front ++ q.back.reverse

def push (q : Queue α) (a : α) : Queue α := { q with back := a :: q.back }

def pop? (q : Queue α) : Option (α × Queue α) :=
  match q.front with
  | a :: front => some (a, { q with front })
  | [] =>
    match q.back.reverse with
    | a :: front => some (a, { front })
    | [] => none

theorem toList_push (q : Queue α) (a : α) : (q.push a).toList = q.toList ++ [a] := by
  simp [push, toList]

theorem toList_of_pop? {q r : Queue α} {a : α} (h : q.pop? = some (a, r)) :
    q.toList = a :: r.toList := by
  unfold pop? at h
  split at h
  · next hf =>
    obtain ⟨rfl, rfl⟩ := by simpa using h
    simp [toList, hf]
  · next hf =>
    split at h
    · next hb =>
      obtain ⟨rfl, rfl⟩ := by simpa using h
      simp [toList, hf, hb]
    · simp at h

theorem pop?_eq_none (q : Queue α) : q.pop? = none ↔ q.toList = [] := by
  unfold pop? toList
  split
  · next hf => simp [hf]
  · next hf => split <;> simp_all

end Queue

end TabledRules
