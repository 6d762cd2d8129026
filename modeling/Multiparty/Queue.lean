/-!
# First-in first-out queues

A queue keeps its oldest items in front and its newest ones in reverse at the back, so that both
ends are cheap. Its meaning is the list `Queue.toList`, oldest item first.

## Main results

* `Queue.toList_enqueue`, `Queue.toList_appendList`, `Queue.exists_dequeue?`: the operations on
  the list.
-/

namespace Multiparty

/-- A queue of items. -/
structure Queue (α : Type) where
  /-- The oldest items, oldest first. -/
  front : List α
  /-- The newest items, newest first. -/
  back : List α

namespace Queue

variable {α : Type}

/-- The items, oldest first. -/
def toList (q : Queue α) : List α := q.front ++ q.back.reverse

/-- The queue without items. -/
def empty : Queue α := ⟨[], []⟩

/-- Whether there are no items. -/
def isEmpty (q : Queue α) : Bool := q.front.isEmpty && q.back.isEmpty

/-- Number of items. -/
def length (q : Queue α) : Nat := q.front.length + q.back.length

/-- The queue with one more item at its end. -/
def enqueue (q : Queue α) (x : α) : Queue α := ⟨q.front, x :: q.back⟩

/-- The queue with the items of a list at its end. -/
def appendList (q : Queue α) (xs : List α) : Queue α :=
  if q.isEmpty then ⟨xs, []⟩ else ⟨q.front, xs.reverse ++ q.back⟩

/-- The oldest item and the queue without it. -/
def dequeue? (q : Queue α) : Option (α × Queue α) :=
  match q.front with
  | x :: front => some (x, ⟨front, q.back⟩)
  | [] =>
    match q.back.reverse with
    | x :: front => some (x, ⟨front, []⟩)
    | [] => none

@[simp] theorem toList_empty : (empty : Queue α).toList = [] := rfl

@[simp] theorem toList_enqueue (q : Queue α) (x : α) : (q.enqueue x).toList = q.toList ++ [x] := by
  simp [enqueue, toList]

@[simp] theorem length_toList (q : Queue α) : q.toList.length = q.length := by
  simp [toList, length]

@[simp] theorem length_enqueue (q : Queue α) (x : α) : (q.enqueue x).length = q.length + 1 := by
  rw [← length_toList, toList_enqueue, List.length_append, length_toList]
  rfl

theorem isEmpty_iff (q : Queue α) : q.isEmpty = true ↔ q.toList = [] := by
  simp [isEmpty, toList]

@[simp] theorem toList_appendList (q : Queue α) (xs : List α) :
    (q.appendList xs).toList = q.toList ++ xs := by
  rw [appendList]
  split
  · next h =>
    rw [(isEmpty_iff q).1 h]
    simp [toList]
  · simp [toList]

/-- Taking the oldest item takes the head of the list. -/
theorem toList_dequeue? (q : Queue α) :
    q.dequeue?.map (fun r => (r.1, r.2.toList)) = q.toList.head?.map (·, q.toList.tail) := by
  obtain ⟨front, back⟩ := q
  cases front with
  | cons x front => simp [dequeue?, toList]
  | nil =>
    cases h : back.reverse with
    | nil => simp [dequeue?, toList, h]
    | cons x front => simp [dequeue?, toList, h]

/-- From a queue with items the oldest one is taken. -/
theorem exists_dequeue? {q : Queue α} {x : α} {xs : List α} (h : q.toList = x :: xs) :
    ∃ q', q.dequeue? = some (x, q') ∧ q'.toList = xs := by
  have hmap := toList_dequeue? q
  rw [h] at hmap
  cases hq : q.dequeue? with
  | none =>
    rw [hq] at hmap
    cases hmap
  | some r =>
    rw [hq] at hmap
    obtain ⟨hx, hxs⟩ := Prod.mk.inj (Option.some.inj hmap)
    exact ⟨r.2, by rw [← hx], hxs⟩

/-- What is taken from a queue was its oldest item. -/
theorem toList_of_dequeue? {q q' : Queue α} {x : α} (h : q.dequeue? = some (x, q')) :
    q.toList = x :: q'.toList := by
  cases hq : q.toList with
  | nil =>
    have hmap := toList_dequeue? q
    rw [h, hq] at hmap
    cases hmap
  | cons y ys =>
    obtain ⟨q'', htaken, hrest⟩ := exists_dequeue? hq
    rw [htaken] at h
    obtain ⟨rfl, rfl⟩ := Prod.mk.inj (Option.some.inj h)
    rw [hrest]

theorem length_of_dequeue? {q q' : Queue α} {x : α} (h : q.dequeue? = some (x, q')) :
    q.length = q'.length + 1 := by
  rw [← length_toList, toList_of_dequeue? h, List.length_cons, length_toList]

theorem dequeue?_eq_none_iff (q : Queue α) : q.dequeue? = none ↔ q.toList = [] := by
  obtain ⟨front, back⟩ := q
  cases front with
  | cons x front => simp [dequeue?, toList]
  | nil =>
    cases h : back.reverse with
    | nil => simp [dequeue?, toList, h]
    | cons x front => simp [dequeue?, toList, h]

end Queue

end Multiparty
