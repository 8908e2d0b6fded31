import BestFirst.Failure
import BestFirst.Heap
import BestFirst.Store.Record
import Std.Data.HashMap

namespace BestFirst

open Std (HashMap)

variable {α : Type}

structure Entry (α : Type) where
  rank  : α
  index : Nat

def Entry.before [LE α] [DecidableLE α] (x y : Entry α) : Bool :=
  x.rank ≤ y.rank ∧ (y.rank ≤ x.rank → x.index < y.index)

structure Store (α : Type) where
  arena  : Arena α := ∅
  opened : HashMap NodeIndex Nat := ∅
  closed : HashMap NodeIndex Nat := ∅
  queue  : Heap (Entry α) := {}

namespace Store

def openAt? (s : Store α) (node : NodeIndex) : Option Nat :=
  s.opened[node]?

def closedAt? (s : Store α) (node : NodeIndex) : Option Nat :=
  s.closed[node]?

def record? (s : Store α) (i : Nat) : Option (Record α) :=
  s.arena.get? i

def openRecord? (s : Store α) (i : Nat) : Option (Record α) :=
  (s.record? i).filter (s.openAt? ·.node = some i)

def close (s : Store α) (i : Nat) : Except Failure (Store α) :=
  match s.openRecord? i with
  | none   => .error .notOpen
  | some r => .ok { s with opened := s.opened.erase r.node, closed := s.closed.insert r.node i }

theorem openRecord?_eq_some_iff {s : Store α} {i : Nat} {r : Record α} :
    s.openRecord? i = some r ↔ s.record? i = some r ∧ s.openAt? r.node = some i := by
  simp [openRecord?, Option.filter_eq_some_iff]

section Making

variable [Add α] [LE α] [DecidableLE α]

-- A new record is the open record of its node, in place of any other record that it was known by.
def add (s : Store α) (r : Record α) (hr : ∀ {p : Nat}, r.parent = some p → p < s.arena.size) :
    Store α where
  arena  := s.arena.push r hr
  opened := s.opened.insert r.node s.arena.size
  closed := s.closed.erase r.node
  queue  := s.queue.push Entry.before ⟨r.rank, s.arena.size⟩

def openRoot [Zero α] (s : Store α) (node : NodeIndex) (h : α) : Store α :=
  s.add { node, via := none, parent := none, g := 0, h } (by simp)

def openFrom (s : Store α) (parent : Int) (node : NodeIndex) (via : Option EdgeIndex) (g h : α) :
    Except Failure (Store α) :=
  if hp : 0 ≤ parent ∧ parent.toNat < s.arena.size then
    .ok (s.add { node, via, parent := some parent.toNat, g, h } (by simp [hp.right]))
  else
    .error (.noSuchParent parent)

theorem openAt?_add (s : Store α) (r : Record α) (hr) (node : NodeIndex) :
    (s.add r hr).openAt? node = if r.node = node then some s.arena.size else s.openAt? node := by
  simp [add, openAt?, HashMap.getElem?_insert]

theorem closedAt?_add (s : Store α) (r : Record α) (hr) (node : NodeIndex) :
    (s.add r hr).closedAt? node = if r.node = node then none else s.closedAt? node := by
  simp [add, closedAt?, HashMap.getElem?_erase]

theorem record?_add (s : Store α) (r : Record α) (hr) (i : Nat) :
    (s.add r hr).record? i = if i = s.arena.size then some r else s.record? i :=
  s.arena.get?_push r hr i

end Making

section Selecting

variable [LE α] [DecidableLE α]

-- The first entry of the queue that still stands for an open record, and the queue from there on.
def firstOpen (s : Store α) (queue : Heap (Entry α)) : Option (Nat × Record α) × Heap (Entry α) :=
  match hx : queue.min? with
  | none   => (none, queue)
  | some x =>
    match s.openRecord? x.index with
    | some r => (some (x.index, r), queue)
    | none   =>
      have := Heap.size_pos_of_min? hx
      s.firstOpen (queue.popMin Entry.before)
termination_by queue.size
decreasing_by simp; omega

-- The best open record with its index. It stays open; only the queue may get shorter.
def best (s : Store α) : Option (Nat × Record α) × Store α :=
  let (best?, queue) := s.firstOpen s.queue
  (best?, { s with queue })

@[simp]
theorem best_openAt? (s : Store α) (node : NodeIndex) : s.best.2.openAt? node = s.openAt? node := rfl

@[simp]
theorem best_closedAt? (s : Store α) (node : NodeIndex) :
    s.best.2.closedAt? node = s.closedAt? node := rfl

@[simp]
theorem best_record? (s : Store α) (i : Nat) : s.best.2.record? i = s.record? i := rfl

end Selecting

section Steps

inductive Step (α : Type)
  | clear
  | openRoot (node : NodeIndex) (h : α)
  | openFrom (parent : Int) (node : NodeIndex) (via : Option EdgeIndex) (g h : α)
  | openAt (node : NodeIndex)
  | closedAt (node : NodeIndex)
  | best
  | close (i : Nat)

inductive Answer
  | done
  | made (i : Nat)
  | found (i? : Option Nat)
  | failed (cause : Failure)
  deriving DecidableEq

variable [Zero α] [Add α] [LE α] [DecidableLE α]

def apply (s : Store α) : Step α → Answer × Store α
  | .clear           => (.done, {})
  | .openRoot node h => (.made s.arena.size, s.openRoot node h)
  | .openFrom parent node via g h =>
    match s.openFrom parent node via g h with
    | .ok s'        => (.made s.arena.size, s')
    | .error cause  => (.failed cause, s)
  | .openAt node     => (.found (s.openAt? node), s)
  | .closedAt node   => (.found (s.closedAt? node), s)
  | .best            => (.found (s.best.1.map (·.1)), s.best.2)
  | .close i =>
    match s.close i with
    | .ok s'       => (.done, s')
    | .error cause => (.failed cause, s)

end Steps
end Store
end BestFirst
