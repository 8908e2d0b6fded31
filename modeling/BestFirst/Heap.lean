namespace BestFirst

structure Heap (β : Type) where
  entries : Array β := #[]

namespace Heap

variable {β : Type} {n : Nat} (before : β → β → Bool)

def size (h : Heap β) : Nat :=
  h.entries.size

def min? (h : Heap β) : Option β :=
  h.entries[0]?

def climb (v : Vector β n) (i : Nat) (hi : i < n) : Vector β n :=
  if h : i = 0 then
    v
  else if before v[i] v[(i - 1) / 2] then
    climb (v.swap i ((i - 1) / 2)) ((i - 1) / 2) (by omega)
  else
    v
termination_by i

def nextChild (v : Vector β n) (i : Nat) (h : 2 * i + 1 < n) : { c : Nat // i < c ∧ c < n } :=
  if hr : 2 * i + 2 < n then
    if before v[2 * i + 1] v[2 * i + 2] then ⟨2 * i + 1, by omega⟩ else ⟨2 * i + 2, by omega⟩
  else
    ⟨2 * i + 1, by omega⟩

-- The entry at `i` goes all the way down and climbs from there to its place. It mostly comes from
-- the end of the array, so that place is mostly near the bottom.
def sink (v : Vector β n) (i : Nat) (hi : i < n) : Vector β n :=
  if h : 2 * i + 1 < n then
    let c := nextChild before v i h
    sink (v.swap i c.val hi c.property.right) c.val c.property.right
  else
    climb before v i hi
termination_by n - i
decreasing_by have := (nextChild before v i h).property; omega

def push (h : Heap β) (x : β) : Heap β where
  entries := (climb before (h.entries.push x).toVector h.entries.size (by simp)).toArray

def popMin (h : Heap β) : Heap β where
  entries :=
    let rest := (h.entries.swapIfInBounds 0 (h.entries.size - 1)).pop
    if hr : 0 < rest.size then (sink before rest.toVector 0 hr).toArray else rest

theorem climb_perm (v : Vector β n) (i : Nat) (hi : i < n) : (climb before v i hi).Perm v := by
  fun_induction climb before v i hi
  case case1        => exact .refl _
  case case2 hi' ih => exact ih.trans (Vector.swap_perm ..)
  case case3        => exact .refl _

theorem sink_perm (v : Vector β n) (i : Nat) (hi : i < n) : (sink before v i hi).Perm v := by
  fun_induction sink before v i hi
  case case1 ih => exact ih.trans (Vector.swap_perm ..)
  case case2    => exact climb_perm ..

theorem push_perm (h : Heap β) (x : β) :
    (h.push before x).entries.toList.Perm (x :: h.entries.toList) := by
  have hv := (climb_perm before (h.entries.push x).toVector h.entries.size (by simp)).toArray
  exact (Array.perm_iff_toList_perm.mp hv).trans (by simp [List.perm_append_singleton])

theorem popMin_perm {h : Heap β} {x : β} (hx : h.min? = some x) :
    h.entries.toList.Perm (x :: (h.popMin before).entries.toList) := by
  obtain ⟨h0, rfl⟩ := Array.getElem?_eq_some_iff.mp hx
  have hl : h.entries.size - 1 < h.entries.size := by omega
  let swapped := h.entries.swap 0 (h.entries.size - 1)
  have hrest : (h.popMin before).entries.toList.Perm swapped.pop.toList := by
    have hs : h.entries.swapIfInBounds 0 (h.entries.size - 1) = swapped := by
      simp only [swapped, Array.swapIfInBounds_def, h0, hl, dite_true]
    rw [← hs]
    simp only [popMin]
    split
    · exact Array.perm_iff_toList_perm.mp (sink_perm before _ 0 _).toArray
    · exact .refl _
  have hlast : swapped.toList = swapped.pop.toList ++ [h.entries[0]] := by
    have hne : swapped.toList ≠ [] := List.ne_nil_of_length_pos (by simpa [swapped] using h0)
    have hl : swapped.toList.getLast hne = h.entries[0] := by
      simp [swapped, List.getLast_eq_getElem]
    rw [Array.toList_pop, ← hl, List.dropLast_concat_getLast]
  refine (Array.perm_iff_toList_perm.mp (Array.swap_perm h0 hl)).symm.trans ?_
  exact hlast ▸ (List.perm_append_singleton ..).trans (hrest.symm.cons _)

@[simp]
theorem size_push (h : Heap β) (x : β) : (h.push before x).size = h.size + 1 := by
  simp [push, size]

@[simp]
theorem size_popMin (h : Heap β) : (h.popMin before).size = h.size - 1 := by
  simp only [popMin, size]
  split <;> simp

theorem size_pos_of_min? {h : Heap β} {x : β} (hx : h.min? = some x) : 0 < h.size :=
  (Array.getElem?_eq_some_iff.mp hx).choose

end Heap
end BestFirst
