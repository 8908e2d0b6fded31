import BestFirst.Network.Rows
import Mathlib.Algebra.BigOperators.Group.List.Basic

namespace BestFirst.Rows

variable {n r r' k k' : Nat} {es xs ys done rest : List Entry} {e : Entry} {f : Filling}

def inRow (es : List Entry) (r : Nat) : List Nat :=
  (es.filter (·.row = r)).map (·.item)

-- How many items are in the rows before row `r`, which is where row `r` is to start.
def offset (es : List Entry) (r : Nat) : Nat :=
  ((List.range r).flatMap (inRow es)).length

theorem inRow_append : inRow (xs ++ ys) r = inRow xs r ++ inRow ys r := by
  simp [inRow]

theorem inRow_cons_self : inRow (e :: es) e.row = e.item :: inRow es e.row := by
  simp [inRow]

theorem inRow_cons_ne (h : e.row ≠ r) : inRow (e :: es) r = inRow es r := by
  simp [inRow, h]

theorem inRow_concat_self : inRow (es ++ [e]) e.row = inRow es e.row ++ [e.item] := by
  simp [inRow]

theorem inRow_concat_ne (h : e.row ≠ r) : inRow (es ++ [e]) r = inRow es r := by
  simp [inRow, h]

theorem offset_succ : offset es (r + 1) = offset es r + (inRow es r).length := by
  simp [offset, List.range_succ]

theorem offset_mono (h : r ≤ r') : offset es r ≤ offset es r' := by
  induction h
  case refl      => exact Nat.le_refl _
  case step _ ih => rw [Nat.succ_eq_add_one, offset_succ]; omega

theorem offset_add_lt (hk : k < (inRow es r).length) (h : r < r') :
    offset es r + k < offset es r' := by
  have hr : offset es (r + 1) ≤ offset es r' := offset_mono h
  rw [offset_succ] at hr
  omega

theorem offset_add_inj (hk : k < (inRow es r).length) (hk' : k' < (inRow es r').length)
    (h : offset es r + k = offset es r' + k') : r = r' ∧ k = k' := by
  obtain hr | rfl | hr := Nat.lt_trichotomy r r'
  · have := offset_add_lt hk hr
    omega
  · exact ⟨rfl, by omega⟩
  · have := offset_add_lt hk' hr
    omega

section Counting

theorem getElem?_foldl_count {counts : Array Nat} :
    (es.foldl count counts)[r]? = counts[r]?.map (· + (inRow es r).length) := by
  induction es generalizing counts
  case nil => simp [inRow]
  case cons e es ih =>
    rw [List.foldl_cons, ih, count, Array.getElem?_modify]
    by_cases h : e.row = r
    case pos =>
      subst h
      rw [if_pos rfl, inRow_cons_self, Option.map_map]
      congr 1
      funext m
      simp only [Function.comp_apply, List.length_cons]
      omega
    case neg => rw [if_neg h, inRow_cons_ne h]

theorem sizes_toList : (sizes n es).toList = (List.range n).map fun r => (inRow es r).length := by
  refine List.ext_getElem? fun r => ?_
  by_cases hr : r < n <;> simp [sizes, getElem?_foldl_count, hr]

theorem starts_toList : (starts n es).toList = (List.range (n + 1)).map (offset es) := by
  refine List.ext_getElem? fun r => ?_
  rw [starts, List.toList_toArray, List.getElem?_scanl, sizes_toList]
  by_cases hr : r ≤ n
  case pos =>
    have hr' : r < n + 1 := Nat.lt_succ_of_le hr
    simp [hr, hr', ← List.sum_eq_foldl, ← List.map_take, List.take_range, offset, List.length_flatMap]
  case neg =>
    have hr' : ¬r < n + 1 := fun h => hr (Nat.le_of_lt_succ h)
    simp [hr, hr']

theorem getElem?_starts (h : r ≤ n) : (starts n es)[r]? = some (offset es r) := by
  have hr : r < n + 1 := Nat.lt_succ_of_le h
  rw [← Array.getElem?_toList, starts_toList]
  simp [hr]

end Counting

section Placing

-- Of all entries, those that are `done` are where they belong.
structure Placed (n : Nat) (es done : List Entry) (f : Filling) : Prop where
  size : f.items.size = offset es n
  next {r : Nat} : r < n → f.next[r]? = some (offset es r + (inRow done r).length)
  items {r k : Nat} :
    r < n → k < (inRow done r).length → f.items[offset es r + k]? = (inRow done r)[k]?

theorem placed_empty : Placed n es [] (.empty n es) where
  size       := by simp [Filling.empty, Array.getD_eq_getD_getElem?, getElem?_starts]
  next hr    := by simpa [Filling.empty, inRow] using getElem?_starts (Nat.le_of_lt hr)
  items _ hk := by simp [inRow] at hk

theorem length_inRow_lt (h : es = done ++ e :: rest) :
    (inRow done e.row).length < (inRow es e.row).length := by
  simp [h, inRow_append, inRow_cons_self]

theorem length_inRow_le (h : es = done ++ rest) : (inRow done r).length ≤ (inRow es r).length := by
  simp [h, inRow_append]

theorem Placed.place_eq (hp : Placed n es done f) (he : e.row < n) :
    f.place e = ⟨f.next.modify e.row (· + 1),
      f.items.setIfInBounds (offset es e.row + (inRow done e.row).length) e.item⟩ := by
  rw [Filling.place, Array.getD_eq_getD_getElem?, hp.next he, Option.getD_some]

theorem offset_add_ne (h : es = done ++ e :: rest) (hk : k < (inRow done r).length) :
    offset es e.row + (inRow done e.row).length ≠ offset es r + k := by
  intro heq
  have hk' : k < (inRow es r).length := Nat.lt_of_lt_of_le hk (length_inRow_le h)
  obtain ⟨rfl, rfl⟩ := offset_add_inj (length_inRow_lt h) hk' heq
  exact Nat.lt_irrefl _ hk

theorem Placed.place (hp : Placed n es done f) (h : es = done ++ e :: rest) (he : e.row < n) :
    Placed n es (done ++ [e]) (f.place e) := by
  rw [hp.place_eq he]
  constructor
  case size => simpa using hp.size
  case next =>
    intro r hr
    rw [Array.getElem?_modify, hp.next hr]
    by_cases her : e.row = r
    case pos =>
      subst her
      rw [if_pos rfl, inRow_concat_self, List.length_append]
      rfl
    case neg => rw [if_neg her, inRow_concat_ne her]
  case items =>
    intro r k hr hk
    rw [Array.getElem?_setIfInBounds]
    by_cases hnew : e.row = r ∧ k = (inRow done r).length
    case pos =>
      obtain ⟨rfl, rfl⟩ := hnew
      have hlt : offset es e.row + (inRow done e.row).length < f.items.size :=
        hp.size ▸ offset_add_lt (length_inRow_lt h) he
      rw [if_pos rfl, if_pos hlt, inRow_concat_self, List.getElem?_concat_length]
    case neg =>
      have hk' : k < (inRow done r).length := by
        by_cases her : e.row = r
        case pos =>
          subst her
          rw [inRow_concat_self, List.length_append, List.length_singleton] at hk
          exact Nat.lt_of_le_of_ne (Nat.le_of_lt_succ hk) fun hk => hnew ⟨rfl, hk⟩
        case neg => rwa [inRow_concat_ne her] at hk
      rw [if_neg (offset_add_ne h hk'), hp.items hr hk', inRow_append, List.getElem?_append_left hk']

theorem Placed.foldl (hp : Placed n (done ++ rest) done f) (he : ∀ e ∈ rest, e.row < n) :
    Placed n (done ++ rest) (done ++ rest) (rest.foldl Filling.place f) := by
  induction rest generalizing done f
  case nil => simpa using hp
  case cons e rest ih =>
    have hp' := hp.place rfl (he e List.mem_cons_self)
    rw [List.append_cons] at hp' ⊢
    exact ih hp' fun e h => he e (List.mem_cons_of_mem _ h)

end Placing

section Rows

theorem offsets_toList : (ofEntries n es).offsets.toList = (List.range (n + 1)).map (offset es) :=
  starts_toList

theorem size_offsets : (ofEntries n es).offsets.size = n + 1 := by
  rw [← Array.length_toList, offsets_toList, List.length_map, List.length_range]

theorem offsets_nondecreasing : (ofEntries n es).offsets.toList.Pairwise (· ≤ ·) := by
  rw [offsets_toList, List.pairwise_map]
  exact List.pairwise_le_range.imp offset_mono

variable (he : ∀ e ∈ es, e.row < n)
include he

theorem placed_ofEntries : Placed n es es (es.foldl Filling.place (.empty n es)) := by
  have hp : Placed n ([] ++ es) [] (.empty n es) := placed_empty
  exact hp.foldl he

theorem offsets_back : (ofEntries n es).offsets.back? = some (ofEntries n es).items.size := by
  rw [Array.back?_eq_getElem?, size_offsets, ofEntries, (placed_ofEntries he).size]
  exact getElem?_starts (Nat.le_refl n)

theorem row_ofEntries (hr : r < n) : (ofEntries n es).row r = inRow es r := by
  have hp := placed_ofEntries he
  have hend : offset es (r + 1) ≤ offset es n := offset_mono hr
  rw [offset_succ] at hend
  refine List.ext_getElem? fun k => ?_
  simp only [row, ofEntries, Array.getD_eq_getD_getElem?, getElem?_starts (Nat.le_of_lt hr),
    getElem?_starts (Nat.succ_le_of_lt hr), Option.getD_some, Array.getElem?_toList,
    Array.getElem?_extract, hp.size, offset_succ]
  split
  case isTrue hk  => exact hp.items hr (by omega)
  case isFalse hk => exact (List.getElem?_eq_none (by omega)).symm

theorem items_toList : (ofEntries n es).items.toList = (List.range n).flatMap (inRow es) := by
  have hrows : ∀ m ≤ n, ((ofEntries n es).items.extract 0 (offset es m)).toList =
      (List.range m).flatMap (inRow es) := by
    intro m hm
    induction m
    case zero => simp [offset]
    case succ r ih =>
      have hrow := row_ofEntries he hm
      simp only [row, ofEntries, Array.getD_eq_getD_getElem?, getElem?_starts (Nat.le_of_lt hm),
        getElem?_starts hm, Option.getD_some] at hrow
      have hle : offset es r ≤ offset es (r + 1) := offset_mono (Nat.le_succ r)
      have hsplit := @Array.extract_append_extract _ (ofEntries n es).items 0 (offset es r)
        (offset es (r + 1))
      rw [Nat.zero_min, Nat.max_eq_right hle] at hsplit
      rw [← hsplit, Array.toList_append, ih (Nat.le_of_lt hm), List.range_succ, List.flatMap_append,
        List.flatMap_singleton]
      exact congrArg _ hrow
  have hsize : (ofEntries n es).items.size = offset es n := (placed_ofEntries he).size
  rw [← hrows n (Nat.le_refl n), ← hsize, Array.extract_size]

end Rows
end BestFirst.Rows
