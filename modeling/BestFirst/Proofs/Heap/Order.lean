import BestFirst.Heap

namespace BestFirst.Heap

variable {β : Type} {n : Nat} {before : β → β → Bool} {sound : β → Prop}

-- What an order must satisfy, where sound entries are concerned. Entries that are not sound may be
-- incomparable with everything, and nothing can be said of a heap that holds one.
structure Lawful (before : β → β → Bool) (sound : β → Prop) : Prop where
  asymm {x y : β}   : before x y → before y x = false
  trans {x y z : β} :
    sound x → sound y → sound z → before y x = false → before z y = false → before z x = false

theorem Lawful.irrefl (hl : Lawful before sound) {x : β} : before x x = false :=
  Bool.eq_false_iff.mpr fun hb => by simpa [hb] using hl.asymm hb

theorem parent_lt {i n : Nat} (hi : i < n) : (i - 1) / 2 < n := by
  omega

def Ordered (before : β → β → Bool) (v : Vector β n) : Prop :=
  ∀ (i : Nat) (hi : i < n), 0 < i → before v[i] (getElem v ((i - 1) / 2) (parent_lt hi)) = false

-- The entry at `k` may be anything. The children of `k` do not go before the parent of `k`.
structure OrderedExcept (before : β → β → Bool) (v : Vector β n) (k : Nat) (hk : k < n) : Prop where
  other  (i : Nat) (hi : i < n) :
    0 < i → i ≠ k → (i - 1) / 2 ≠ k → before v[i] v[(i - 1) / 2] = false
  across (i : Nat) (hi : i < n) :
    0 < i → 0 < k → (i - 1) / 2 = k → before v[i] v[(k - 1) / 2] = false

def Below (before : β → β → Bool) (v : Vector β n) (k : Nat) (hk : k < n) : Prop :=
  ∀ (i : Nat) (hi : i < n), 0 < i → (i - 1) / 2 = k → before v[i] v[k] = false

theorem Ordered.of_below {v : Vector β n} {k : Nat} {hk : k < n} (he : OrderedExcept before v k hk)
    (hb : Below before v k hk)
    (ha : 0 < k → before v[k] (getElem v ((k - 1) / 2) (parent_lt hk)) = false) :
    Ordered before v := by
  intro i hi hp
  by_cases h : i = k
  case pos => subst h; exact ha hp
  case neg =>
    by_cases h' : (i - 1) / 2 = k
    case pos => simpa only [h'] using hb i hi hp h'
    case neg => exact he.other i hi hp h h'

section Moving

variable {v : Vector β n} {i : Nat} {hi : i < n}

theorem OrderedExcept.climb (hl : Lawful before sound) (hs : ∀ x ∈ v, sound x) (h0 : i ≠ 0)
    (he : OrderedExcept before v i hi)
    (hb : before v[i] (getElem v ((i - 1) / 2) (parent_lt hi))) :
    OrderedExcept before (v.swap i ((i - 1) / 2) hi (parent_lt hi)) ((i - 1) / 2) (parent_lt hi) where
  other j hj hp hn hn' := by
    have hji : j ≠ i := fun h => hn' (h ▸ rfl)
    rw [Vector.getElem_swap_of_ne hji hn]
    by_cases h : (j - 1) / 2 = i
    case pos => simpa only [h, Vector.getElem_swap_left] using he.across j hj hp (by omega) h
    case neg =>
      rw [Vector.getElem_swap_of_ne h hn']
      exact he.other j hj hp hji h
  across j hj hp hk h := by
    have hup := he.other ((i - 1) / 2) (by omega) hk (by omega) (by omega)
    rw [Vector.getElem_swap_of_ne (k := ((i - 1) / 2 - 1) / 2) (by omega) (by omega)]
    by_cases hji : j = i
    case pos => subst hji; simpa only [Vector.getElem_swap_left] using hup
    case neg =>
      rw [Vector.getElem_swap_of_ne hji (by omega)]
      have hdown := he.other j hj hp hji (by omega)
      simp only [h] at hdown
      exact hl.trans (hs _ (by simp)) (hs _ (by simp)) (hs _ (by simp)) hup hdown

theorem Below.climb (hl : Lawful before sound) (hs : ∀ x ∈ v, sound x) (h0 : i ≠ 0)
    (he : OrderedExcept before v i hi)
    (hb : before v[i] (getElem v ((i - 1) / 2) (parent_lt hi))) :
    Below before (v.swap i ((i - 1) / 2) hi (parent_lt hi)) ((i - 1) / 2) (parent_lt hi) := by
  intro j hj hp h
  rw [Vector.getElem_swap_right]
  by_cases hji : j = i
  case pos => subst hji; simpa only [Vector.getElem_swap_left] using hl.asymm hb
  case neg =>
    rw [Vector.getElem_swap_of_ne hji (by omega)]
    have hdown := he.other j hj hp hji (by omega)
    simp only [h] at hdown
    exact hl.trans (hs _ (by simp)) (hs _ (by simp)) (hs _ (by simp)) (hl.asymm hb) hdown

theorem climb_ordered (hl : Lawful before sound) (hs : ∀ x ∈ v, sound x)
    (he : OrderedExcept before v i hi) (hb : Below before v i hi) :
    Ordered before (climb before v i hi) := by
  fun_induction Heap.climb before v i hi
  case case1 => exact .of_below he hb (by omega)
  case case2 v i hi h0 h ih =>
    refine ih (fun x hx => hs x ?_) (he.climb hl hs h0 h) (.climb hl hs h0 he h)
    exact (Vector.swap_perm ..).mem_iff.mp hx
  case case3 h => exact .of_below he hb fun _ => by simpa using h

theorem nextChild_first (hl : Lawful before sound) {c : Nat} {h : 2 * i + 1 < n} (hc : c < n)
    (he : (nextChild before v i h).val = c) :
    (c - 1) / 2 = i ∧
      ∀ (j : Nat) (hj : j < n), 0 < j → (j - 1) / 2 = i → j ≠ c → before v[j] v[c] = false := by
  unfold nextChild at he
  split at he
  case isTrue hr =>
    split at he
    case isTrue hb =>
      obtain rfl : 2 * i + 1 = c := he
      refine ⟨by omega, fun j hj hp hji hn => ?_⟩
      obtain rfl : j = 2 * i + 2 := by omega
      exact hl.asymm hb
    case isFalse hb =>
      obtain rfl : 2 * i + 2 = c := he
      refine ⟨by omega, fun j hj hp hji hn => ?_⟩
      obtain rfl : j = 2 * i + 1 := by omega
      simpa using hb
  case isFalse hr =>
    obtain rfl : 2 * i + 1 = c := he
    exact ⟨by omega, fun j hj hp hji hn => by omega⟩

theorem OrderedExcept.sink {c : Nat} {hc : c < n} (he : OrderedExcept before v i hi)
    (hci : (c - 1) / 2 = i) (hic : i < c)
    (hf : ∀ (j : Nat) (hj : j < n), 0 < j → (j - 1) / 2 = i → j ≠ c → before v[j] v[c] = false) :
    OrderedExcept before (v.swap i c) c hc where
  other j hj hp hn hn' := by
    by_cases hji : j = i
    case pos =>
      subst hji
      rw [Vector.getElem_swap_left, Vector.getElem_swap_of_ne (by omega) hn']
      simpa only [hci] using he.across c hc (by omega) hp hci
    case neg =>
      rw [Vector.getElem_swap_of_ne hji hn]
      by_cases h : (j - 1) / 2 = i
      case pos => simpa only [h, Vector.getElem_swap_left] using hf j hj hp h hn
      case neg =>
        rw [Vector.getElem_swap_of_ne h hn']
        exact he.other j hj hp hji h
  across j hj hp _ h := by
    rw [Vector.getElem_swap_of_ne (by omega) (by omega)]
    simpa only [h, hci, Vector.getElem_swap_left] using he.other j hj hp (by omega) (by omega)

theorem sink_ordered (hl : Lawful before sound) (hs : ∀ x ∈ v, sound x)
    (he : OrderedExcept before v i hi) : Ordered before (sink before v i hi) := by
  fun_induction Heap.sink before v i hi
  case case1 v i hi h c ih =>
    obtain ⟨hci, hf⟩ := nextChild_first hl c.property.right rfl
    refine ih (fun x hx => hs x ?_) (he.sink hci c.property.left hf)
    exact (Vector.swap_perm ..).mem_iff.mp hx
  case case2 h => exact climb_ordered hl hs he fun j hj hp hji => by omega

end Moving

def Sorted (before : β → β → Bool) (h : Heap β) : Prop :=
  ∀ (i : Nat) (hi : i < h.entries.size), 0 < i →
    before h.entries[i] h.entries[(i - 1) / 2] = false

variable {h : Heap β} {x y : β}

theorem Ordered.sorted {v : Vector β n} (ho : Ordered before v) : Sorted before ⟨v.toArray⟩ :=
  fun i hi hp => by simpa using ho i (by simpa using hi) hp

theorem mem_push : y ∈ (h.push before x).entries ↔ y = x ∨ y ∈ h.entries := by
  simpa using (h.push_perm before x).mem_iff

theorem mem_popMin (hx : h.min? = some x) :
    y ∈ h.entries ↔ y = x ∨ y ∈ (h.popMin before).entries := by
  simpa using (popMin_perm before hx).mem_iff

theorem sorted_empty : Sorted before {} :=
  fun i hi => by simp at hi

theorem Sorted.push (hl : Lawful before sound) (hs : ∀ y ∈ h.entries, sound y) (hx : sound x)
    (ho : h.Sorted before) : (h.push before x).Sorted before := by
  refine Ordered.sorted (climb_ordered hl ?sound ?except ?below)
  case sound =>
    intro y hy
    simp only [Array.toVector, Vector.mem_mk, Array.mem_push] at hy
    obtain hy | rfl := hy
    · exact hs y hy
    · exact hx
  case except =>
    -- Only the last entry is new, and it has no children.
    constructor <;> intro i hi hp <;> intros <;> simp at hi
    case other => simpa [Array.getElem_push, show i < h.entries.size by omega,
        show (i - 1) / 2 < h.entries.size by omega] using ho i (by omega) hp
    case across => omega
  case below =>
    intro i hi hp h
    simp at hi
    omega

theorem OrderedExcept.rest (ho : h.Sorted before)
    (hr : 0 < (h.entries.swapIfInBounds 0 (h.entries.size - 1)).pop.size) :
    OrderedExcept before (h.entries.swapIfInBounds 0 (h.entries.size - 1)).pop.toVector 0 hr where
  other i hi hp hn hn' := by
    simp only [Array.size_pop, Array.size_swapIfInBounds] at hi
    simpa [Array.getElem_swapIfInBounds_of_ne_of_ne, hn, hn', show i ≠ h.entries.size - 1 by omega,
      show (i - 1) / 2 ≠ h.entries.size - 1 by omega] using ho i (by omega) hp
  across i hi hp hk := absurd hk (by omega)

theorem mem_of_mem_rest {i j : Nat} (hx : x ∈ (h.entries.swapIfInBounds i j).pop) :
    x ∈ h.entries := by
  obtain ⟨k, hk, rfl⟩ := Array.mem_iff_getElem.mp hx
  simp only [Array.getElem_pop, Array.getElem_swapIfInBounds]
  split <;> try split
  all_goals exact Array.getElem_mem _

theorem Sorted.popMin (hl : Lawful before sound) (hs : ∀ y ∈ h.entries, sound y)
    (ho : h.Sorted before) : (h.popMin before).Sorted before := by
  simp only [Heap.popMin]
  split
  case isTrue hr =>
    refine Ordered.sorted (sink_ordered hl (fun y hy => ?_) (.rest ho hr))
    exact hs y (mem_of_mem_rest (by simpa [Array.toVector] using hy))
  case isFalse hr =>
    intro i hi
    exact absurd hi (by simp at hr ⊢; omega)

theorem Sorted.min? (hl : Lawful before sound) (hs : ∀ y ∈ h.entries, sound y)
    (ho : h.Sorted before) (hx : h.min? = some x) (hy : y ∈ h.entries) : before y x = false := by
  obtain ⟨h0, rfl⟩ := Array.getElem?_eq_some_iff.mp hx
  obtain ⟨i, hi, rfl⟩ := Array.mem_iff_getElem.mp hy
  clear hx hy
  induction i using Nat.strongRecOn
  case ind i ih =>
    by_cases hi0 : i = 0
    case pos =>
      subst hi0
      exact hl.irrefl
    case neg =>
      have hup := ih ((i - 1) / 2) (by omega) (by omega)
      have hdown := ho i hi (by omega)
      exact hl.trans (hs _ (by simp)) (hs _ (by simp)) (hs _ (by simp)) hup hdown

end BestFirst.Heap
