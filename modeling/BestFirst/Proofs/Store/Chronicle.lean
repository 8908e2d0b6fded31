import BestFirst.Proofs.Store.Ledger
import BestFirst.Proofs.Store.Nodes

namespace BestFirst

variable {α : Type}

namespace Store

variable [Zero α]

def Step.made? : Step α → Option (Record α)
  | openRoot node h               => some { node, via := none, parent := none, g := 0, h }
  | openFrom parent node via g h  => some { node, via, parent := some parent.toNat, g, h }
  | _                             => none

section Calls

variable [Add α] [LE α] [DecidableLE α] {s s' : Store α} {i : Nat} {parent : Int}
  (node : NodeIndex) (via : Option EdgeIndex) (g h : α)

theorem apply_openFrom (hp : 0 ≤ parent ∧ parent.toNat < s.arena.size) :
    ∃ hr, s.apply (.openFrom parent node via g h) =
      (.made s.arena.size, s.add { node, via, parent := some parent.toNat, g, h } hr) :=
  ⟨by simp [hp.right], by simp only [apply, openFrom, dif_pos hp]⟩

theorem apply_openFrom_of_not (hp : ¬(0 ≤ parent ∧ parent.toNat < s.arena.size)) :
    s.apply (.openFrom parent node via g h) = (.failed (.noSuchParent parent), s) := by
  simp only [apply, openFrom, dif_neg hp]

theorem apply_close (hc : s.close i = .ok s') : s.apply (.close i) = (.done, s') := by
  simp only [apply, hc]

theorem apply_close_of_not (hi : ¬∃ r, s.IsOpen i r) : s.apply (.close i) = (.failed .notOpen, s) := by
  have hn : s.openRecord? i = none :=
    Option.eq_none_iff_forall_ne_some.mpr fun r hr => hi ⟨r, openRecord?_iff_isOpen.mp hr⟩
  simp only [apply, close, hn]

end Calls
end Store

structure Chronicle (α : Type) where
  made   : List (Record α) := []
  closed : List Nat := []

namespace Chronicle

def newest? (rs : List (Record α)) (u : NodeIndex) : Option Nat :=
  (rs.zipIdx.filter (·.1.node = u)).getLast?.map (·.2)

def IsNewest (c : Chronicle α) (i : Nat) : Prop :=
  ∃ r ∈ c.made[i]?, newest? c.made r.node = some i

instance (c : Chronicle α) (i : Nat) : Decidable (c.IsNewest i) :=
  inferInstanceAs (Decidable (∃ r ∈ c.made[i]?, newest? c.made r.node = some i))

-- Why a call is turned down, if it is. Nothing is closed twice, and nothing but the newest record of a node.
def refusal? (c : Chronicle α) : Store.Step α → Option Failure
  | .openFrom parent .. =>
    if 0 ≤ parent ∧ parent.toNat < c.made.length then none else some (.noSuchParent parent)
  | .close i            => if c.IsNewest i ∧ i ∉ c.closed then none else some .notOpen
  | _                   => none

section Entering

variable [Zero α]

def enter (c : Chronicle α) : Store.Step α → Chronicle α
  | .clear   => {}
  | .close i => { c with closed := c.closed ++ [i] }
  | x        => x.made?.elim c fun r => { c with made := c.made ++ [r] }

def apply (c : Chronicle α) (x : Store.Step α) : Chronicle α :=
  if (c.refusal? x).isSome then c else c.enter x

def ofSteps (xs : List (Store.Step α)) : Chronicle α :=
  xs.foldl apply {}

end Entering

section Newest

variable {rs : List (Record α)} {r : Record α} {u : NodeIndex} {i : Nat}

theorem newest?_concat :
    newest? (rs ++ [r]) u = if r.node = u then some rs.length else newest? rs u := by
  by_cases hn : r.node = u
  case pos => simp [newest?, List.zipIdx_append, hn]
  case neg => simp [newest?, List.zipIdx_append, hn]

theorem newest?_eq_some_iff : newest? rs u = some i ↔
    (∃ r, rs[i]? = some r ∧ r.node = u) ∧ ∀ j r, rs[j]? = some r → r.node = u → j ≤ i := by
  induction rs using List.reverseRecOn
  case nil => simp [newest?]
  case append_singleton rs r ih =>
    rw [newest?_concat]
    split
    case isTrue hn  => grind
    case isFalse hn => grind

theorem newest?_eq_none_iff : newest? rs u = none ↔ ∀ r ∈ rs, r.node ≠ u := by
  induction rs using List.reverseRecOn
  case nil => simp [newest?]
  case append_singleton rs r ih =>
    rw [newest?_concat]
    split
    case isTrue hn  => simp [hn]
    case isFalse hn => simp [ih, or_imp, forall_and, hn]

end Newest

structure Tells (c : Chronicle α) (s : Store α) : Prop where
  made      : s.arena.records.toList = c.made
  opened u  : s.openAt? u = (newest? c.made u).filter (· ∉ c.closed)
  closed u  : s.closedAt? u = (newest? c.made u).filter (· ∈ c.closed)
  known {i} : i ∈ c.closed → i < c.made.length

theorem tells_empty : Tells ({} : Chronicle α) {} where
  made     := rfl
  opened _ := by simp [Store.openAt?, newest?]
  closed _ := by simp [Store.closedAt?, newest?]
  known    := nofun

namespace Tells

variable {c : Chronicle α} {s s' : Store α} {r : Record α} {i : Nat} {u : NodeIndex}

theorem record? (h : c.Tells s) (i : Nat) : s.record? i = c.made[i]? := by
  rw [← h.made, Array.getElem?_toList]
  rfl

theorem size (h : c.Tells s) : s.arena.size = c.made.length := by
  rw [← h.made, Array.length_toList]
  rfl

theorem isOpen_iff (h : c.Tells s) :
    s.IsOpen i r ↔ c.made[i]? = some r ∧ newest? c.made r.node = some i ∧ i ∉ c.closed where
  mp hr := by
    have ho := hr.opened
    rw [h.opened, Option.filter_eq_some_iff, decide_eq_true_eq] at ho
    exact ⟨h.record? i ▸ hr.record, ho⟩
  mpr hr := by
    refine ⟨h.record? i ▸ hr.left, ?_⟩
    rw [h.opened, Option.filter_eq_some_iff, decide_eq_true_eq]
    exact hr.right

theorem exists_isOpen_iff (h : c.Tells s) : (∃ r, s.IsOpen i r) ↔ c.IsNewest i ∧ i ∉ c.closed := by
  simp only [h.isOpen_iff, IsNewest, Option.mem_def, exists_and_right, ← and_assoc]

theorem present (h : c.Tells s) (hi : newest? c.made u = some i) :
    i ∉ c.closed ∧ s.openAt? u = some i ∧ s.closedAt? u = none ∨
      i ∈ c.closed ∧ s.openAt? u = none ∧ s.closedAt? u = some i := by
  rw [h.opened, h.closed, hi]
  by_cases hc : i ∈ c.closed
  case pos => exact .inr ⟨hc, by simp [hc], by simp [hc]⟩
  case neg => exact .inl ⟨hc, by simp [hc], by simp [hc]⟩

theorem absent (h : c.Tells s) (hu : newest? c.made u = none) :
    s.openAt? u = none ∧ s.closedAt? u = none := by
  rw [h.opened, h.closed, hu]
  exact ⟨rfl, rfl⟩

theorem sizes (h : c.Tells s) :
    s.opened.size + s.closed.size = (c.made.map (·.node)).toFinset.card := by
  have hd : Disjoint s.openNodes s.closedNodes := by
    refine Finset.disjoint_left.mpr fun u ho hc => ?_
    rw [Store.mem_openNodes] at ho
    rw [Store.mem_closedNodes] at hc
    cases hu : newest? c.made u
    case none   => simp [h.absent hu] at ho
    case some i =>
      cases h.present hu
      case inl h => simp [h] at hc
      case inr h => simp [h] at ho
  have hu : s.openNodes ∪ s.closedNodes = (c.made.map (·.node)).toFinset := by
    ext u
    rw [Finset.mem_union, Store.mem_openNodes, Store.mem_closedNodes, List.mem_toFinset, List.mem_map]
    cases hu : newest? c.made u
    case none =>
      have hn := newest?_eq_none_iff.mp hu
      simpa [h.absent hu] using hn
    case some i =>
      have ⟨⟨r, hr, hn⟩, _⟩ := newest?_eq_some_iff.mp hu
      have hp : (s.openAt? u).isSome ∨ (s.closedAt? u).isSome := by
        cases h.present hu
        case inl h => simp [h]
        case inr h => simp [h]
      exact iff_of_true hp ⟨r, List.mem_of_getElem? hr, hn⟩
  rw [← hu, Finset.card_union_of_disjoint hd, Store.card_openNodes, Store.card_closedNodes]

theorem close (h : c.Tells s) (hc : s.close i = .ok s') :
    Tells ⟨c.made, c.closed ++ [i]⟩ s' := by
  have ⟨r, hr, hs⟩ := Store.close_eq_ok_iff.mp hc
  have ⟨hm, hi, _⟩ := h.isOpen_iff.mp hr
  -- Record `i` is the last one of its own node and of no other.
  have hne {u j} (hu : r.node ≠ u) (hj : newest? c.made u = some j) : j ≠ i := by
    rintro rfl
    have ⟨⟨t, ht, htu⟩, _⟩ := newest?_eq_some_iff.mp hj
    cases Option.some.inj (hm.symm.trans ht)
    exact hu htu
  constructor
  case made  => exact (congrArg (·.arena.records.toList) hs).trans h.made
  case known =>
    intro j hj
    cases List.mem_append.mp hj
    case inl hj => exact h.known hj
    case inr hj => exact List.mem_singleton.mp hj ▸ (List.getElem?_eq_some_iff.mp hm).choose
  case opened =>
    intro u
    rw [Store.close_openAt? hc hr, h.opened]
    split
    case isTrue hu  => simp [← hu, hi, Option.filter_some]
    case isFalse hu =>
      cases hj : newest? c.made u
      case none   => rfl
      case some j => simp [Option.filter_some, hne hu hj]
  case closed =>
    intro u
    rw [Store.close_closedAt? hc hr, h.closed]
    split
    case isTrue hu  => simp [← hu, hi, Option.filter_some]
    case isFalse hu =>
      cases hj : newest? c.made u
      case none   => rfl
      case some j => simp [Option.filter_some, hne hu hj]

section Calls

variable [LE α] [DecidableLE α]

theorem best (h : c.Tells s) : c.Tells s.best.2 :=
  ⟨h.made, h.opened, h.closed, h.known⟩

variable [Add α]

theorem add (h : c.Tells s) (hr : ∀ {p : Nat}, r.parent = some p → p < s.arena.size) :
    Tells ⟨c.made ++ [r], c.closed⟩ (s.add r hr) := by
  have hnew : c.made.length ∉ c.closed := fun hc => Nat.lt_irrefl _ (h.known hc)
  constructor
  case made  => simp [Store.add, Arena.push, h.made]
  case known => exact fun hi => Nat.lt_of_lt_of_le (h.known hi) (by simp)
  case opened =>
    intro u
    rw [Store.openAt?_add, newest?_concat, h.size, h.opened]
    split
    case isTrue  => simp [Option.filter_some, hnew]
    case isFalse => rfl
  case closed =>
    intro u
    rw [Store.closedAt?_add, newest?_concat, h.closed]
    split
    case isTrue  => simp [Option.filter_some, hnew]
    case isFalse => rfl

variable [Zero α] {x : Store.Step α} {cause : Failure}

theorem refused (h : c.Tells s) (hx : c.refusal? x = some cause) : s.apply x = (.failed cause, s) := by
  cases x <;> simp only [refusal?, reduceCtorEq] at hx
  case openFrom =>
    split at hx
    case isTrue     => contradiction
    case isFalse hp =>
      cases Option.some.inj hx
      exact Store.apply_openFrom_of_not _ _ _ _ (h.size ▸ hp)
  case close =>
    split at hx
    case isTrue     => contradiction
    case isFalse hi =>
      cases Option.some.inj hx
      exact Store.apply_close_of_not (h.exists_isOpen_iff.not.mpr hi)

-- Any other call does not fail, and a record that it makes gets the next number.
theorem accepted (h : c.Tells s) (hx : c.refusal? x = none) :
    (∀ cause, (s.apply x).1 ≠ .failed cause) ∧ (c.enter x).Tells (s.apply x).2 ∧
      ∀ r, x.made? = some r → (s.apply x).1 = .made c.made.length := by
  cases x <;> simp only [refusal?, ite_eq_left_iff, reduceCtorEq, imp_false, not_not] at hx
  case clear    => exact ⟨nofun, tells_empty, nofun⟩
  case openRoot => exact ⟨nofun, h.add (by simp), fun _ _ => congrArg _ h.size⟩
  case openFrom parent node via g y =>
    have ⟨hr, ha⟩ := Store.apply_openFrom node via g y (h.size ▸ hx)
    rw [ha]
    exact ⟨nofun, h.add hr, fun _ _ => congrArg _ h.size⟩
  case openAt   => exact ⟨nofun, h, nofun⟩
  case closedAt => exact ⟨nofun, h, nofun⟩
  case best     => exact ⟨nofun, h.best, nofun⟩
  case close =>
    have ⟨r, hr⟩ := h.exists_isOpen_iff.mpr hx
    have hc := Store.close_eq_ok_iff.mpr ⟨r, hr, rfl⟩
    rw [Store.apply_close hc]
    exact ⟨nofun, h.close hc, nofun⟩

theorem apply (h : c.Tells s) : (c.apply x).Tells (s.apply x).2 := by
  cases hx : c.refusal? x
  case none       => simpa [Chronicle.apply, hx] using (h.accepted hx).right.left
  case some cause => simpa [Chronicle.apply, hx, h.refused hx] using h

theorem failed_iff (h : c.Tells s) :
    (s.apply x).1 = .failed cause ↔ c.refusal? x = some cause := by
  cases hx : c.refusal? x
  case none => simpa using (h.accepted hx).left cause
  case some => simp [h.refused hx]

end Calls
end Tells

section Growing

variable [Zero α] {c : Chronicle α} {xs ys : List (Store.Step α)} {x : Store.Step α}

theorem made_enter (hx : x ≠ .clear) : c.made <+: (c.enter x).made := by
  cases x
  case clear    => contradiction
  case openRoot => exact List.prefix_append ..
  case openFrom => exact List.prefix_append ..
  all_goals exact List.prefix_rfl

theorem made_apply (hx : x ≠ .clear) : c.made <+: (c.apply x).made := by
  rw [apply]
  split
  case isTrue  => exact List.prefix_rfl
  case isFalse => exact made_enter hx

theorem made_foldl (h : .clear ∉ xs) : c.made <+: (xs.foldl apply c).made := by
  induction xs generalizing c
  case nil          => exact List.prefix_rfl
  case cons x xs ih =>
    rw [List.mem_cons, not_or] at h
    exact (made_apply (Ne.symm h.left)).trans (ih h.right)

theorem ofSteps_append : ofSteps (xs ++ ys) = ys.foldl apply (ofSteps xs) :=
  List.foldl_append

end Growing
end Chronicle

namespace Store

variable [Zero α] [Add α] [LE α] [DecidableLE α] {s : Store α}

theorem tells_after (xs : List (Step α)) : (Chronicle.ofSteps xs).Tells (after {} xs) := by
  induction xs using List.reverseRecOn
  case nil => exact Chronicle.tells_empty
  case append_singleton xs x ih =>
    rw [after_append, Chronicle.ofSteps_append]
    exact ih.apply

theorem chronicled (xs : List (Step α)) :
    let s := after {} xs
    let c := Chronicle.ofSteps xs
    (∀ i, s.record? i = c.made[i]?) ∧
    (∀ i r, s.record? i = some r → r.rank = r.g + r.h ∧ ∀ p, r.parent = some p → p < i) ∧
    (∀ x ∈ s.queue.entries, ∃ r, s.record? x.index = some r ∧ x.rank = r.g + r.h) ∧
    (∀ r ∈ c.made, ∃ i t, Chronicle.newest? c.made r.node = some i ∧
      s.record? i = some t ∧ t.node = r.node ∧
      (i ∉ c.closed ∧ s.openAt? r.node = some i ∧ s.closedAt? r.node = none ∨
        i ∈ c.closed ∧ s.openAt? r.node = none ∧ s.closedAt? r.node = some i)) ∧
    (∀ u, (∀ r ∈ c.made, r.node ≠ u) → s.openAt? u = none ∧ s.closedAt? u = none) ∧
    s.opened.size + s.closed.size = (c.made.map (·.node)).toFinset.card ∧
    (∀ x, (∀ cause, (s.apply x).1 = .failed cause ↔ c.refusal? x = some cause) ∧
      (∀ cause, (s.apply x).1 = .failed cause → (s.apply x).2 = s) ∧
      ∀ r, x.made? = some r → c.refusal? x = none → (s.apply x).1 = .made c.made.length) ∧
    ∀ ys, .clear ∉ ys → c.made <+: (Chronicle.ofSteps (xs ++ ys)).made := by
  intro s c
  have h : c.Tells s := tells_after xs
  have hs : s.Intact := intact_empty.after xs
  refine ⟨h.record?, fun i r hr => ⟨rfl, fun p => s.arena.parent_lt hr⟩, ?queue, ?present, ?absent,
    h.sizes, fun x => ⟨fun cause => h.failed_iff, ?failed, ?made⟩, ?later⟩
  case queue =>
    intro x hx
    have ⟨r, hr, hx⟩ := hs.entry hx
    exact ⟨r, hr, hx.symm⟩
  case present =>
    intro r hr
    have hn : Chronicle.newest? c.made r.node ≠ none :=
      fun hn => Chronicle.newest?_eq_none_iff.mp hn r hr rfl
    have ⟨i, hi⟩ := Option.ne_none_iff_exists'.mp hn
    have ⟨⟨t, ht, htn⟩, _⟩ := Chronicle.newest?_eq_some_iff.mp hi
    exact ⟨i, t, hi, (h.record? i).trans ht, htn, h.present hi⟩
  case absent => exact fun u hu => h.absent (Chronicle.newest?_eq_none_iff.mpr hu)
  case failed =>
    intro cause hx
    rw [h.refused (h.failed_iff.mp hx)]
  case made => exact fun r hr hx => (h.accepted hx).right.right r hr
  case later =>
    intro ys hy
    rw [Chronicle.ofSteps_append]
    exact Chronicle.made_foldl hy

end Store
end BestFirst
