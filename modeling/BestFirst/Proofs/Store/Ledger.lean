import BestFirst.Proofs.Store.Consistency
import Mathlib

namespace BestFirst

open Std (HashMap)

variable {α : Type}

structure Ledger (α : Type) where
  arena  : Arena α := ∅
  opened : HashMap NodeIndex Nat := ∅
  closed : HashMap NodeIndex Nat := ∅

structure Sizes where
  opened    : Nat
  noneOpen  : Bool
  closed    : Nat
  records   : Nat
  deriving DecidableEq

-- What is answered to a history of calls, each answer with the sizes after it. `apply` says what is
-- answered to one call, and what becomes of the state.
def answers {σ : Type} (apply : σ → Store.Step α → Store.Answer × σ) (sizes : σ → Sizes) :
    σ → List (Store.Step α) → List (Store.Answer × Sizes)
  | _, []      => []
  | s, x :: xs => ((apply s x).1, sizes (apply s x).2) :: answers apply sizes (apply s x).2 xs

namespace Ledger

def sizes (l : Ledger α) : Sizes where
  opened   := l.opened.size
  noneOpen := l.opened.isEmpty
  closed   := l.closed.size
  records  := l.arena.size

def close (l : Ledger α) (i : Nat) : Store.Answer × Ledger α :=
  match l.arena.get? i with
  | none   => (.failed .notOpen, l)
  | some r =>
    if l.opened[r.node]? = some i then
      (.done, { l with opened := l.opened.erase r.node, closed := l.closed.insert r.node i })
    else
      (.failed .notOpen, l)

section Making

def make (l : Ledger α) (r : Record α) (hr : ∀ {p : Nat}, r.parent = some p → p < l.arena.size) :
    Store.Answer × Ledger α :=
  (.made l.arena.size, {
    arena  := l.arena.push r hr
    opened := l.opened.insert r.node l.arena.size
    closed := l.closed.erase r.node })

def openFrom (l : Ledger α) (parent : Int) (node : NodeIndex) (via : Option EdgeIndex) (g h : α) :
    Store.Answer × Ledger α :=
  if hp : 0 ≤ parent ∧ parent.toNat < l.arena.size then
    l.make { node, via, parent := some parent.toNat, g, h } (by simp [hp.right])
  else
    (.failed (.noSuchParent parent), l)

end Making

section Selecting

variable [Add α]

def openEntries (l : Ledger α) : List (Entry α) :=
  l.opened.toList.filterMap fun (_, i) => (l.arena.get? i).map fun r => ⟨r.rank, i⟩

variable [LE α] [DecidableLE α]

def first? : List (Entry α) → Option (Entry α)
  | []      => none
  | x :: xs =>
    match first? xs with
    | none   => some x
    | some y => if y.before x then some y else some x

def best? (l : Ledger α) : Option Nat :=
  (first? l.openEntries).map (·.index)

variable [Zero α]

def apply (l : Ledger α) : Store.Step α → Store.Answer × Ledger α
  | .clear                         => (.done, {})
  | .openRoot node h               => l.make { node, via := none, parent := none, g := 0, h } (by simp)
  | .openFrom parent node via g h  => l.openFrom parent node via g h
  | .openAt node                   => (.found l.opened[node]?, l)
  | .closedAt node                 => (.found l.closed[node]?, l)
  | .best                          => (.found l.best?, l)
  | .close i                       => l.close i

end Selecting

section First

variable [LE α] [DecidableLE α] {x y : Entry α} {xs : List (Entry α)}

theorem first?_eq_none_iff : first? xs = none ↔ xs = [] := by
  cases xs
  case nil => simp [first?]
  case cons x xs =>
    simp only [first?, reduceCtorEq, iff_false]
    split
    case h_1 => simp
    case h_2 => split <;> simp

theorem first?_eq_some [RankOrder α] (hs : ∀ x ∈ xs, x.Sound) (h : first? xs = some x) :
    x ∈ xs ∧ ∀ y ∈ xs, y.before x = false := by
  have hl := Entry.lawful_before (α := α)
  induction xs generalizing x
  case nil => contradiction
  case cons y ys ih =>
    have hys (z : Entry α) (hz : z ∈ ys) : z.Sound := hs z (List.mem_cons_of_mem y hz)
    simp only [first?] at h
    split at h
    case h_1 hn =>
      cases Option.some.inj h
      rw [first?_eq_none_iff.mp hn]
      simp [hl.irrefl]
    case h_2 z hz =>
      have ⟨hm, hf⟩ := ih hys hz
      split at h
      case isTrue hb =>
        cases Option.some.inj h
        refine ⟨List.mem_cons_of_mem y hm, fun w hw => ?_⟩
        obtain rfl | hw := List.mem_cons.mp hw
        · exact hl.asymm hb
        · exact hf w hw
      case isFalse hb =>
        cases Option.some.inj h
        refine ⟨List.mem_cons_self, fun w hw => ?_⟩
        obtain rfl | hw := List.mem_cons.mp hw
        · exact hl.irrefl
        · exact hl.trans (hs _ List.mem_cons_self) (hys z hm) (hys w hw) (by simpa using hb) (hf w hw)

end First
end Ledger

namespace Store

def sizes (s : Store α) : Sizes where
  opened   := s.opened.size
  noneOpen := s.opened.isEmpty
  closed   := s.closed.size
  records  := s.arena.size

-- What a store is when its queue is not counted in.
def ledger (s : Store α) : Ledger α where
  arena  := s.arena
  opened := s.opened
  closed := s.closed

variable {s s' : Store α} {i j : Nat} {r t : Record α} {x : Step α} {xs : List (Step α)}

theorem sizes_of_ledger (h : s.ledger = s'.ledger) : s.sizes = s'.sizes :=
  congrArg Ledger.sizes h

theorem Comparable.of_ledger [Add α] [LE α] (hc : s.Comparable) (h : s.ledger = s'.ledger) :
    s'.Comparable :=
  fun {i _} hr => hc ((congrArg (·.arena.get? i) h).trans hr)

theorem Intact.mem_openEntries [Add α] {x : Entry α} (hs : s.Intact) :
    x ∈ s.ledger.openEntries ↔ ∃ r, s.IsOpen x.index r ∧ r.rank = x.rank := by
  simp only [Ledger.openEntries, List.mem_filterMap, Prod.exists, Option.map_eq_some_iff,
    HashMap.mem_toList_iff_getElem?_eq_some]
  constructor
  case mp =>
    rintro ⟨u, i, hu, r, hr, rfl⟩
    have ⟨t, ht, _⟩ := hs.opened hu
    cases Option.some.inj (hr.symm.trans ht.record)
    exact ⟨r, ht, rfl⟩
  case mpr => exact fun ⟨r, hr, hx⟩ => ⟨r.node, x.index, hr.opened, r, hr.record, hx ▸ rfl⟩

variable [Add α] [LE α] [DecidableLE α]

theorem Intact.best_eq_none_iff (hs : s.Intact) : s.best.1 = none ↔ s.opened.isEmpty := by
  rw [HashMap.isEmpty_iff_forall_not_mem]
  constructor
  case mp =>
    intro h u hu
    have ⟨r, hr, _⟩ := hs.opened (HashMap.getElem?_eq_some_getElem hu)
    exact hs.not_isOpen_of_best h hr
  case mpr =>
    intro h
    cases hb : s.best.1
    case none => rfl
    case some x => exact absurd (HashMap.mem_iff_isSome_getElem?.mpr
      (Option.isSome_of_eq_some (isOpen_of_best hb).opened)) (h _)

theorem Consistent.best?_ledger [RankOrder α] (hs : s.Consistent) (hc : s.Comparable) :
    s.ledger.best? = s.best.1.map (·.1) := by
  have hm {x} := hs.toIntact.mem_openEntries (x := x)
  have hsound (x : Entry α) (hx : x ∈ s.ledger.openEntries) : x.Sound := by
    obtain ⟨r, hr, hx⟩ := hm.mp hx
    simpa only [Entry.Sound, hx] using hc hr.record
  rw [Ledger.best?]
  cases hf : Ledger.first? s.ledger.openEntries
  case none =>
    have hn : s.ledger.openEntries = [] := Ledger.first?_eq_none_iff.mp hf
    cases hb : s.best.1
    case none => rfl
    case some y =>
      have hy : Entry.mk y.2.rank y.1 ∈ s.ledger.openEntries := hm.mpr ⟨y.2, isOpen_of_best hb, rfl⟩
      simp [hn] at hy
  case some x =>
    obtain ⟨hx, hfirst⟩ := Ledger.first?_eq_some hsound hf
    obtain ⟨r, hr, hrank⟩ := hm.mp hx
    have hb : s.best.1 = some (x.index, r) := by
      refine hs.best_eq_some hc hr fun {j t} ht => ?_
      have hy : Entry.mk t.rank j ∈ s.ledger.openEntries := hm.mpr ⟨t, ht, rfl⟩
      have hle := (Entry.before_eq_false_iff (hsound x hx) (hsound _ hy)).mp (hfirst _ hy)
      exact hrank ▸ hle
    rw [hb]
    rfl

variable [Zero α]

def after (s : Store α) (xs : List (Step α)) : Store α :=
  xs.foldl (fun s x => (s.apply x).2) s

theorem ledger_apply [RankOrder α] (hs : s.Consistent) (hc : s.Comparable) :
    s.ledger.apply x = ((s.apply x).1, (s.apply x).2.ledger) := by
  cases x
  case clear    => rfl
  case openRoot => rfl
  case openFrom parent node via g h =>
    by_cases hp : 0 ≤ parent ∧ parent.toNat < s.arena.size
    case pos =>
      have hp' : 0 ≤ parent ∧ parent.toNat < s.ledger.arena.size := hp
      simp only [apply, openFrom, Ledger.apply, Ledger.openFrom, dif_pos hp, dif_pos hp']
      rfl
    case neg =>
      have hp' : ¬(0 ≤ parent ∧ parent.toNat < s.ledger.arena.size) := hp
      simp only [apply, openFrom, Ledger.apply, Ledger.openFrom, dif_neg hp, dif_neg hp']
  case openAt   => rfl
  case closedAt => rfl
  case best     => exact congrArg (fun i? => (Answer.found i?, s.ledger)) (hs.best?_ledger hc)
  case close i =>
    simp only [apply, close, openRecord?, Ledger.apply, Ledger.close, record?, ledger]
    cases s.arena.get? i
    case none => rfl
    case some r =>
      by_cases hi : s.opened[r.node]? = some i
      case pos => simp [Option.filter, openAt?, hi]
      case neg => simp [Option.filter, openAt?, hi]

theorem apply_induction {P : Store α → Prop} (h : P s) (empty : P {})
    (add : ∀ {s r} hr, P s → P (s.add r hr)) (best : ∀ {s}, P s → P s.best.2)
    (close : ∀ {s s' i}, P s → s.close i = .ok s' → P s') : P (s.apply x).2 := by
  cases x
  case clear    => exact empty
  case openRoot => exact add (by simp) h
  case openFrom parent node via g y =>
    by_cases hp : 0 ≤ parent ∧ parent.toNat < s.arena.size
    case pos => simpa only [apply, openFrom, dif_pos hp] using add (by simp [hp.right]) h
    case neg => simpa only [apply, openFrom, dif_neg hp] using h
  case openAt   => exact h
  case closedAt => exact h
  case best     => exact best h
  case close =>
    simp only [apply]
    split
    case h_1 hc => exact close h hc
    case h_2    => exact h

theorem Intact.apply (hs : s.Intact) : (s.apply x).2.Intact :=
  apply_induction hs intact_empty (fun hr hs => hs.add hr) .best .close

theorem Consistent.apply [RankOrder α] (hs : s.Consistent) : (s.apply x).2.Consistent :=
  apply_induction hs consistent_empty (fun hr hs => hs.add hr) .best .close

theorem after_append {done rest : List (Step α)} :
    s.after (done ++ rest) = (s.after done).after rest :=
  List.foldl_append

theorem Intact.after (hs : s.Intact) (xs : List (Step α)) : (s.after xs).Intact := by
  induction xs generalizing s
  case nil          => exact hs
  case cons x xs ih => exact ih hs.apply

theorem Consistent.after [RankOrder α] (hs : s.Consistent) : (s.after xs).Consistent := by
  induction xs generalizing s
  case nil          => exact hs
  case cons x xs ih => exact ih hs.apply

theorem Consistent.answers_ledger [RankOrder α] (hs : s.Consistent)
    (hc : ∀ done, done <+: xs → (s.after done).Comparable) :
    answers Store.apply Store.sizes s xs = answers Ledger.apply Ledger.sizes s.ledger xs := by
  induction xs generalizing s
  case nil => rfl
  case cons x xs ih =>
    have hx := ledger_apply (x := x) hs (hc [] List.nil_prefix)
    have hxs := ih hs.apply fun done h => hc (x :: done) (List.cons_prefix_cons.mpr ⟨rfl, h⟩)
    simp only [answers, hx, hxs]
    rfl

theorem Consistent.answers_eq [RankOrder α] (hs : s.Consistent) (hs' : s'.Consistent)
    (hl : s.ledger = s'.ledger) (hc : ∀ done, done <+: xs → (s.after done).Comparable) :
    answers Store.apply Store.sizes s xs = answers Store.apply Store.sizes s' xs := by
  induction xs generalizing s s'
  case nil => rfl
  case cons x xs ih =>
    have hc₀ : s.Comparable := hc [] List.nil_prefix
    have hx := ledger_apply (x := x) hs hc₀
    have hx' := ledger_apply (x := x) hs' (hc₀.of_ledger hl)
    have ⟨ha, hl⟩ := Prod.mk.inj (hx.symm.trans (hl ▸ hx'))
    have hxs := ih hs.apply hs'.apply hl
      fun done h => hc (x :: done) (List.cons_prefix_cons.mpr ⟨rfl, h⟩)
    simp only [answers, ha, hxs, sizes_of_ledger hl]

-- Of the queue, nothing shows. In particular the best record is found whenever there is an open one,
-- it is the earliest one of least rank, and looking for it makes no difference to what comes later.
theorem queue_invisible [RankOrder α]
    (hc : ∀ done, done <+: xs → (Store.after {} done).Comparable) :
    answers Store.apply Store.sizes {} xs = answers Ledger.apply Ledger.sizes {} xs ∧
    ∀ done rest s, xs = done ++ rest → s = Store.after {} done →
      (s.best.1 = none ↔ s.opened.isEmpty) ∧
      (∀ i r, s.best.1 = some (i, r) ↔
        s.IsOpen i r ∧ ∀ j t, s.IsOpen j t → r.rank ≤ t.rank ∧ (t.rank ≤ r.rank → i ≤ j)) ∧
      answers Store.apply Store.sizes s.best.2 rest = answers Store.apply Store.sizes s rest := by
  refine ⟨consistent_empty.answers_ledger hc, ?_⟩
  rintro done rest s rfl rfl
  have hs : (Store.after {} done : Store α).Consistent := consistent_empty.after
  have hd : (Store.after {} done : Store α).Comparable := hc done (List.prefix_append ..)
  refine ⟨hs.toIntact.best_eq_none_iff, fun i r => ⟨?least, ?only⟩, ?later⟩
  case least => exact fun h => ⟨isOpen_of_best h, fun j t => hs.best_least hd h⟩
  case only  => exact fun ⟨hr, hle⟩ => hs.best_eq_some hd hr (hle _ _)
  case later =>
    refine (hs.answers_eq hs.best rfl fun done' h => ?_).symm
    rw [← after_append]
    exact hc _ ((List.prefix_append_right_inj done).mpr h)

-- Node 1 gets a second record and node 2 is closed without being the best. The root is made anew. Two
-- calls fail, and once everything is dropped, the count of the records starts again.
def turnover : List (Step Int) := [
  .openRoot 0 5, .openFrom 0 1 (some 0) 1 1, .openFrom 0 1 (some 1) 0 1, .openFrom 0 2 none 3 3,
  .close 3, .close 1, .openRoot 0 0, .best, .openFrom 9 1 none 0 0, .close 4, .best, .closedAt 2,
  .clear, .openRoot 1 1, .best
]

theorem turnover_answers :
    (∀ done, done <+: turnover → (Store.after {} done).Comparable) ∧
    answers Store.apply Store.sizes {} turnover = answers Ledger.apply Ledger.sizes {} turnover ∧
    (answers Ledger.apply Ledger.sizes {} turnover).map (·.1) = [
      .made 0, .made 1, .made 2, .made 3,
      .done, .failed .notOpen, .made 4, .found (some 4), .failed (.noSuchParent 9), .done,
      .found (some 2), .found (some 3), .done, .made 0, .found (some 0)] := by
  have hc (done : List (Step Int)) (_ : done <+: turnover) : (Store.after {} done).Comparable :=
    comparable _
  have h := (queue_invisible hc).left
  refine ⟨hc, h, ?_⟩
  rw [← h]
  cbv

end Store
end BestFirst
