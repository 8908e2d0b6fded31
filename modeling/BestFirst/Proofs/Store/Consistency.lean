import BestFirst.Proofs.RankOrder
import BestFirst.Proofs.Store.Records

namespace BestFirst

variable {α : Type}

namespace Store

section Selecting

variable [LE α] [DecidableLE α]

-- Entries are dropped from the front of the queue until one stands for an open record.
inductive Drops (s : Store α) : Heap (Entry α) → Heap (Entry α) → Prop
  | refl {q}      : Drops s q q
  | drop {q q' x} : q.min? = some x → s.openRecord? x.index = none →
    Drops s (q.popMin Entry.before) q' → Drops s q q'

variable {s : Store α} {q : Heap (Entry α)} {i : Nat} {r : Record α}

theorem firstOpen_drops : s.Drops q (s.firstOpen q).2 := by
  fun_induction firstOpen s q
  case case1 => exact .refl
  case case2 => exact .refl
  case case3 q x hx hn _ ih => exact .drop hx hn ih

theorem firstOpen_eq_none (h : (s.firstOpen q).1 = none) : (s.firstOpen q).2.min? = none := by
  fun_induction firstOpen s q
  case case1 hx => exact hx
  case case2 => contradiction
  case case3 ih => exact ih h

theorem firstOpen_eq_some (h : (s.firstOpen q).1 = some (i, r)) :
    s.IsOpen i r ∧ ∃ x, (s.firstOpen q).2.min? = some x ∧ x.index = i := by
  fun_induction firstOpen s q
  case case1 => contradiction
  case case2 x hx t ht =>
    obtain ⟨rfl, rfl⟩ := Prod.mk.inj (Option.some.inj h)
    exact ⟨openRecord?_iff_isOpen.mp ht, x, hx, rfl⟩
  case case3 ih => exact ih h

namespace Drops

variable {q' : Heap (Entry α)}

theorem mem (hd : s.Drops q q') {x : Entry α} (hx : x ∈ q'.entries) : x ∈ q.entries := by
  induction hd
  case refl => exact hx
  case drop hm _ _ ih => exact (Heap.mem_popMin hm).mpr (.inr (ih hx))

theorem mem_of_isOpen (hd : s.Drops q q') {x : Entry α} (hr : s.IsOpen x.index r)
    (hx : x ∈ q.entries) : x ∈ q'.entries := by
  induction hd
  case refl => exact hx
  case drop hm hn _ ih =>
    obtain rfl | hx := (Heap.mem_popMin hm).mp hx
    · simp [openRecord?_iff_isOpen.mpr hr] at hn
    · exact ih hx

theorem sorted [RankOrder α] (hd : s.Drops q q') (hx : ∀ x ∈ q.entries, x.Sound)
    (hq : q.Sorted Entry.before) : q'.Sorted Entry.before := by
  induction hd
  case refl => exact hq
  case drop hm _ _ ih =>
    refine ih (fun x h => hx x ?_) (hq.popMin Entry.lawful_before hx)
    exact (Heap.mem_popMin hm).mpr (.inr h)

end Drops

theorem isOpen_of_best (h : s.best.1 = some (i, r)) : s.IsOpen i r :=
  (firstOpen_eq_some h).left

@[simp]
theorem best_isOpen : s.best.2.IsOpen i r ↔ s.IsOpen i r :=
  ⟨fun h => ⟨h.record, h.opened⟩, fun h => ⟨h.record, h.opened⟩⟩

theorem isOpen_best (h : s.best.1 = some (i, r)) : s.best.2.IsOpen i r :=
  best_isOpen.mpr (isOpen_of_best h)

@[simp]
theorem best_isClosed : s.best.2.IsClosed i r ↔ s.IsClosed i r :=
  ⟨fun h => ⟨h.record, h.closed⟩, fun h => ⟨h.record, h.closed⟩⟩

end Selecting

section Invariant

variable [Add α]

def Comparable [LE α] (s : Store α) : Prop :=
  ∀ {i : Nat} {r : Record α}, s.record? i = some r → r.rank ≤ r.rank

theorem comparable [Preorder α] (s : Store α) : s.Comparable :=
  fun _ => le_rfl

-- What is left of consistency when nothing is known of how ranks are compared.
structure Intact (s : Store α) : Prop where
  opened {u i} : s.openAt? u = some i → ∃ r, s.IsOpen i r ∧ r.node = u
  closed {u i} : s.closedAt? u = some i → ∃ r, s.IsClosed i r ∧ r.node = u
  apart {u i}  : s.openAt? u = some i → s.closedAt? u = none
  entry {x}    : x ∈ s.queue.entries → ∃ r, s.record? x.index = some r ∧ r.rank = x.rank
  queued {i r} : s.IsOpen i r → ⟨r.rank, i⟩ ∈ s.queue.entries

structure Consistent [LE α] [DecidableLE α] (s : Store α) : Prop extends s.Intact where
  sorted : s.Comparable → s.queue.Sorted Entry.before

variable {s s' : Store α} {i j : Nat} {r t : Record α} {u : NodeIndex}

theorem intact_empty : Intact ({} : Store α) where
  opened h := by simp [openAt?] at h
  closed h := by simp [closedAt?] at h
  apart h  := by simp [openAt?] at h
  entry h  := by simp at h
  queued h := absurd h.opened (by simp [openAt?])

theorem Intact.close (hs : s.Intact) (h : s.close i = .ok s') : s'.Intact := by
  have ⟨r, hr, _⟩ := close_eq_ok_iff.mp h
  constructor
  case opened =>
    intro u j hj
    rw [close_openAt? h hr] at hj
    split at hj
    case isTrue => contradiction
    case isFalse hn =>
      obtain ⟨t, ht, rfl⟩ := hs.opened hj
      exact ⟨t, (isOpen_close h hr).mpr ⟨ht, Ne.symm hn⟩, rfl⟩
  case closed =>
    intro u j hj
    rw [close_closedAt? h hr] at hj
    split at hj
    case isTrue hn =>
      cases Option.some.inj hj
      exact ⟨r, (isClosed_close h hr).mpr (.inl ⟨rfl, rfl⟩), hn⟩
    case isFalse hn =>
      obtain ⟨t, ht, rfl⟩ := hs.closed hj
      exact ⟨t, (isClosed_close h hr).mpr (.inr ⟨ht, Ne.symm hn⟩), rfl⟩
  case apart =>
    intro u j hj
    rw [close_openAt? h hr] at hj
    rw [close_closedAt? h hr]
    split at hj
    case isTrue     => contradiction
    case isFalse hn => rw [if_neg hn, hs.apart hj]
  case entry  => exact fun hx => by simpa only [close_record? h] using hs.entry (close_queue h ▸ hx)
  case queued => exact fun hj => close_queue h ▸ hs.queued ((isOpen_close h hr).mp hj).left

variable [LE α] [DecidableLE α]

theorem Consistent.sound (hs : s.Consistent) (hc : s.Comparable) {x : Entry α}
    (hx : x ∈ s.queue.entries) : x.Sound := by
  have ⟨r, hr, hx⟩ := hs.entry hx
  simpa only [Entry.Sound, hx] using hc hr

theorem Consistent.node_ne (hs : s.Consistent) (hr : s.IsOpen i r) (ht : s.IsClosed j t) :
    t.node ≠ r.node := by
  intro hn
  have hn' := hs.apart hr.opened
  simp [← hn, ht.closed] at hn'

theorem consistent_empty : Consistent ({} : Store α) :=
  ⟨intact_empty, fun _ => Heap.sorted_empty⟩

theorem Comparable.of_add {hr : ∀ {p : Nat}, r.parent = some p → p < s.arena.size}
    (hc : (s.add r hr).Comparable) : s.Comparable ∧ r.rank ≤ r.rank where
  left h := hc (record?_add_of_some hr h)
  right  := hc (i := s.arena.size) (by rw [record?_add, if_pos rfl])

theorem Consistent.close (hs : s.Consistent) (h : s.close i = .ok s') : s'.Consistent where
  toIntact  := hs.toIntact.close h
  sorted hc := close_queue h ▸ hs.sorted fun hj => hc ((close_record? h _).trans hj)

theorem Intact.add (hs : s.Intact) (hr : ∀ {p : Nat}, r.parent = some p → p < s.arena.size) :
    (s.add r hr).Intact := by
  constructor
  case opened =>
    intro u j hj
    rw [openAt?_add] at hj
    split at hj
    case isTrue hn =>
      cases Option.some.inj hj
      exact ⟨r, (isOpen_add hr).mpr (.inl ⟨rfl, rfl⟩), hn⟩
    case isFalse hn =>
      obtain ⟨t, ht, rfl⟩ := hs.opened hj
      exact ⟨t, (isOpen_add hr).mpr (.inr ⟨ht, Ne.symm hn⟩), rfl⟩
  case closed =>
    intro u j hj
    rw [closedAt?_add] at hj
    split at hj
    case isTrue => contradiction
    case isFalse hn =>
      obtain ⟨t, ht, rfl⟩ := hs.closed hj
      exact ⟨t, (isClosed_add hr).mpr ⟨ht, Ne.symm hn⟩, rfl⟩
  case apart =>
    intro u j hj
    rw [openAt?_add] at hj
    rw [closedAt?_add]
    split at hj
    case isTrue hn  => rw [if_pos hn]
    case isFalse hn => rw [if_neg hn, hs.apart hj]
  case entry =>
    intro x hx
    obtain rfl | hx := Heap.mem_push.mp hx
    · exact ⟨r, by rw [record?_add, if_pos rfl], rfl⟩
    · have ⟨t, ht, hx⟩ := hs.entry hx
      exact ⟨t, record?_add_of_some hr ht, hx⟩
  case queued =>
    intro j t hj
    obtain ⟨rfl, rfl⟩ | ⟨hj, -⟩ := (isOpen_add hr).mp hj
    · exact Heap.mem_push.mpr (.inl rfl)
    · exact Heap.mem_push.mpr (.inr (hs.queued hj))

theorem Consistent.add [RankOrder α] (hs : s.Consistent)
    (hr : ∀ {p : Nat}, r.parent = some p → p < s.arena.size) : (s.add r hr).Consistent where
  toIntact  := hs.toIntact.add hr
  sorted hc :=
    have ⟨hc, hx⟩ := hc.of_add
    (hs.sorted hc).push Entry.lawful_before (fun _ => hs.sound hc) hx

theorem Intact.best (hs : s.Intact) : s.best.2.Intact where
  opened h := by simpa using hs.opened h
  closed h := by simpa using hs.closed h
  apart    := hs.apart
  entry h  := hs.entry (firstOpen_drops.mem h)
  queued h := firstOpen_drops.mem_of_isOpen (best_isOpen.mp h) (hs.queued (best_isOpen.mp h))

theorem Consistent.best [RankOrder α] (hs : s.Consistent) : s.best.2.Consistent where
  toIntact  := hs.toIntact.best
  sorted hc := firstOpen_drops.sorted (fun _ => hs.sound hc) (hs.sorted hc)

theorem Intact.not_isOpen_of_best (hs : s.Intact) (h : s.best.1 = none) : ¬s.IsOpen i r := by
  intro hr
  have hq := firstOpen_drops.mem_of_isOpen hr (hs.queued hr)
  have hm := firstOpen_eq_none h
  simp_all [Heap.min?]

-- The best open record has the least rank of all, and is the earliest of that rank.
theorem Consistent.best_least [RankOrder α] (hs : s.Consistent) (hc : s.Comparable)
    (h : s.best.1 = some (i, r)) (ht : s.IsOpen j t) :
    r.rank ≤ t.rank ∧ (t.rank ≤ r.rank → i ≤ j) := by
  obtain ⟨hr, x, hx, rfl⟩ := firstOpen_eq_some h
  have hm : x ∈ s.best.2.queue.entries := Array.mem_of_getElem? hx
  have hq := hs.best.queued (best_isOpen.mpr ht)
  have ⟨r', hr', hrank⟩ := hs.best.entry hm
  obtain rfl : r' = r := Option.some.inj (hr'.symm.trans hr.record)
  have hb := (hs.best.sorted hc).min? Entry.lawful_before (fun _ => hs.best.sound hc) hx hq
  rw [Entry.before_eq_false_iff (hs.best.sound hc hm) (hs.best.sound hc hq)] at hb
  exact hrank ▸ hb

theorem Consistent.best_eq_some [RankOrder α] (hs : s.Consistent) (hc : s.Comparable)
    (hr : s.IsOpen i r)
    (h : ∀ {j t}, s.IsOpen j t → r.rank ≤ t.rank ∧ (t.rank ≤ r.rank → i ≤ j)) :
    s.best.1 = some (i, r) := by
  cases hb : s.best.1
  case none => exact absurd hr (hs.toIntact.not_isOpen_of_best hb)
  case some x =>
    have ⟨j, t⟩ := x
    have ht := isOpen_of_best hb
    have ⟨hle, hji⟩ := hs.best_least hc hb hr
    have ⟨hle', hij⟩ := h ht
    obtain rfl : i = j := Nat.le_antisymm (hij hle) (hji hle')
    obtain rfl : r = t := Option.some.inj (hr.record.symm.trans ht.record)
    rfl

end Invariant
end Store
end BestFirst
