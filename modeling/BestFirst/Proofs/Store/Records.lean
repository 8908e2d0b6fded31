import BestFirst.Store.Basic

namespace BestFirst

variable {α : Type}

namespace Store

variable {s s' : Store α} {i j : Nat} {r t : Record α} {u : NodeIndex}

structure IsOpen (s : Store α) (i : Nat) (r : Record α) : Prop where
  record : s.record? i = some r
  opened : s.openAt? r.node = some i

structure IsClosed (s : Store α) (i : Nat) (r : Record α) : Prop where
  record : s.record? i = some r
  closed : s.closedAt? r.node = some i

def IsPresent (s : Store α) (i : Nat) (r : Record α) : Prop :=
  s.IsOpen i r ∨ s.IsClosed i r

theorem openRecord?_iff_isOpen : s.openRecord? i = some r ↔ s.IsOpen i r :=
  openRecord?_eq_some_iff.trans ⟨fun ⟨h, h'⟩ => ⟨h, h'⟩, fun ⟨h, h'⟩ => ⟨h, h'⟩⟩

theorem record?_empty : record? ({} : Store α) i = none := by
  simp [record?, Arena.get?, EmptyCollection.emptyCollection, Arena.empty]

theorem not_isClosed_empty : ¬IsClosed ({} : Store α) i r :=
  fun h => by simpa [closedAt?] using h.closed

theorem IsPresent.record : s.IsPresent i r → s.record? i = some r
  | .inl h => h.record
  | .inr h => h.record

theorem lt_size_of_record? (h : s.record? i = some r) : i < s.arena.size :=
  s.arena.get?_isSome_iff i |>.mp (Option.isSome_of_eq_some h)

theorem IsOpen.index_unique (h : s.IsOpen i r) (h' : s.IsOpen j t) (hn : r.node = t.node) : i = j :=
  Option.some.inj (h.opened.symm.trans (hn ▸ h'.opened))

section Closing

theorem close_eq_ok_iff : s.close i = .ok s' ↔ ∃ r, s.IsOpen i r ∧
    s' = { s with opened := s.opened.erase r.node, closed := s.closed.insert r.node i } := by
  simp only [close, ← openRecord?_iff_isOpen]
  cases s.openRecord? i <;> simp [eq_comm]

variable (h : s.close i = .ok s')
include h

theorem close_record? (j : Nat) : s'.record? j = s.record? j := by
  obtain ⟨r, -, rfl⟩ := close_eq_ok_iff.mp h
  rfl

theorem close_queue : s'.queue = s.queue := by
  obtain ⟨r, -, rfl⟩ := close_eq_ok_iff.mp h
  rfl

theorem close_openAt? (hr : s.IsOpen i r) (u : NodeIndex) :
    s'.openAt? u = if r.node = u then none else s.openAt? u := by
  obtain ⟨r', hr', rfl⟩ := close_eq_ok_iff.mp h
  obtain rfl : r' = r := Option.some.inj (hr'.record.symm.trans hr.record)
  simp [openAt?, Std.HashMap.getElem?_erase]

theorem close_closedAt? (hr : s.IsOpen i r) (u : NodeIndex) :
    s'.closedAt? u = if r.node = u then some i else s.closedAt? u := by
  obtain ⟨r', hr', rfl⟩ := close_eq_ok_iff.mp h
  obtain rfl : r' = r := Option.some.inj (hr'.record.symm.trans hr.record)
  simp [closedAt?, Std.HashMap.getElem?_insert]

theorem isOpen_close (hr : s.IsOpen i r) : s'.IsOpen j t ↔ s.IsOpen j t ∧ t.node ≠ r.node where
  mp  := fun ⟨h₁, h₂⟩ => by
    rw [close_openAt? h hr] at h₂
    split at h₂
    case isTrue  => contradiction
    case isFalse hn => exact ⟨⟨close_record? h j ▸ h₁, h₂⟩, Ne.symm hn⟩
  mpr := fun ⟨⟨h₁, h₂⟩, hn⟩ =>
    ⟨(close_record? h j).trans h₁, by rw [close_openAt? h hr, if_neg hn.symm, h₂]⟩

theorem isClosed_close (hr : s.IsOpen i r) :
    s'.IsClosed j t ↔ (j = i ∧ t = r) ∨ (s.IsClosed j t ∧ t.node ≠ r.node) where
  mp  := fun ⟨h₁, h₂⟩ => by
    rw [close_record? h] at h₁
    rw [close_closedAt? h hr] at h₂
    split at h₂
    case isTrue hn =>
      cases Option.some.inj h₂
      exact .inl ⟨rfl, Option.some.inj (h₁.symm.trans hr.record)⟩
    case isFalse hn => exact .inr ⟨⟨h₁, h₂⟩, Ne.symm hn⟩
  mpr := by
    rintro (⟨rfl, rfl⟩ | ⟨⟨h₁, h₂⟩, hn⟩)
    · exact ⟨(close_record? h j).trans hr.record, by rw [close_closedAt? h hr, if_pos rfl]⟩
    · exact ⟨(close_record? h j).trans h₁, by rw [close_closedAt? h hr, if_neg hn.symm, h₂]⟩

end Closing

section Making

variable [Add α] [LE α] [DecidableLE α] (hr : ∀ {p : Nat}, r.parent = some p → p < s.arena.size)

theorem record?_add_of_some (h : s.record? i = some t) : (s.add r hr).record? i = some t := by
  rw [record?_add, if_neg (Nat.ne_of_lt (lt_size_of_record? h)), h]

theorem isOpen_add :
    (s.add r hr).IsOpen j t ↔ (j = s.arena.size ∧ t = r) ∨ (s.IsOpen j t ∧ t.node ≠ r.node) where
  mp  := fun ⟨h₁, h₂⟩ => by
    rw [record?_add] at h₁
    rw [openAt?_add] at h₂
    split at h₂
    case isTrue hn =>
      cases Option.some.inj h₂
      rw [if_pos rfl] at h₁
      exact .inl ⟨rfl, Option.some.inj h₁.symm⟩
    case isFalse hn =>
      split at h₁
      case isTrue  => exact absurd (Option.some.inj h₁ ▸ rfl) hn
      case isFalse => exact .inr ⟨⟨h₁, h₂⟩, Ne.symm hn⟩
  mpr := by
    rintro (⟨rfl, rfl⟩ | ⟨⟨h₁, h₂⟩, hn⟩)
    · exact ⟨by rw [record?_add, if_pos rfl], by rw [openAt?_add, if_pos rfl]⟩
    · exact ⟨record?_add_of_some hr h₁, by rw [openAt?_add, if_neg hn.symm, h₂]⟩

theorem isClosed_add :
    (s.add r hr).IsClosed j t ↔ s.IsClosed j t ∧ t.node ≠ r.node where
  mp  := fun ⟨h₁, h₂⟩ => by
    rw [record?_add] at h₁
    rw [closedAt?_add] at h₂
    split at h₂
    case isTrue  => contradiction
    case isFalse hn =>
      split at h₁
      case isTrue  => exact absurd (Option.some.inj h₁ ▸ rfl) hn
      case isFalse => exact ⟨⟨h₁, h₂⟩, Ne.symm hn⟩
  mpr := fun ⟨⟨h₁, h₂⟩, hn⟩ =>
    ⟨record?_add_of_some hr h₁, by rw [closedAt?_add, if_neg hn.symm, h₂]⟩

end Making
end Store
end BestFirst
