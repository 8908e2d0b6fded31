import BestFirst.Proofs.Search.Relaxation

namespace BestFirst.Problem

variable {α : Type}

-- These records, in this order, are the ones that were expanded, and no others are closed.
structure Expanded (xs : List (Nat × Record α)) (s : Store α) : Prop where
  nodup        : (xs.map (·.1)).Nodup
  record {x}   : x ∈ xs → s.record? x.1 = some x.2
  spent {x}    : x ∈ xs → s.openAt? x.2.node ≠ some x.1
  closed {i r} : s.IsClosed i r → (i, r) ∈ xs

section Preservation

variable {xs : List (Nat × Record α)} {s s' : Store α} {i : Nat} {r : Record α}

theorem Expanded.not_mem (h : Expanded xs s) (hr : s.IsOpen i r) : i ∉ xs.map (·.1) := by
  intro hi
  have ⟨x, hx, hxi⟩ := List.mem_map.mp hi
  have hxr : x.2 = r := Option.some.inj ((h.record hx).symm.trans (hxi ▸ hr.record))
  apply h.spent hx
  rw [hxr, hxi, hr.opened]

theorem Expanded.close (h : Expanded xs s) (hr : s.IsOpen i r) (hc : s.close i = .ok s') :
    Expanded (xs ++ [(i, r)]) s' := by
  constructor
  case nodup =>
    rw [List.map_append, List.nodup_append]
    refine ⟨h.nodup, by simp, fun j hj k hk hjk => ?_⟩
    obtain rfl : k = i := List.mem_singleton.mp hk
    exact h.not_mem hr (hjk ▸ hj)
  case record =>
    intro x hx
    rw [Store.close_record? hc]
    obtain hx | hx := List.mem_append.mp hx
    · exact h.record hx
    · cases List.mem_singleton.mp hx
      exact hr.record
  case spent =>
    intro x hx
    rw [Store.close_openAt? hc hr]
    split
    case isTrue     => simp
    case isFalse hn =>
      obtain hx | hx := List.mem_append.mp hx
      · exact h.spent hx
      · cases List.mem_singleton.mp hx
        exact absurd rfl hn
  case closed =>
    intro j t ht
    obtain ⟨rfl, rfl⟩ | ⟨ht, -⟩ := (Store.isClosed_close hc hr).mp ht
    · simp
    · exact List.mem_append_left _ (h.closed ht)

theorem Expanded.add [Add α] [LE α] [DecidableLE α] (h : Expanded xs s)
    (hr : ∀ {p : Nat}, r.parent = some p → p < s.arena.size) : Expanded xs (s.add r hr) where
  nodup     := h.nodup
  record hx := Store.record?_add_of_some hr (h.record hx)
  closed ht := h.closed ((Store.isClosed_add hr).mp ht).left
  spent hx  := by
    rw [Store.openAt?_add]
    split
    case isFalse => exact h.spent hx
    case isTrue  =>
      intro hi
      have hlt := Store.lt_size_of_record? (h.record hx)
      exact Nat.ne_of_lt hlt (Option.some.inj hi).symm

theorem Expanded.best [LE α] [DecidableLE α] (h : Expanded xs s) : Expanded xs s.best.2 where
  nodup     := h.nodup
  record    := h.record
  spent     := h.spent
  closed ht := h.closed (Store.best_isClosed.mp ht)

end Preservation

variable [Zero α] [Add α] [LE α] [DecidableLE α] {p : Problem α} {ph : Phase α} {s : State α}

theorem Visits.expanded (h : p.Visits ph s) : Expanded ph.expanded s.store := by
  induction h
  case start h =>
    have hn {i r} := not_isClosed_of_start (i := i) (r := r) h
    exact ⟨.nil, nofun, nofun, fun h => absurd h hn⟩
  case close hb _ hc _ ih => exact ih.best.close (Store.isOpen_best hb) hc
  case relax hr ih =>
    cases hr
    case foreign        => exact ih
    case covered        => exact ih
    case adopted ht _ _ => exact ih.add ht
  case finish ih => exact ih

theorem Visits.exists_best (h : p.Visits ph s) {x : Nat × Record α} (hx : x ∈ ph.expanded) :
    ∃ xs s', p.Visits (.choosing xs) s' ∧ s'.store.best.1 = some x := by
  induction h
  case start     => contradiction
  case relax ih  => exact ih hx
  case finish ih => exact ih hx
  case close hv hb _ _ _ ih =>
    cases List.mem_append.mp hx
    case inl hx => exact ih hx
    case inr hx => exact ⟨_, _, hv, List.mem_singleton.mp hx ▸ hb⟩

theorem Visits.intact (h : p.Visits ph s) : s.store.Intact :=
  h.store_induction Store.intact_empty (fun hr hs => hs.add hr) .best .close

end BestFirst.Problem
