import BestFirst.Store.Basic

namespace BestFirst

variable {α : Type}

namespace Record

def edge? (r : Record α) : Option EdgeIndex :=
  r.parent.map fun _ => r.via.getD noEdge

theorem edge?_eq_some (r : Record α) {j : Nat} {e : EdgeIndex} (hp : r.parent = some j)
    (hv : r.via = asEdge e) : r.edge? = some e := by
  by_cases he : e = noEdge <;> simp [edge?, hp, hv, asEdge, he]

end Record

namespace Arena

-- These records come one from the other, the first one from none and the last one being record `i`.
inductive Lineage (a : Arena α) : Nat → List (Record α) → Prop
  | root {i r} : a.get? i = some r → r.parent = none → Lineage a i [r]
  | child {i j r rs} : Lineage a j rs → a.get? i = some r → r.parent = some j →
    Lineage a i (rs ++ [r])

variable {a : Arena α} {i j : Nat} {r x : Record α}

@[simp]
theorem size_empty : (∅ : Arena α).size = 0 := rfl

theorem chain_of_get?_eq_none (hr : a.get? i = none) : a.chain i = [] := by
  rw [chain]
  grind

theorem chain_of_parent_eq_none (hr : a.get? i = some r) (hp : r.parent = none) :
    a.chain i = [r] := by
  rw [chain]
  grind

theorem chain_of_parent_eq_some (hr : a.get? i = some r) (hp : r.parent = some j) :
    a.chain i = r :: a.chain j := by
  rw [chain]
  grind

theorem lt_size_of_get? (hr : a.get? i = some r) : i < a.size :=
  (a.get?_isSome_iff i).mp (Option.isSome_of_eq_some hr)

namespace Lineage

variable {b : Arena α} {rs : List (Record α)}

theorem chain_eq (h : a.Lineage i rs) : a.chain i = rs.reverse := by
  induction h
  case root hr hp     => rw [chain_of_parent_eq_none hr hp, List.reverse_singleton]
  case child hr hp ih => rw [chain_of_parent_eq_some hr hp, ih, List.reverse_concat]

theorem mono (h : a.Lineage i rs) (hab : ∀ {j x}, a.get? j = some x → b.get? j = some x) :
    b.Lineage i rs := by
  induction h
  case root hr hp     => exact .root (hab hr) hp
  case child hr hp ih => exact .child ih (hab hr) hp

theorem getLast? (h : a.Lineage i rs) : rs.getLast? = a.get? i := by
  cases h
  case root _ hr    => exact hr.symm
  case child _ _ hr => rw [List.getLast?_concat, hr]

theorem head? (h : a.Lineage i rs) : ∃ x, rs.head? = some x ∧ x.parent = none := by
  induction h
  case root hp => exact ⟨_, rfl, hp⟩
  case child ih =>
    have ⟨x, hx, hp⟩ := ih
    exact ⟨x, by simp [hx], hp⟩

theorem exists_of_mem (h : a.Lineage i rs) (hx : x ∈ rs) : ∃ j, a.get? j = some x := by
  induction h
  case root i _ hr _ => exact ⟨i, List.mem_singleton.mp hx ▸ hr⟩
  case child i _ _ _ _ hr _ ih =>
    cases List.mem_append.mp hx
    case inl hx => exact ih hx
    case inr hx => exact ⟨i, List.mem_singleton.mp hx ▸ hr⟩

theorem length_le (h : a.Lineage i rs) : rs.length ≤ i + 1 := by
  induction h
  case root => simp
  case child hr hp ih =>
    have hlt := a.parent_lt hr hp
    rw [List.length_append, List.length_singleton]
    omega

end Lineage

theorem exists_lineage (hr : a.get? i = some r) : ∃ rs, a.Lineage i rs := by
  induction i using Nat.strongRecOn generalizing r
  case ind i ih =>
    cases hp : r.parent
    case none   => exact ⟨[r], .root hr hp⟩
    case some j =>
      have hj : j < i := a.parent_lt hr hp
      have ⟨x, hx⟩ := Option.isSome_iff_exists.mp <|
        (a.get?_isSome_iff j).mpr (Nat.lt_trans hj (lt_size_of_get? hr))
      have ⟨rs, h⟩ := ih j hj hx
      exact ⟨rs ++ [r], .child h hr hp⟩

theorem exists_of_mem_chain (h : x ∈ a.chain i) : ∃ j, a.get? j = some x := by
  cases hr : a.get? i
  case none => simp [chain_of_get?_eq_none hr] at h
  case some =>
    have ⟨rs, hl⟩ := exists_lineage hr
    rw [hl.chain_eq, List.mem_reverse] at h
    exact hl.exists_of_mem h

-- The edges along which record `i` was reached, the last one in front. Unlike a path, this keeps those
-- whose index stands for no edge.
def course (a : Arena α) (i : Nat) : List EdgeIndex :=
  (a.chain i).filterMap (·.edge?)

theorem course_of_parent_eq_none (hr : a.get? i = some r) (hp : r.parent = none) :
    a.course i = [] := by
  simp [course, chain_of_parent_eq_none hr hp, Record.edge?, hp]

theorem course_of_parent_eq_some {e : EdgeIndex} (hr : a.get? i = some r) (hp : r.parent = some j)
    (hv : r.via = asEdge e) : a.course i = e :: a.course j := by
  rw [course, chain_of_parent_eq_some hr hp, List.filterMap_cons_some (r.edge?_eq_some hp hv), course]

section Pushing

variable (hx : ∀ {p : Nat}, x.parent = some p → p < a.size)

theorem get?_push_of_some (hr : a.get? i = some r) : (a.push x hx).get? i = some r := by
  rw [get?_push, if_neg (Nat.ne_of_lt (lt_size_of_get? hr)), hr]

theorem get?_push_self : (a.push x hx).get? a.size = some x := by
  rw [get?_push, if_pos rfl]

theorem chain_push (hi : i < a.size) : (a.push x hx).chain i = a.chain i := by
  have ⟨_, hr⟩ := Option.isSome_iff_exists.mp ((a.get?_isSome_iff i).mpr hi)
  have ⟨_, h⟩ := exists_lineage hr
  rw [h.chain_eq, (h.mono (get?_push_of_some hx)).chain_eq]

theorem chain_push_self (hp : x.parent = some j) :
    (a.push x hx).chain a.size = x :: a.chain j := by
  rw [chain_of_parent_eq_some (get?_push_self hx) hp, chain_push hx (hx hp)]

theorem course_push (hi : i < a.size) : (a.push x hx).course i = a.course i := by
  rw [course, chain_push hx hi, course]

theorem course_push_self {e : EdgeIndex} (hp : x.parent = some j) (hv : x.via = asEdge e) :
    (a.push x hx).course a.size = e :: a.course j := by
  rw [course, chain_push_self hx hp, List.filterMap_cons_some (x.edge?_eq_some hp hv), course]

end Pushing

end Arena
end BestFirst
