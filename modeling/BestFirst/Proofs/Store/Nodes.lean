import BestFirst.Proofs.Store.Records
import Mathlib

namespace BestFirst.Store

open Std (HashMap)

variable {α : Type}

def openNodes (s : Store α) : Finset NodeIndex :=
  s.opened.keys.toFinset

def closedNodes (s : Store α) : Finset NodeIndex :=
  s.closed.keys.toFinset

variable {s s' : Store α} {i : Nat} {r : Record α} {u : NodeIndex}

theorem mem_openNodes : u ∈ s.openNodes ↔ (s.openAt? u).isSome := by
  rw [openNodes, List.mem_toFinset, HashMap.mem_keys, HashMap.mem_iff_isSome_getElem?, openAt?]

theorem mem_closedNodes : u ∈ s.closedNodes ↔ (s.closedAt? u).isSome := by
  rw [closedNodes, List.mem_toFinset, HashMap.mem_keys, HashMap.mem_iff_isSome_getElem?, closedAt?]

theorem card_openNodes : s.openNodes.card = s.opened.size := by
  rw [openNodes, List.toFinset_card_of_nodup HashMap.nodup_keys, HashMap.length_keys]

theorem card_closedNodes : s.closedNodes.card = s.closed.size := by
  rw [closedNodes, List.toFinset_card_of_nodup HashMap.nodup_keys, HashMap.length_keys]

theorem openNodes_empty : openNodes ({} : Store α) = ∅ := by
  ext u
  simp [mem_openNodes, openAt?]

theorem closedNodes_empty : closedNodes ({} : Store α) = ∅ := by
  ext u
  simp [mem_closedNodes, closedAt?]

section Closing

variable (h : s.close i = .ok s') (hr : s.IsOpen i r)
include h hr

theorem openNodes_close : s'.openNodes = s.openNodes.erase r.node := by
  ext u
  rw [Finset.mem_erase, mem_openNodes, mem_openNodes, close_openAt? h hr]
  split
  case isTrue hn  => simp [hn]
  case isFalse hn => simp [Ne.symm hn]

theorem closedNodes_close : s'.closedNodes = insert r.node s.closedNodes := by
  ext u
  rw [Finset.mem_insert, mem_closedNodes, mem_closedNodes, close_closedAt? h hr]
  split
  case isTrue hn  => simp [hn]
  case isFalse hn => simp [Ne.symm hn]

end Closing

section Making

variable [Add α] [LE α] [DecidableLE α] (hr : ∀ {p : Nat}, r.parent = some p → p < s.arena.size)

theorem openNodes_add : (s.add r hr).openNodes = insert r.node s.openNodes := by
  ext u
  rw [Finset.mem_insert, mem_openNodes, mem_openNodes, openAt?_add]
  split
  case isTrue hn  => simp [hn]
  case isFalse hn => simp [Ne.symm hn]

theorem closedNodes_add : (s.add r hr).closedNodes = s.closedNodes.erase r.node := by
  ext u
  rw [Finset.mem_erase, mem_closedNodes, mem_closedNodes, closedAt?_add]
  split
  case isTrue hn  => simp [hn]
  case isFalse hn => simp [Ne.symm hn]

end Making
end BestFirst.Store
