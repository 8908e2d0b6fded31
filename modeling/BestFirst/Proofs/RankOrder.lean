import BestFirst.Proofs.Heap.Order
import BestFirst.Store.Basic
import Mathlib.Order.Defs.LinearOrder

namespace BestFirst

variable {α : Type}

-- What is no number is not even as good as itself.
class RankOrder (α : Type) [LE α] : Prop where
  trans {a b c : α} : a ≤ b → b ≤ c → a ≤ c
  total {a b : α}   : a ≤ a → b ≤ b → a ≤ b ∨ b ≤ a

instance [Preorder α] [Std.Total fun a b : α => a ≤ b] : RankOrder α where
  trans     := le_trans
  total _ _ := Std.Total.total ..

namespace Entry

variable [LE α] [DecidableLE α] {x y z : Entry α}

def Sound (x : Entry α) : Prop :=
  x.rank ≤ x.rank

theorem before_asymm (h : x.before y) : y.before x = false := by
  simp only [before, decide_eq_true_eq, decide_eq_false_iff_not] at *
  intro h'
  exact Nat.lt_asymm (h.right h'.left) (h'.right h.left)

variable [RankOrder α]

theorem before_eq_false_iff (hx : x.Sound) (hy : y.Sound) :
    y.before x = false ↔ x.rank ≤ y.rank ∧ (y.rank ≤ x.rank → x.index ≤ y.index) := by
  simp only [before, decide_eq_false_iff_not, not_and, Classical.not_imp, Nat.not_lt]
  constructor
  case mp =>
    intro h
    obtain hxy | hyx := RankOrder.total hx hy
    · exact ⟨hxy, fun hyx => (h hyx).right⟩
    · exact ⟨(h hyx).left, fun hyx => (h hyx).right⟩
  case mpr => exact fun ⟨hxy, h⟩ hyx => ⟨hxy, h hyx⟩

theorem lawful_before : Heap.Lawful (before : Entry α → Entry α → Bool) Sound where
  asymm := before_asymm
  trans hx hy hz hxy hyz := by
    rw [before_eq_false_iff ‹_› ‹_›] at hxy hyz ⊢
    refine ⟨RankOrder.trans hxy.left hyz.left, fun hzx => ?_⟩
    have hyx := RankOrder.trans hyz.left hzx
    have hzy := RankOrder.trans hzx hxy.left
    exact Nat.le_trans (hxy.right hyx) (hyz.right hzy)

end Entry
end BestFirst
