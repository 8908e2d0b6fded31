import BestFirst.Position
import Mathlib.Analysis.InnerProductSpace.PiL2

namespace BestFirst

noncomputable instance : Scalar ℝ where
  isFinite _ := true
  sqrt       := Real.sqrt

namespace Position

variable {a b c : Position ℝ}

noncomputable def point (a : Position ℝ) (upright : Bool) : EuclideanSpace ℝ (Fin 3) :=
  !₂[a.x, a.y, if upright then a.z else 0]

noncomputable def groundDistance (a b : Position ℝ) : ℝ :=
  dist (a.point false) (b.point false)

theorem distance_eq :
    a.distance b = dist (a.point (a.is3D && b.is3D)) (b.point (a.is3D && b.is3D)) := by
  rw [EuclideanSpace.dist_eq, distance]
  congr 1
  simp [Fin.sum_univ_three, point, Real.dist_eq, sq_abs]
  split <;> ring

theorem distance_of_flat (h : (a.is3D && b.is3D) = false) : a.distance b = a.groundDistance b := by
  rw [distance_eq, h, groundDistance]

theorem distance_comm : a.distance b = b.distance a := by
  rw [distance_eq, distance_eq, dist_comm, Bool.and_comm]

theorem distance_self : a.distance a = 0 := by
  rw [distance_eq, dist_self]

theorem distance_nonneg : 0 ≤ a.distance b :=
  distance_eq ▸ dist_nonneg

theorem groundDistance_eq : a.groundDistance b = √((b.x - a.x) ^ 2 + (b.y - a.y) ^ 2) := by
  rw [groundDistance, EuclideanSpace.dist_eq]
  congr 1
  simp [Fin.sum_univ_three, point, Real.dist_eq, sq_abs]
  ring

theorem groundDistance_le : a.groundDistance b ≤ a.distance b := by
  rw [groundDistance_eq, distance]
  apply Real.sqrt_le_sqrt
  nlinarith [mul_self_nonneg (if a.is3D ∧ b.is3D then b.z - a.z else 0)]

theorem distance_le : a.distance b ≤ a.groundDistance b + |b.z - a.z| := by
  have hg : 0 ≤ a.groundDistance b := dist_nonneg
  have hz : 0 ≤ |b.z - a.z| := abs_nonneg _
  have hs : a.groundDistance b ^ 2 = (b.x - a.x) ^ 2 + (b.y - a.y) ^ 2 := by
    rw [groundDistance_eq, Real.sq_sqrt (by positivity)]
  have ha : |b.z - a.z| ^ 2 = (b.z - a.z) ^ 2 := sq_abs _
  refine Real.sqrt_le_iff.mpr ⟨by positivity, ?_⟩
  split
  case isTrue  => nlinarith [mul_nonneg hg hz]
  case isFalse => nlinarith [mul_nonneg hg hz]

theorem groundDistance_triangle : a.groundDistance c ≤ a.groundDistance b + b.groundDistance c :=
  dist_triangle ..

theorem distance_triangle {upright : Bool} (ha : a.is3D = upright) (hb : b.is3D = upright)
    (hc : c.is3D = upright) : a.distance c ≤ a.distance b + b.distance c := by
  simpa only [distance_eq, ha, hb, hc, Bool.and_self] using dist_triangle ..

variable {t : Position ℝ} {ε : ℝ}

-- A lower bound for what it costs to go from `a` to `t`, if height that is lost on the way is worth
-- at most `ε`.
noncomputable def potential (ε : ℝ) (t a : Position ℝ) : ℝ :=
  max (a.groundDistance t) (a.distance t - ε)

theorem potential_self (hε : 0 ≤ ε) : potential ε t t ≤ 0 := by
  have hg : t.groundDistance t = 0 := dist_self _
  rw [potential, hg, distance_self]
  exact max_le le_rfl (by linarith)

theorem potential_le (hε : 0 ≤ ε)
    (hl : a.is3D → b.is3D = false → t.is3D → |t.z - a.z| ≤ ε) :
    potential ε t a ≤ a.distance b + potential ε t b := by
  have hg : a.groundDistance t ≤ a.distance b + potential ε t b :=
    calc a.groundDistance t
      _ ≤ a.groundDistance b + b.groundDistance t := groundDistance_triangle
      _ ≤ a.distance b + potential ε t b          := add_le_add groundDistance_le (le_max_left ..)
  refine max_le hg ?_
  by_cases hat : (a.is3D && t.is3D) = false
  case pos =>
    rw [distance_of_flat hat]
    linarith
  case neg =>
    obtain ⟨ha, ht⟩ : a.is3D ∧ t.is3D := by simpa using hat
    cases hb : b.is3D
    case true =>
      have htri : a.distance t ≤ a.distance b + b.distance t := distance_triangle ha hb ht
      have hpot : b.distance t - ε ≤ potential ε t b := le_max_right ..
      linarith
    case false =>
      have hup : a.distance t ≤ a.groundDistance t + |t.z - a.z| := distance_le
      linarith [hl ha hb ht]

end Position
end BestFirst
