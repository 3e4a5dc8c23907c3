import Mathlib.Data.Prod.Lex

namespace ReplyCache

namespace Decimal

open Float.Model (UnpackedFloat)

/-- Where a number stands: infinity beyond the finite ones, those by exponent and significand. -/
def rank : UnpackedFloat → Int ×ₗ Int ×ₗ Int
  | .infinity .negative => toLex (-2, toLex (0, 0))
  | .finite .negative m e _ => toLex (-1, toLex (-e, -m))
  | .zero _ => toLex (0, toLex (0, 0))
  | .finite .positive m e _ => toLex (1, toLex (e, m))
  | .infinity .positive => toLex (2, toLex (0, 0))
  | .notANumber => toLex (0, toLex (0, 0))

theorem isLE_then {e e' : Int} {m m' : Nat} :
    ((compare e e').then (compare m m')).isLE = true ↔ e < e' ∨ e = e' ∧ m ≤ m' := by
  rcases lt_trichotomy e e' with h | h | h
  · simp [compare_lt_iff_lt.2 h, h]
  · subst h
    simp [Nat.isLE_compare]
  · simp [compare_gt_iff_gt.2 h, h.not_gt, h.ne']

theorem isGE_then {e e' : Int} {m m' : Nat} :
    ((compare e e').then (compare m m')).isGE = true ↔ e' < e ∨ e = e' ∧ m' ≤ m := by
  rcases lt_trichotomy e e' with h | h | h
  · simp [compare_lt_iff_lt.2 h, h.not_gt, h.ne]
  · subst h
    simp [Nat.isGE_compare]
  · simp [compare_gt_iff_gt.2 h, h]

theorem compare_signs (s t : UnpackedFloat.Sign) :
    compare s t = match s, t with
      | .negative, .positive => .lt
      | .positive, .negative => .gt
      | _, _ => .eq := by
  cases s <;> cases t <;> rfl

theorem le_iff_rank_of_numbers {x y : UnpackedFloat} (hx : x ≠ .notANumber)
    (hy : y ≠ .notANumber) : x.le y = true ↔ rank x ≤ rank y := by
  rcases x with ⟨_ | _⟩ | _ | ⟨_ | _⟩ | ⟨_ | _, m, e, hm⟩
  case notANumber => exact (hx rfl).elim
  all_goals rcases y with ⟨_ | _⟩ | _ | ⟨_ | _⟩ | ⟨_ | _, m', e', hm'⟩
  all_goals first
    | exact (hy rfl).elim
    | clear hx hy
      dsimp only [UnpackedFloat.le, UnpackedFloat.compare, rank]
      simp [Prod.Lex.toLex_le_toLex, compare_signs, isLE_then, isGE_then]

theorem le_iff_rank (x y : UnpackedFloat) :
    x.le y = true ↔ x ≠ .notANumber ∧ y ≠ .notANumber ∧ rank x ≤ rank y := by
  by_cases hx : x = .notANumber
  · subst hx
    have hle : UnpackedFloat.notANumber.le y = false := by cases y <;> rfl
    simp [hle]
  · by_cases hy : y = .notANumber
    · subst hy
      have hle : x.le .notANumber = false := by
        rcases x with ⟨_ | _⟩ | _ | ⟨_ | _⟩ | ⟨_ | _, m, e, hm⟩ <;> rfl
      simp [hle]
    · simp [hx, hy, le_iff_rank_of_numbers hx hy]

theorem compare_swap (x y : UnpackedFloat) : (x.compare y).map Ordering.swap = y.compare x := by
  have hthen : ∀ (e e' : Int) (m m' : Nat),
      ((compare e e').then (compare m m')).swap = (compare e' e).then (compare m' m) := by
    intro e e' m m'
    rw [Ordering.swap_then, ← Std.OrientedCmp.eq_swap, ← Std.OrientedCmp.eq_swap]
  rcases x with ⟨_ | _⟩ | _ | ⟨_ | _⟩ | ⟨_ | _, m, e, hm⟩ <;>
    rcases y with ⟨_ | _⟩ | _ | ⟨_ | _⟩ | ⟨_ | _, m', e', hm'⟩ <;>
    first
      | rfl
      | dsimp only [UnpackedFloat.compare]
        simp [hthen]

theorem compare_eq_none_iff (x y : UnpackedFloat) :
    x.compare y = none ↔ x = .notANumber ∨ y = .notANumber := by
  rcases x with ⟨_ | _⟩ | _ | ⟨_ | _⟩ | ⟨_ | _, m, e, hm⟩ <;>
    rcases y with ⟨_ | _⟩ | _ | ⟨_ | _⟩ | ⟨_ | _, m', e', hm'⟩ <;>
    first
      | exact iff_of_true rfl (.inl rfl)
      | exact iff_of_true rfl (.inr rfl)
      | exact iff_of_false nofun (by rintro (h | h) <;> cases h)

theorem lt_iff_rank (x y : UnpackedFloat) :
    x.lt y = true ↔ x ≠ .notANumber ∧ y ≠ .notANumber ∧ rank x < rank y := by
  have hnone := compare_eq_none_iff x y
  by_cases hnan : x = .notANumber ∨ y = .notANumber
  · have hlt : x.lt y = false := by
      rw [UnpackedFloat.lt, hnone.2 hnan]
      rfl
    rcases hnan with rfl | rfl <;> simp [hlt]
  · obtain ⟨hx, hy⟩ := not_or.1 hnan
    obtain ⟨o, ho⟩ := Option.ne_none_iff_exists'.1 fun h => hnan (hnone.1 h)
    have hle := le_iff_rank_of_numbers hy hx
    rw [UnpackedFloat.le, ← compare_swap, ho] at hle
    rw [← not_le, ← hle, UnpackedFloat.lt, ho]
    cases o <;> simp [hx, hy]

theorem le_trans {x y z : Float} (h : x ≤ y) (h' : y ≤ z) : x ≤ z := by
  have hle : ∀ v w : Float, v ≤ w ↔ v.toModel.unpack.le w.toModel.unpack = true :=
    fun v w => decide_eq_true_iff
  rw [hle, le_iff_rank] at *
  exact ⟨h.1, h'.2.1, h.2.2.trans h'.2.2⟩

theorem lt_of_le_of_lt {x y z : Float} (h : x ≤ y) (h' : y < z) : x < z := by
  have hle : ∀ v w : Float, v ≤ w ↔ v.toModel.unpack.le w.toModel.unpack = true :=
    fun v w => decide_eq_true_iff
  have hlt : ∀ v w : Float, v < w ↔ v.toModel.unpack.lt w.toModel.unpack = true :=
    fun v w => decide_eq_true_iff
  rw [hle, le_iff_rank] at h
  rw [hlt, lt_iff_rank] at *
  exact ⟨h.1, h'.2.1, h.2.2.trans_lt h'.2.2⟩

end Decimal

end ReplyCache
