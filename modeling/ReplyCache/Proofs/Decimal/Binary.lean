import ReplyCache.Proofs.Decimal.Interval

namespace ReplyCache

namespace Binary

theorem eq_of_parts {b b' : Binary} (hneg : b.negative = b'.negative)
    (hsig : b.significand = b'.significand) (hexp : b.exponent = b'.exponent) : b = b' := by
  cases b
  cases b'
  simp_all

theorem eq_of_toBits_eq {x y : Float} (h : x.toBits = y.toBits) : x = y := by
  obtain ⟨⟨bits, valid⟩⟩ := x
  obtain ⟨⟨bits', valid'⟩⟩ := y
  obtain rfl : bits = bits' := h
  rfl

/-- The sign, the biased exponent and the fraction are what the bits are made of. -/
theorem ofFloat_injective {x y : Float} (h : ofFloat x = ofFloat y) : x = y := by
  have hx := x.toBits.toNat_lt
  have hy := y.toBits.toNat_lt
  have hneg : (ofFloat x).negative = (ofFloat y).negative := by rw [h]
  have hsig : (ofFloat x).significand = (ofFloat y).significand := by rw [h]
  have hexp : (ofFloat x).exponent = (ofFloat y).exponent := by rw [h]
  refine eq_of_toBits_eq (UInt64.toNat_inj.1 ?_)
  unfold ofFloat leadingBit leastExponent at hneg hsig hexp
  generalize x.toBits.toNat = n at *
  generalize y.toBits.toNat = n' at *
  dsimp only at hneg hsig hexp
  split at hneg <;> split at hneg <;> simp_all only [if_true, if_false, decide_eq_decide] <;> omega

theorem isDouble_ofFloat {x : Float} (h : 0 < (ofFloat x).significand) :
    Decimal.IsDouble (ofFloat x).significand (ofFloat x).exponent := by
  unfold ofFloat leadingBit leastExponent at h ⊢
  generalize x.toBits.toNat = n at h ⊢
  dsimp only at h ⊢
  split at h
  · rename_i hz
    rw [if_pos hz]
    refine ⟨h, ?_, Int.le_refl _, .inl rfl⟩
    unfold leadingBit
    dsimp only
    omega
  · rename_i hz
    rw [if_neg hz]
    refine ⟨h, ?_, ?_, .inr ?_⟩
    · unfold leadingBit
      dsimp only
      omega
    · unfold leastExponent
      dsimp only
      omega
    · unfold leadingBit
      dsimp only
      omega

theorem exponent_ofFloat_of_zero {x : Float} (h : (ofFloat x).significand = 0) :
    (ofFloat x).exponent = leastExponent := by
  unfold ofFloat at h ⊢
  dsimp only at h ⊢
  split
  · rfl
  · rename_i hne
    rw [if_neg hne] at h
    simp only [leadingBit] at h
    omega

end Binary

end ReplyCache
