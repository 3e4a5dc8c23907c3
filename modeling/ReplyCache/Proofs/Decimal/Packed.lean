import Mathlib.Data.BitVec
import ReplyCache.Proofs.Decimal.Binary
import ReplyCache.Proofs.Decimal.Rounding

namespace ReplyCache

namespace Decimal

open Float.Model (Format UnpackedFloat)
open Float.Model.UnpackedFloat

def greatestExponent : Int := 971

def signOf (negative : Bool) : Sign := if negative then .negative else .positive

theorem toNat_unpackMantissa (b : BitVec 64) :
    (@unpackMantissa Format.binary64 b).toNat = b.toNat % Binary.leadingBit := by
  simp [unpackMantissa, Binary.leadingBit]

theorem toNat_unpackExponent (b : BitVec 64) :
    (@unpackExponent Format.binary64 b).toNat = b.toNat / Binary.leadingBit % 2048 := by
  simp [unpackExponent, Binary.leadingBit, Nat.shiftRight_eq_div_pow]

theorem ofBitVec_unpackSign (b : BitVec 64) :
    Sign.ofBitVec (@unpackSign Format.binary64 b) =
      signOf (b.toNat / 0x8000000000000000 = 1) := by
  have htop : (@unpackSign Format.binary64 b).toNat = b.toNat / 0x8000000000000000 := by
    have hlt := b.isLt
    change (BitVec.cast rfl (BitVec.extractLsb 63 63 b) : BitVec 1).toNat = _
    simp only [BitVec.toNat_cast, BitVec.extractLsb_toNat, Nat.shiftRight_eq_div_pow]
    omega
  have hlt := b.isLt
  have hzero : @unpackSign Format.binary64 b = 0#1 ↔ b.toNat / 0x8000000000000000 = 0 := by
    rw [← BitVec.toNat_inj, htop]
    rfl
  unfold Sign.ofBitVec signOf
  simp only [hzero, decide_eq_true_eq]
  split <;> split <;> first | rfl | omega

theorem toNat_append_leading (v : BitVec 52) : (1#1 ++ v).toNat = Binary.leadingBit + v.toNat := by
  rw [BitVec.toNat_append, ← Nat.shiftLeft_add_eq_or_of_lt v.isLt]
  rfl

theorem finite_eq_ofParts {s : Sign} {m m' : Nat} {q q' : Int} {hm : 0 < m} (hmm : m = m')
    (hqq : q = q') : UnpackedFloat.finite s m q hm = ofParts s m' q' := by
  subst hmm hqq
  rw [ofParts, dif_neg hm.ne']

theorem unpack_eq_of_fields {b : BitVec 64} {e m : Nat} {s : Sign}
    (he : (@unpackExponent Format.binary64 b).toNat = e)
    (hm : (@unpackMantissa Format.binary64 b).toNat = m)
    (hs : Sign.ofBitVec (@unpackSign Format.binary64 b) = s) :
    unpack Format.binary64 b =
      if e = 2047 then if m = 0 then .infinity s else .notANumber
      else if e = 0 then ofParts s m Binary.leastExponent
      else ofParts s (Binary.leadingBit + m) ((e : Int) - 1 + Binary.leastExponent) := by
  have hspecial : @unpackExponent Format.binary64 b = -1#11 ↔ e = 2047 := by
    rw [← BitVec.toNat_inj, he]
    rfl
  have hfoot : @unpackExponent Format.binary64 b = 0#11 ↔ e = 0 := by
    rw [← BitVec.toNat_inj, he]
    rfl
  have hzero : @unpackMantissa Format.binary64 b = 0#52 ↔ m = 0 := by
    rw [← BitVec.toNat_inj, hm]
    rfl
  have hbias : ((Format.binary64.exponentBias : Nat) : Int) = 1023 := rfl
  have hleast : Binary.leastExponent = -1074 := rfl
  subst hs
  delta UnpackedFloat.unpack
  dsimp only
  by_cases he' : e = 2047
  · rw [if_pos (hspecial.2 he'), if_pos he']
    by_cases hm' : m = 0
    · rw [if_pos (hzero.2 hm'), if_pos hm']
    · rw [if_neg (hzero.not.2 hm'), if_neg hm']
  · rw [if_neg (hspecial.not.2 he'), if_neg he']
    by_cases h0 : e = 0
    · rw [if_pos (hfoot.2 h0), if_pos h0]
      by_cases hm' : m = 0
      · rw [dif_pos (hzero.2 hm'), ofParts, dif_pos hm']
      · rw [dif_neg (hzero.not.2 hm')]
        refine finite_eq_ofParts hm ?_
        rw [he, h0, hbias, hleast]
        rfl
    · rw [if_neg (hfoot.not.2 h0), if_neg h0]
      refine finite_eq_ofParts ?_ ?_
      · rw [toNat_append_leading, hm]
      · rw [he, hbias, hleast]
        omega

theorem unpack_toModel (x : Float) :
    x.toModel.unpack =
      if greatestExponent < (Binary.ofFloat x).exponent then
        if (Binary.ofFloat x).significand = Binary.leadingBit then
          .infinity (signOf (Binary.ofFloat x).negative)
        else .notANumber
      else ofParts (signOf (Binary.ofFloat x).negative) (Binary.ofFloat x).significand
        (Binary.ofFloat x).exponent := by
  obtain ⟨e, he⟩ : ∃ e, x.toBits.toNat / Binary.leadingBit % 2048 = e := ⟨_, rfl⟩
  obtain ⟨m, hm⟩ : ∃ m, x.toBits.toNat % Binary.leadingBit = m := ⟨_, rfl⟩
  obtain ⟨negative, hs⟩ : ∃ negative : Bool,
    decide (x.toBits.toNat / 0x8000000000000000 = 1) = negative := ⟨_, rfl⟩
  have hunpack : x.toModel.unpack = _ := unpack_eq_of_fields
    ((toNat_unpackExponent x.toBits.toBitVec).trans he) ((toNat_unpackMantissa _).trans hm)
    ((ofBitVec_unpackSign _).trans (congrArg signOf hs))
  have hleast : Binary.leastExponent = -1074 := rfl
  have hgreatest : greatestExponent = 971 := rfl
  rw [hunpack]
  unfold Binary.ofFloat
  simp only [he, hm, hs]
  by_cases hfoot : e = 0
  · simp only [if_pos hfoot]
    rw [if_neg (by omega), if_neg (by decide)]
  · simp only [if_neg hfoot]
    by_cases hspecial : e = 2047
    · have habove : greatestExponent < (e : Int) - 1 + Binary.leastExponent := by omega
      rw [if_pos hspecial, if_pos habove]
      simp
    · rw [if_neg hspecial, if_neg (by omega)]

theorem isFinite_ofParts (s : Sign) (m : Nat) (q : Int) : (ofParts s m q).isFinite = true := by
  by_cases hm : m = 0
  · rw [ofParts, dif_pos hm]
    rfl
  · rw [ofParts, dif_neg hm]
    rfl

theorem isFinite_iff (x : Float) :
    x.isFinite = true ↔ (Binary.ofFloat x).exponent ≤ greatestExponent := by
  change x.toModel.unpack.isFinite = true ↔ _
  rw [unpack_toModel, ← not_lt]
  by_cases h : greatestExponent < (Binary.ofFloat x).exponent
  · refine iff_of_false ?_ (not_not.2 h)
    rw [if_pos h]
    by_cases hm : (Binary.ofFloat x).significand = Binary.leadingBit
    · rw [if_pos hm]
      exact Bool.false_ne_true
    · rw [if_neg hm]
      exact Bool.false_ne_true
  · rw [if_neg h]
    exact iff_of_true (isFinite_ofParts _ _ _) h

/-- Operations on finite doubles compute with their parts. -/
theorem unpack_eq_ofParts {x : Float} (h : x.isFinite = true) :
    x.toModel.unpack = ofParts (signOf (Binary.ofFloat x).negative)
      (Binary.ofFloat x).significand (Binary.ofFloat x).exponent := by
  rw [unpack_toModel, if_neg (not_lt.2 ((isFinite_iff x).1 h))]

theorem inFormat_ofFloat (x : Float) :
    InFormat (Binary.ofFloat x).significand (Binary.ofFloat x).exponent := by
  rcases Nat.eq_zero_or_pos (Binary.ofFloat x).significand with hzero | hpos
  · rw [hzero, Binary.exponent_ofFloat_of_zero hzero]
    exact ⟨by decide, le_refl _, .inl rfl⟩
  · exact (Binary.isDouble_ofFloat hpos).inFormat

def signBit (negative : Bool) : Nat := if negative then 0x8000000000000000 else 0

theorem toNat_packComponents (negative : Bool) (e : BitVec 11) (m : BitVec 52) :
    (packComponents Format.binary64 (signOf negative) e m).toNat =
      signBit negative + e.toNat * Binary.leadingBit + m.toNat := by
  have hlead : Binary.leadingBit = 2 ^ 52 := by norm_num [Binary.leadingBit]
  change (((signOf negative).toBitVec ++ e : BitVec 12) ++ m).toNat = _
  rw [BitVec.toNat_append, ← Nat.shiftLeft_add_eq_or_of_lt m.isLt, BitVec.toNat_append,
    ← Nat.shiftLeft_add_eq_or_of_lt e.isLt, Nat.shiftLeft_eq, Nat.shiftLeft_eq, hlead]
  cases negative with
  | false => simp [signOf, signBit, Sign.toBitVec]
  | true =>
      simp [signOf, signBit, Sign.toBitVec]
      ring

theorem toNat_pack (negative : Bool) {m : Nat} {q : Int} (h : InFormat m q)
    (hq : q ≤ greatestExponent) :
    (UnpackedFloat.pack Format.binary64 (ofParts (signOf negative) m q)).toNat =
      signBit negative + if m < Binary.leadingBit then m
        else (q - Binary.leastExponent).toNat * Binary.leadingBit + m := by
  obtain ⟨hbounded, hfloor, -⟩ := h
  have hleast : Binary.leastExponent = -1074 := rfl
  have hgreatest : greatestExponent = 971 := rfl
  have hlead : Binary.leadingBit = 4503599627370496 := rfl
  by_cases hzero : m = 0
  · rw [ofParts, dif_pos hzero, hzero, if_pos (by decide)]
    refine (toNat_packComponents negative 0#11 0#52).trans ?_
    simp
  · have hbias : q + Format.binary64.exponentBias + Format.binary64.mantissaBitsWithoutImplicit =
        q + 1075 := by
      change q + 1023 + 52 = q + 1075
      omega
    have hdigits : m.log2 + 1 = Format.binary64.mantissaBits ↔ ¬ m < Binary.leadingBit := by
      have hlow := Nat.log2_lt hzero (k := 52)
      have hhigh := Nat.log2_lt hzero (k := 53)
      change m.log2 + 1 = 1 + 52 ↔ _
      omega
    have hfinite : ¬ 2 ^ Format.binary64.exponentBits ≤ (q + 1075).toNat + 1 := by
      change ¬ 2048 ≤ _
      omega
    have hm : (BitVec.ofNat 52 m).toNat = m % Binary.leadingBit := BitVec.toNat_ofNat m 52
    have he : (BitVec.ofNat 11 (q + 1075).toNat).toNat = (q - Binary.leastExponent).toNat + 1 := by
      rw [BitVec.toNat_ofNat]
      omega
    rw [ofParts, dif_neg hzero]
    delta UnpackedFloat.pack
    dsimp only
    rw [hbias, if_neg hfinite]
    by_cases hsmall : m < Binary.leadingBit
    · rw [if_neg (hdigits.not.2 (not_not.2 hsmall)), if_pos hsmall]
      refine (toNat_packComponents negative 0#11 (BitVec.ofNat 52 m)).trans ?_
      rw [hm, Nat.mod_eq_of_lt hsmall]
      simp
    · rw [if_pos (hdigits.2 hsmall), if_neg hsmall]
      refine (toNat_packComponents negative (BitVec.ofNat 11 (q + 1075).toNat)
        (BitVec.ofNat 52 m)).trans ?_
      rw [hm, he, hlead]
      omega

/-- A result is packed into a double of its parts. -/
theorem ofFloat_pack (negative : Bool) {m : Nat} {q : Int} (h : InFormat m q)
    (hq : q ≤ greatestExponent) :
    Binary.ofFloat (.ofModel (.pack (ofParts (signOf negative) m q))) = ⟨negative, m, q⟩ := by
  have hbits : (Float.ofModel (.pack (ofParts (signOf negative) m q))).toBits.toNat = _ :=
    toNat_pack negative h hq
  obtain ⟨hbounded, hfloor, hnormal⟩ := h
  have hsign : signBit negative = if negative then 0x8000000000000000 else 0 := rfl
  unfold Binary.ofFloat
  rw [hbits]
  unfold Binary.leadingBit Binary.leastExponent greatestExponent at *
  dsimp only
  by_cases hsmall : m < 0x10000000000000
  · rw [if_pos hsmall, if_pos (by split at hsign <;> omega)]
    refine Binary.eq_of_parts ?_ ?_ (hnormal.resolve_right (by omega)).symm
    · cases negative <;> simp only [hsign] <;> simp <;> omega
    · dsimp only
      split at hsign <;> omega
  · rw [if_neg hsmall, if_neg (by split at hsign <;> omega)]
    refine Binary.eq_of_parts ?_ ?_ ?_
    · cases negative <;> simp only [hsign] <;> simp <;> omega
    · dsimp only
      split at hsign <;> omega
    · dsimp only
      split at hsign <;> omega

theorem isFinite_neg {x : Float} (h : x.isFinite = true) : (-x).isFinite = true := by
  have hneg : ∀ (b : Bool) (m : Nat) (q : Int),
      (ofParts (signOf b) m q).neg = ofParts (signOf !b) m q := by
    intro b m q
    by_cases hm : m = 0
    · rw [ofParts, ofParts, dif_pos hm, dif_pos hm]
      cases b <;> rfl
    · rw [ofParts, ofParts, dif_neg hm, dif_neg hm]
      cases b <;> rfl
  change (Float.ofModel (.pack x.toModel.unpack.neg)).isFinite = true
  rw [unpack_eq_ofParts h, hneg, isFinite_iff,
    ofFloat_pack _ (inFormat_ofFloat x) ((isFinite_iff x).1 h)]
  exact (isFinite_iff x).1 h

end Decimal

end ReplyCache
