import ReplyCache.Text.Blank
import ReplyCache.Yaml.Resolve

namespace ReplyCache

namespace Text

variable {x : Char}

theorem ne_of_isBlank {y : Char} (hx : isBlank x = true) (hy : isBlank y = false) : x ≠ y := by
  rintro rfl
  rw [hx] at hy
  cases hy

theorem cons_ne_of_isBlank {y : Char} {xs ys : List Char} (hx : isBlank x = true)
    (hy : isBlank y = false) : x :: xs ≠ y :: ys :=
  fun h => ne_of_isBlank hx hy (List.cons.inj h).1

/-- Digits and letters lie between the blanks of ASCII and all others. -/
theorem not_between_of_isBlank {a b : Char} (hx : isBlank x = true) (ha : 0x20 < a.toNat)
    (hb : b.toNat < 0x85) : ¬(a ≤ x ∧ x ≤ b) := by
  rintro ⟨hax, hxb⟩
  have hfrom : a.toNat ≤ x.toNat := UInt32.le_iff_toNat_le.1 hax
  have hto : x.toNat ≤ b.toNat := UInt32.le_iff_toNat_le.1 hxb
  simp only [isBlank, Bool.or_eq_true, Bool.and_eq_true, decide_eq_true_eq] at hx
  omega

theorem isDigit_of_isBlank (hx : isBlank x = true) : x.isDigit = false := by
  refine Bool.eq_false_iff.2 fun h => ?_
  obtain ⟨hfrom, hto⟩ := Bool.and_eq_true_iff.1 h
  exact not_between_of_isBlank (a := '0') (b := '9') hx (by decide) (by decide)
    ⟨of_decide_eq_true hfrom, of_decide_eq_true hto⟩

theorem digit?_of_isBlank (hx : isBlank x = true) : digit? x = none := by
  have hlower := not_between_of_isBlank (a := 'a') (b := 'f') hx (by decide) (by decide)
  have hupper := not_between_of_isBlank (a := 'A') (b := 'F') hx (by decide) (by decide)
  rw [digit?, isDigit_of_isBlank hx, if_neg (by decide), if_neg (by simpa using hlower),
    if_neg (by simpa using hupper)]

theorem natural?_of_isBlank {base : Nat} {xs : List Char} (hx : isBlank x = true) :
    natural? base (x :: xs) = none := by
  have hdigit : digitIn? base x = none := by
    rw [digitIn?, digit?_of_isBlank hx]
    rfl
  simp [natural?, hdigit]

end Text

namespace Yaml

namespace Resolve

variable {x : Char} {xs : List Char}

theorem isPadded_of_isBlank (hx : Text.isBlank x = true) : isPadded (x :: xs) = false := by
  rw [isPadded]
  exact fun _ _ => Text.cons_ne_of_isBlank hx (by decide)

theorem magnitude?_of_isBlank (hx : Text.isBlank x = true) : magnitude? (x :: xs) = none := by
  rw [magnitude?, isPadded_of_isBlank hx, Text.natural?_of_isBlank hx]
  · rfl
  all_goals exact fun _ => Text.cons_ne_of_isBlank hx (by decide)

theorem unsign_of_isBlank (hx : Text.isBlank x = true) : unsign (x :: xs) = (false, x :: xs) := by
  rw [unsign]
  all_goals exact fun _ => Text.cons_ne_of_isBlank hx (by decide)

theorem decimal?_of_isBlank (hx : Text.isBlank x = true) : decimal? (x :: xs) = none := by
  have hdigit : ¬x.isDigit = true := by simp [Text.isDigit_of_isBlank hx]
  have hexponent : exponent? (x :: xs) = none := by
    have he : x ≠ 'e' := Text.ne_of_isBlank hx (by decide)
    have hE : x ≠ 'E' := Text.ne_of_isBlank hx (by decide)
    simp [exponent?, he, hE]
  -- The match on the point is reduced by this.
  have hpoint (ys : List Char) : x :: xs ≠ '.' :: ys := Text.cons_ne_of_isBlank hx (by decide)
  simp only [decimal?, List.takeWhile_cons_of_neg hdigit, List.dropWhile_cons_of_neg hdigit,
    hexponent]
  rfl

variable {s : String}

def words : List String :=
  ["", "null", "Null", "NULL", "~", "true", "True", "TRUE", "false", "False", "FALSE", ".nan",
    ".NaN", ".NAN"]

theorem ne_word_of_isBlank (hs : s.toList = x :: xs) (hx : Text.isBlank x = true) :
    ∀ w ∈ words, s ≠ w := by
  have hwords : (words.all fun w => w.toList.head?.all (!Text.isBlank ·)) = true := by
    decide +kernel
  rintro w hw rfl
  have hnot := List.all_eq_true.1 hwords s hw
  simp [hs, hx] at hnot

theorem int?_of_isBlank (hs : s.toList = x :: xs) (hx : Text.isBlank x = true) :
    int? s = none := by
  rw [int?, hs]
  split
  · next heq => exact absurd heq (Text.cons_ne_of_isBlank hx (by decide))
  · next heq => exact absurd heq (Text.cons_ne_of_isBlank hx (by decide))
  · rw [magnitude?_of_isBlank hx]
    rfl

theorem float?_of_isBlank (hs : s.toList = x :: xs) (hx : Text.isBlank x = true) :
    float? s = none := by
  have hwords := ne_word_of_isBlank hs hx
  simp only [words, List.forall_mem_cons] at hwords
  have hinfinity : isInfinity (x :: xs) = false := by
    have hpoint : x ≠ '.' := Text.ne_of_isBlank hx (by decide)
    simp [isInfinity, hpoint]
  simp [float?, hs, unsign_of_isBlank hx, hinfinity, hwords, decimal?_of_isBlank hx]

theorem value?_of_isBlank (hs : s.toList = x :: xs) (hx : Text.isBlank x = true) :
    value? s = some (.string s) := by
  have hwords := ne_word_of_isBlank hs hx
  simp only [words, List.forall_mem_cons] at hwords
  have hnull : isNull s = false := by simp [isNull, hwords]
  have hbool : bool? s = none := by simp [bool?, hwords]
  have hnumber : value?.number s = .string s := by
    rw [value?.number, hs, unsign_of_isBlank hx, isPadded_of_isBlank hx, float?_of_isBlank hs hx]
    rfl
  simp [value?, hwords, hnull, hbool, int?_of_isBlank hs hx, hnumber]

end Resolve

end Yaml

end ReplyCache
