import ReplyCache.Json.Printer
import ReplyCache.Proofs.Decimal.Binary
import ReplyCache.Proofs.Decimal.Digits
import ReplyCache.Proofs.Json.Literal

namespace ReplyCache

namespace Literal

def shift (l : Literal) : Int :=
  match l.exponent with
  | none => 0
  | some (true, digits) => -(Nat.ofDigitChars 10 digits 0 : Int)
  | some (false, digits) => Nat.ofDigitChars 10 digits 0

def magnitude (l : Literal) : ℚ :=
  Decimal.value (Nat.ofDigitChars 10 (l.whole ++ l.fraction) 0) (l.shift - l.fraction.length)

def ofPositional (negative : Bool) (ds : List Char) (e : Int) : Literal :=
  if e < 0 then ⟨negative, ['0'], List.replicate (-e - 1).toNat '0' ++ ds, none⟩
  else
    let whole := e.toNat + 1
    ⟨negative, ds.take whole ++ List.replicate (whole - ds.length) '0',
      if (ds.drop whole).isEmpty then ['0'] else ds.drop whole, none⟩

def ofScientific (negative : Bool) (ds : List Char) (e : Int) : Literal :=
  ⟨negative, ds.take 1, ds.drop 1, some (e < 0, Nat.toDigits 10 e.natAbs)⟩

def ofBinary (b : Binary) : Literal :=
  if b.significand = 0 then ⟨b.negative, ['0'], ['0'], none⟩
  else
    let (c, k) := Decimal.shortest b.significand b.exponent
    let (ds, e) := Decimal.digits c k
    if Number.leastPositional ≤ e && e ≤ Number.mostPositional then ofPositional b.negative ds e
    else ofScientific b.negative ds e

def ofInt (i : Int) : Literal := ⟨i < 0, Nat.toDigits 10 i.natAbs, [], none⟩

def Leads (ds : List Char) : Prop := AllDigits ds ∧ ∃ d ds', ds = d :: ds' ∧ d ≠ '0'

theorem allDigits_toDigits (n : Nat) : AllDigits (Nat.toDigits 10 n) := fun _ hc =>
  Nat.isDigit_of_mem_toDigits (by omega) (by omega) hc

theorem allDigits_zeros (n : Nat) : AllDigits (List.replicate n '0') := by
  intro c hc
  rw [List.eq_of_mem_replicate hc]
  decide

theorem AllDigits.append {ds es : List Char} (hd : AllDigits ds) (he : AllDigits es) :
    AllDigits (ds ++ es) := by
  intro c hc
  rcases List.mem_append.1 hc with h | h
  · exact hd c h
  · exact he c h

theorem leads_digits {c : Nat} (hc : 0 < c) (k : Int) : Leads (Decimal.digits c k).1 :=
  ⟨fun _ h => Decimal.isDigit_of_mem_digits h, Decimal.digits_head hc k⟩

theorem wellFormed_ofInt (i : Int) : (ofInt i).WellFormed where
  whole := by
    refine ⟨allDigits_toDigits _, ?_⟩
    rcases Nat.eq_zero_or_pos i.natAbs with h0 | hpos
    · exact .inl (by rw [ofInt, h0, Nat.toDigits_zero])
    · exact .inr (Decimal.toDigits_head hpos)
  fraction := by
    intro c hc
    cases hc
  exponent := by
    intro e he
    cases he

theorem wellFormed_ofPositional {ds : List Char} (hd : Leads ds) (negative : Bool) (e : Int) :
    (ofPositional negative ds e).WellFormed := by
  obtain ⟨hall, d, ds', rfl, hne⟩ := hd
  simp only [ofPositional]
  split
  · refine ⟨⟨by simp [AllDigits], .inl rfl⟩, (allDigits_zeros _).append hall, ?_⟩
    intro x hx
    cases hx
  · refine ⟨⟨?_, .inr ⟨d, _, rfl, hne⟩⟩, ?_, ?_⟩
    · exact AllDigits.append (fun c hc => hall c (List.mem_of_mem_take hc)) (allDigits_zeros _)
    · intro c hc
      dsimp only at hc
      split at hc
      · simp_all
      · exact hall c (List.mem_of_mem_drop hc)
    · intro x hx
      cases hx

theorem wellFormed_ofScientific {ds : List Char} (hd : Leads ds) (negative : Bool) (e : Int) :
    (ofScientific negative ds e).WellFormed := by
  obtain ⟨hall, d, ds', rfl, hne⟩ := hd
  refine ⟨⟨fun c hc => hall c (List.mem_of_mem_take hc), .inr ⟨d, _, rfl, hne⟩⟩, ?_, ?_⟩
  · exact fun c hc => hall c (List.mem_of_mem_drop hc)
  · intro x hx
    obtain rfl := Option.some.inj hx
    exact ⟨Nat.toDigits_ne_nil, allDigits_toDigits _⟩

theorem text_ofPositional {ds : List Char} (hd : ds ≠ []) (negative : Bool) (e : Int) :
    (ofPositional negative ds e).text =
      (if negative then ['-'] else []) ++ Number.positional ds e := by
  by_cases he : e < 0
  · have hne : (List.replicate (-e - 1).toNat '0' ++ ds).isEmpty = false := by simp [hd]
    simp only [ofPositional, Number.positional, he, if_true, text, fractionText, hne, exponentText,
      Bool.false_eq_true, if_false, List.append_nil, List.cons_append, List.nil_append]
  · simp only [ofPositional, Number.positional, he, if_false, text, exponentText, List.append_nil]
    cases hdrop : ds.drop (e.toNat + 1) with
    | nil => rfl
    | cons c cs => rfl

theorem text_ofScientific {ds : List Char} (negative : Bool) (e : Int) :
    (ofScientific negative ds e).text =
      (if negative then ['-'] else []) ++ Number.scientific ds e := by
  unfold ofScientific Number.scientific text
  simp [fractionText, exponentText]

theorem ofDigitChars_zeros_append (n : Nat) (ds : List Char) :
    Nat.ofDigitChars 10 (List.replicate n '0' ++ ds) 0 = Nat.ofDigitChars 10 ds 0 := by
  rw [Nat.ofDigitChars_append, Nat.ofDigitChars_replicate_zero, Nat.mul_zero]

theorem value_mul_pow (c n : Nat) (k : Int) :
    Decimal.value (10 ^ n * c) k = Decimal.value c (k + n) := by
  simp only [Decimal.value]
  rw [zpow_add₀ (by norm_num), zpow_natCast]
  push_cast
  ring

theorem magnitude_ofPositional (negative : Bool) (ds : List Char) (e : Int) :
    (ofPositional negative ds e).magnitude =
      Decimal.value (Nat.ofDigitChars 10 ds 0) (e + 1 - ds.length) := by
  by_cases he : e < 0
  · have hzero : ['0'] ++ (List.replicate (-e - 1).toNat '0' ++ ds) =
        List.replicate ((-e - 1).toNat + 1) '0' ++ ds := by
      rw [List.replicate_succ]
      rfl
    simp only [ofPositional, he, if_true, magnitude, shift, hzero]
    rw [ofDigitChars_zeros_append]
    congr 1
    rw [List.length_append, List.length_replicate]
    omega
  · simp only [ofPositional, he, if_false, magnitude, shift]
    rcases Nat.lt_or_ge (e.toNat + 1) ds.length with hlong | hshort
    · -- digits on both sides of the point
      have hsome : (ds.drop (e.toNat + 1)).isEmpty = false := by
        simpa using hlong
      have hnone : e.toNat + 1 - ds.length = 0 := by omega
      simp only [hsome, hnone, List.replicate_zero, List.append_nil, Bool.false_eq_true, if_false,
        List.take_append_drop, List.length_drop]
      congr 1
      omega
    · -- zeros fill up the places before the point
      have hdrop : ds.drop (e.toNat + 1) = [] := List.drop_eq_nil_of_le hshort
      have htake : ds.take (e.toNat + 1) = ds := List.take_of_length_le hshort
      have hzeros : ds ++ List.replicate (e.toNat + 1 - ds.length) '0' ++ ['0'] =
          ds ++ List.replicate (e.toNat + 1 - ds.length + 1) '0' := by
        rw [List.append_assoc, List.replicate_succ']
      simp only [hdrop, htake, List.isEmpty_nil, if_true, List.length_singleton]
      rw [hzeros, Nat.ofDigitChars_append, Nat.ofDigitChars_replicate_zero, value_mul_pow]
      congr 1
      omega

theorem shift_ofScientific (negative : Bool) (ds : List Char) (e : Int) :
    (ofScientific negative ds e).shift = e := by
  by_cases he : e < 0
  · simp only [ofScientific, shift, he, decide_true, Nat.ofDigitChars_ten_toDigits]
    omega
  · simp only [ofScientific, shift, he, decide_false, Nat.ofDigitChars_ten_toDigits]
    omega

theorem magnitude_ofScientific {ds : List Char} (hd : ds ≠ []) (negative : Bool) (e : Int) :
    (ofScientific negative ds e).magnitude =
      Decimal.value (Nat.ofDigitChars 10 ds 0) (e + 1 - ds.length) := by
  have hpos := List.length_pos_iff.2 hd
  simp only [magnitude]
  rw [shift_ofScientific]
  simp only [ofScientific, List.take_append_drop, List.length_drop]
  congr 1
  omega

/-- The literal of a double is exactly the decimal written for it. -/
theorem magnitude_ofBinary {b : Binary} (hpos : 0 < b.significand)
    (hdec : 0 < (Decimal.shortest b.significand b.exponent).1) :
    (ofBinary b).magnitude = Decimal.value (Decimal.shortest b.significand b.exponent).1
      (Decimal.shortest b.significand b.exponent).2 := by
  obtain ⟨d, ds, hds, -⟩ := Decimal.digits_head hdec (Decimal.shortest b.significand b.exponent).2
  rw [← Decimal.value_digits]
  simp only [ofBinary, Nat.pos_iff_ne_zero.1 hpos, if_false]
  split
  · exact magnitude_ofPositional _ _ _
  · exact magnitude_ofScientific (by rw [hds]; simp) _ _

theorem wellFormed_ofBinary {b : Binary}
    (hdec : 0 < b.significand → 0 < (Decimal.shortest b.significand b.exponent).1) :
    (ofBinary b).WellFormed := by
  unfold ofBinary
  split
  · exact ⟨⟨by simp [AllDigits], .inl rfl⟩, by simp [AllDigits], by simp⟩
  · rename_i hne
    have hleads := leads_digits (hdec (Nat.pos_of_ne_zero hne))
    dsimp only
    split
    · exact wellFormed_ofPositional (hleads _) _ _
    · exact wellFormed_ofScientific (hleads _) _ _

end Literal

namespace Number

theorem shortest_pos {x : Float} (h : 0 < (Binary.ofFloat x).significand) :
    0 < (Decimal.shortest (Binary.ofFloat x).significand (Binary.ofFloat x).exponent).1 := by
  have hd := Binary.isDouble_ofFloat h
  obtain ⟨hlow, -, -⟩ := Decimal.roundsTo_bounds h (Decimal.roundsTo_shortest hd)
  apply Nat.pos_of_ne_zero
  intro h0
  rw [h0] at hlow
  have hm : (1 : ℚ) ≤ (Binary.ofFloat x).significand := by exact_mod_cast h
  have hr : (Decimal.reach (Binary.ofFloat x).significand (Binary.ofFloat x).exponent : ℚ) ≤ 2 := by
    exact_mod_cast Decimal.reach_le _ _
  have hpos := mul_pos (by linarith : (0 : ℚ) < 4 * (Binary.ofFloat x).significand -
    Decimal.reach (Binary.ofFloat x).significand (Binary.ofFloat x).exponent)
    (Decimal.quarterUnit_pos (Binary.ofFloat x).exponent)
  simp only [Decimal.value, Nat.cast_zero, zero_mul] at hlow
  linarith

def literal : Number → Literal
  | integer i _ => Literal.ofInt i
  | float x _ => Literal.ofBinary (Binary.ofFloat x)

theorem wellFormed_literal (n : Number) : n.literal.WellFormed := by
  cases n with
  | integer i h => exact Literal.wellFormed_ofInt i
  | float x h => exact Literal.wellFormed_ofBinary shortest_pos

theorem chars_eq_text (n : Number) : n.chars = n.literal.text := by
  cases n with
  | integer i h =>
      simp only [chars, intText, literal, Literal.ofInt, Literal.text]
      by_cases hneg : i < 0 <;>
        simp [hneg, Literal.fractionText, Literal.exponentText]
  | float x h =>
      simp only [chars, floatText, literal, Literal.ofBinary]
      by_cases hzero : (Binary.ofFloat x).significand = 0
      · simp only [hzero, if_true]
        cases (Binary.ofFloat x).negative <;> rfl
      · obtain ⟨d, ds, hds, -⟩ := Decimal.digits_head (shortest_pos (Nat.pos_of_ne_zero hzero))
          (Decimal.shortest (Binary.ofFloat x).significand (Binary.ofFloat x).exponent).2
        have hne : (Decimal.digits (Decimal.shortest (Binary.ofFloat x).significand
            (Binary.ofFloat x).exponent).1 (Decimal.shortest (Binary.ofFloat x).significand
            (Binary.ofFloat x).exponent).2).1 ≠ [] := by
          rw [hds]
          exact List.cons_ne_nil _ _
        simp only [hzero, if_false, magnitude]
        rw [apply_ite Literal.text, Literal.text_ofPositional hne, Literal.text_ofScientific,
          ← apply_ite]
        cases (Binary.ofFloat x).negative <;> rfl

/-- A number is read back as its literal, up to what follows it. -/
theorem read?_chars (n : Number) {rest : List Char} (h : Literal.Stops rest) :
    Literal.read? (n.chars ++ rest) = some (n.literal, rest) := by
  rw [chars_eq_text]
  exact Literal.read?_text n.wellFormed_literal h

theorem ofInt_injective {i j : Int} (h : Literal.ofInt i = Literal.ofInt j) : i = j := by
  have hsign := congrArg Literal.negative h
  have hwhole := congrArg Literal.whole h
  simp only [Literal.ofInt, decide_eq_decide] at hsign hwhole
  have habs := congrArg (fun ds => Nat.ofDigitChars 10 ds 0) hwhole
  simp only [Nat.ofDigitChars_ten_toDigits] at habs
  omega

theorem magnitude_of_zero {b : Binary} (h : b.significand = 0) :
    (Literal.ofBinary b).magnitude = 0 := by
  simp [Literal.ofBinary, h, Literal.magnitude, Decimal.value, Nat.ofDigitChars]

theorem magnitude_pos {x : Float} (h : 0 < (Binary.ofFloat x).significand) :
    0 < (Literal.ofBinary (Binary.ofFloat x)).magnitude := by
  rw [Literal.magnitude_ofBinary h (shortest_pos h)]
  have hc : (0 : ℚ) < (Decimal.shortest (Binary.ofFloat x).significand
    (Binary.ofFloat x).exponent).1 := by exact_mod_cast shortest_pos h
  simp only [Decimal.value]
  positivity

theorem negative_ofBinary (b : Binary) : (Literal.ofBinary b).negative = b.negative := by
  unfold Literal.ofBinary Literal.ofPositional Literal.ofScientific
  split
  · rfl
  · dsimp only
    split
    · split <;> rfl
    · rfl

theorem ofBinary_injective {x y : Float}
    (h : Literal.ofBinary (Binary.ofFloat x) = Literal.ofBinary (Binary.ofFloat y)) : x = y := by
  have hneg : (Binary.ofFloat x).negative = (Binary.ofFloat y).negative := by
    rw [← negative_ofBinary, h, negative_ofBinary]
  apply Binary.ofFloat_injective
  rcases Nat.eq_zero_or_pos (Binary.ofFloat x).significand with hx | hx <;>
    rcases Nat.eq_zero_or_pos (Binary.ofFloat y).significand with hy | hy
  · have hq : (Binary.ofFloat x).exponent = (Binary.ofFloat y).exponent := by
      rw [Binary.exponent_ofFloat_of_zero hx, Binary.exponent_ofFloat_of_zero hy]
    exact Binary.eq_of_parts hneg (hx.trans hy.symm) hq
  · have hpos := magnitude_pos hy
    rw [← h, magnitude_of_zero hx] at hpos
    exact (lt_irrefl _ hpos).elim
  · have hpos := magnitude_pos hx
    rw [h, magnitude_of_zero hy] at hpos
    exact (lt_irrefl _ hpos).elim
  · have hval := congrArg Literal.magnitude h
    rw [Literal.magnitude_ofBinary hx (shortest_pos hx),
      Literal.magnitude_ofBinary hy (shortest_pos hy)] at hval
    have hdx := Binary.isDouble_ofFloat hx
    have hdy := Binary.isDouble_ofFloat hy
    obtain ⟨hm, hq⟩ := Decimal.eq_of_roundsTo hdx hdy (Decimal.roundsTo_shortest hdx)
      (Decimal.roundsTo_shortest hdy) hval
    exact Binary.eq_of_parts hneg hm hq

theorem real_ofBinary {b : Binary}
    (hdec : 0 < b.significand → 0 < (Decimal.shortest b.significand b.exponent).1) :
    (Literal.ofBinary b).fraction ≠ [] ∨ (Literal.ofBinary b).exponent ≠ none := by
  unfold Literal.ofBinary
  split
  · simp
  · rename_i hne
    obtain ⟨d, ds, hds, -⟩ := Decimal.digits_head (hdec (Nat.pos_of_ne_zero hne))
      (Decimal.shortest b.significand b.exponent).2
    dsimp only
    split
    · left
      rw [hds]
      unfold Literal.ofPositional
      split
      · simp
      · dsimp only
        split
        · simp
        · rename_i hdrop
          simpa using hdrop
    · exact .inr nofun

theorem ofBinary_ne_ofInt {b : Binary}
    (hdec : 0 < b.significand → 0 < (Decimal.shortest b.significand b.exponent).1) (i : Int) :
    Literal.ofBinary b ≠ Literal.ofInt i := by
  intro h
  have hreal := real_ofBinary hdec
  rw [h] at hreal
  simp [Literal.ofInt] at hreal

theorem literal_injective {n n' : Number} (h : n.literal = n'.literal) : n = n' := by
  cases n with
  | integer i hi =>
      cases n' with
      | integer j hj =>
          obtain rfl := ofInt_injective h
          rfl
      | float y hy => exact (ofBinary_ne_ofInt shortest_pos _ h.symm).elim
  | float x hx =>
      cases n' with
      | integer j hj => exact (ofBinary_ne_ofInt shortest_pos _ h).elim
      | float y hy =>
          obtain rfl := ofBinary_injective h
          rfl

end Number

end ReplyCache
