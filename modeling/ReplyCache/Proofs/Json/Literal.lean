import Mathlib.Data.List.Basic
import ReplyCache.Json.Literal

namespace ReplyCache

namespace Literal

def fractionText (fraction : List Char) : List Char :=
  if fraction.isEmpty then [] else '.' :: fraction

def exponentText : Option (Bool × List Char) → List Char
  | none => []
  | some (negative, digits) => 'e' :: (if negative then '-' else '+') :: digits

def text (l : Literal) : List Char :=
  (if l.negative then ['-'] else []) ++
    (l.whole ++ (fractionText l.fraction ++ exponentText l.exponent))

def AllDigits (cs : List Char) : Prop := ∀ c ∈ cs, c.isDigit = true

def IsWhole (cs : List Char) : Prop :=
  AllDigits cs ∧ (cs = ['0'] ∨ ∃ d ds, cs = d :: ds ∧ d ≠ '0')

structure WellFormed (l : Literal) : Prop where
  whole : IsWhole l.whole
  fraction : AllDigits l.fraction
  exponent : ∀ e, l.exponent = some e → e.2 ≠ [] ∧ AllDigits e.2

def goesOn (c : Char) : Bool := c.isDigit || c = '.' || isExponentMark c

/-- What follows a number does not go on with it. -/
def Stops (rest : List Char) : Prop := ∀ c, rest.head? = some c → goesOn c = false

theorem stops_nil : Stops [] := by
  intro c h
  cases h

theorem stops_cons {c : Char} (h : goesOn c = false) (cs : List Char) : Stops (c :: cs) := by
  intro d hd
  obtain rfl := Option.some.inj hd
  exact h

def NoDigit (rest : List Char) : Prop := ∀ c, rest.head? = some c → c.isDigit = false

theorem noDigit_cons {c : Char} (h : c.isDigit = false) (cs : List Char) : NoDigit (c :: cs) := by
  intro d hd
  obtain rfl := Option.some.inj hd
  exact h

theorem Stops.noDigit {rest : List Char} (h : Stops rest) : NoDigit rest := by
  intro c hc
  have hgo := h c hc
  simp only [goesOn, Bool.or_eq_false_iff] at hgo
  exact hgo.1.1

theorem takeWhile_digits {ds rest : List Char} (hd : AllDigits ds) (hr : NoDigit rest) :
    (ds ++ rest).takeWhile Char.isDigit = ds := by
  rw [List.takeWhile_append_of_pos hd]
  cases rest with
  | nil => simp
  | cons c cs =>
      rw [List.takeWhile_cons_of_neg (by simp [hr c rfl]), List.append_nil]

theorem dropWhile_digits {ds rest : List Char} (hd : AllDigits ds) (hr : NoDigit rest) :
    (ds ++ rest).dropWhile Char.isDigit = rest := by
  rw [List.dropWhile_append_of_pos hd]
  cases rest with
  | nil => rfl
  | cons c cs => rw [List.dropWhile_cons_of_neg (by simp [hr c rfl])]

theorem readWhole?_append {ds rest : List Char} (hd : IsWhole ds) (hr : NoDigit rest) :
    readWhole? (ds ++ rest) = some (ds, rest) := by
  obtain ⟨hall, rfl | ⟨d, ds, rfl, hne⟩⟩ := hd
  · cases rest with
    | nil => rfl
    | cons c cs => simp [readWhole?, hr c rfl]
  · have htake := takeWhile_digits hall hr
    have hdrop := dropWhile_digits hall hr
    simp only [List.cons_append] at htake hdrop ⊢
    simp only [readWhole?]
    split
    · rename_i heq
      exact (hne (List.cons.inj heq).1).elim
    · rw [htake, hdrop]
      rfl

theorem readFraction?_append {ds rest : List Char} (hd : AllDigits ds) (hr : NoDigit rest)
    (hpoint : ∀ cs, rest ≠ '.' :: cs) :
    readFraction? (fractionText ds ++ rest) = some (ds, rest) := by
  cases ds with
  | nil =>
      simp only [fractionText, List.isEmpty_nil, if_true, List.nil_append]
      unfold readFraction?
      split
      · exact (hpoint _ rfl).elim
      · rfl
  | cons d ds =>
      simp only [fractionText, List.isEmpty_cons, Bool.false_eq_true, if_false, List.cons_append,
        readFraction?]
      rw [← List.cons_append, takeWhile_digits hd hr, dropWhile_digits hd hr]
      rfl

theorem readExponent?_append {negative : Bool} {ds rest : List Char} (hne : ds ≠ [])
    (hd : AllDigits ds) (hr : NoDigit rest) :
    readExponent? ((if negative then '-' else '+') :: (ds ++ rest)) =
      some ((negative, ds), rest) := by
  have hempty : ds.isEmpty = false := by simpa using hne
  cases negative <;>
    simp [readExponent?, takeWhile_digits hd hr, dropWhile_digits hd hr, hempty]

theorem exponentText_noDigit {e : Option (Bool × List Char)} {rest : List Char} (hr : Stops rest) :
    NoDigit (exponentText e ++ rest) := by
  cases e with
  | none => exact hr.noDigit
  | some e => exact noDigit_cons (by decide) _

theorem exponentText_ne_point {e : Option (Bool × List Char)} {rest : List Char} (hr : Stops rest)
    (cs : List Char) : exponentText e ++ rest ≠ '.' :: cs := by
  cases e with
  | none =>
      intro h
      rw [exponentText, List.nil_append] at h
      have hpoint := hr '.' (by rw [h]; rfl)
      simp [goesOn] at hpoint
  | some e => simp [exponentText]

theorem fractionText_noDigit (ds : List Char) {rest : List Char} (hr : NoDigit rest) :
    NoDigit (fractionText ds ++ rest) := by
  cases ds with
  | nil => exact hr
  | cons d ds => exact noDigit_cons (by decide) _

theorem readMinus_append {ds : List Char} (hd : IsWhole ds) (negative : Bool) (rest : List Char) :
    readMinus ((if negative then ['-'] else []) ++ (ds ++ rest)) = (negative, ds ++ rest) := by
  cases negative with
  | true => rfl
  | false =>
      simp only [Bool.false_eq_true, if_false, List.nil_append]
      simp only [readMinus]
      split
      · rename_i cs heq
        have hmem : '-' ∈ ds := by
          obtain ⟨-, rfl | ⟨d, ds, rfl, -⟩⟩ := hd <;> simp_all
        exact absurd (hd.1 '-' hmem) (by decide)
      · rfl

/-- A literal is read back from its text, up to what follows it. -/
theorem read?_text {l : Literal} (hl : l.WellFormed) {rest : List Char} (hr : Stops rest) :
    read? (l.text ++ rest) = some (l, rest) := by
  have hexp := exponentText_noDigit (e := l.exponent) hr
  have hpoint := exponentText_ne_point (e := l.exponent) hr
  have hwhole := readWhole?_append hl.whole (fractionText_noDigit l.fraction hexp)
  have hfrac := readFraction?_append hl.fraction hexp hpoint
  obtain ⟨negative, whole, fraction, exponent⟩ := l
  simp only [text, List.append_assoc, read?, readMinus_append hl.whole, Option.bind_eq_bind] at *
  rw [hwhole, Option.bind_some, hfrac, Option.bind_some]
  cases exponent with
  | none =>
      cases rest with
      | nil => rfl
      | cons c cs =>
          have hmark := hr c rfl
          simp only [goesOn, Bool.or_eq_false_iff] at hmark
          simp [exponentText, hmark.2]
  | some e =>
      obtain ⟨hdigits, hall⟩ := hl.exponent e rfl
      simp [exponentText, isExponentMark, readExponent?_append hdigits hall hr.noDigit]

end Literal

end ReplyCache
