import ReplyCache.Decimal.Binary

namespace ReplyCache

/-- Seconds given as a double are rounded to the nearest nanosecond, ties to even. The other way,
whole seconds and the fraction are converted apart and added, so a long span loses its nanoseconds.
-/
structure Span where
  nanoseconds : Nat
  inRange : nanoseconds < 0x10000000000000000 * 1000000000
  deriving DecidableEq

namespace Span

def perSecond : Nat := 1000000000

def zero : Span := ⟨0, by decide⟩

instance : Inhabited Span := ⟨zero⟩

def ofNanoseconds? (n : Nat) : Option Span :=
  if h : n < 0x10000000000000000 * 1000000000 then some ⟨n, h⟩ else none

def seconds (s : Span) : Nat := s.nanoseconds / perSecond

def fraction (s : Span) : Nat := s.nanoseconds % perSecond

/-- A quotient rounded to the nearest natural number, ties to even. -/
def roundQuotient (num den : Nat) : Nat :=
  let n := num / den
  match compare (2 * (num % den)) den with
  | .lt => n
  | .gt => n + 1
  | .eq => if n % 2 = 0 then n else n + 1

/-- The span of this many seconds, unless they are negative, too many or no number. -/
def ofSeconds? (x : Float) : Option Span :=
  if x.isFinite && !(x < 0) then
    let b := Binary.ofFloat x
    ofNanoseconds? (roundQuotient (b.significand * Nat.pow 2 b.exponent.toNat * perSecond)
      (Nat.pow 2 (-b.exponent).toNat))
  else none

def toSeconds (s : Span) : Float :=
  Float.ofNat s.seconds + Float.ofNat s.fraction / Float.ofNat perSecond

/-- Shorter spans come first, and no span before every span. -/
def compareOption : Option Span → Option Span → Ordering
  | none, none => .eq
  | none, some _ => .lt
  | some _, none => .gt
  | some s, some t => compare s.nanoseconds t.nanoseconds

end Span

/-- A reading of both clocks: seconds since the epoch on the wall clock, and nanoseconds on a steady
clock that only says how far two readings lie apart. -/
structure Moment where
  wall : Float
  steady : Nat
  deriving DecidableEq, Inhabited

namespace Moment

def latest : Nat := 0x8000000000000000 * Span.perSecond

def after? (now : Moment) (s : Span) : Option Nat :=
  if now.steady + s.nanoseconds < latest then some (now.steady + s.nanoseconds) else none

end Moment

end ReplyCache
