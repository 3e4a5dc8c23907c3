namespace ReplyCache

structure Tally (ε : Type u) (α : Type v) where
  successes : List (Nat × α) := []
  failures : List (Nat × ε) := []
  total : Nat := 0
  deriving DecidableEq, Inhabited

namespace Tally

variable {ε : Type u} {α : Type v}

/-- Sorts results into successes and failures; the first one has the place `place`. The total is not
touched. -/
def ofResultsFrom (place : Nat) : List (Except ε α) → Tally ε α
  | [] => {}
  | r :: rs =>
    let t := ofResultsFrom (place + 1) rs
    match r with
    | .ok a => { t with successes := (place, a) :: t.successes }
    | .error e => { t with failures := (place, e) :: t.failures }

def ofResults (rs : List (Except ε α)) : Tally ε α :=
  { ofResultsFrom 0 rs with total := rs.length }

/-- Does one thing with each item, whatever becomes of the others. -/
def fanOut (f : β → Except ε α) (items : List β) : Tally ε α := ofResults (items.map f)

def successCount (t : Tally ε α) : Nat := t.successes.length

def failureCount (t : Tally ε α) : Nat := t.failures.length

def allSucceeded (t : Tally ε α) : Bool := t.failures.isEmpty

theorem counts_ofResultsFrom (place : Nat) (rs : List (Except ε α)) :
    (ofResultsFrom place rs).successCount + (ofResultsFrom place rs).failureCount =
      rs.length := by
  induction rs generalizing place with
  | nil => rfl
  | cons r rs ih =>
    have hrest := ih (place + 1)
    simp only [successCount, failureCount] at hrest
    cases r with
    | ok a =>
      simp only [ofResultsFrom, successCount, failureCount, List.length_cons]
      omega
    | error x =>
      simp only [ofResultsFrom, successCount, failureCount, List.length_cons]
      omega

theorem counts_ofResults (rs : List (Except ε α)) :
    (ofResults rs).successCount + (ofResults rs).failureCount = rs.length :=
  counts_ofResultsFrom 0 rs

theorem error_mem_of_mem_failures {place : Nat} {rs : List (Except ε α)} {e : Nat × ε}
    (h : e ∈ (ofResultsFrom place rs).failures) : .error e.2 ∈ rs := by
  induction rs generalizing place with
  | nil => cases h
  | cons r rs ih =>
    simp only [ofResultsFrom] at h
    cases r with
    | ok a => exact List.mem_cons_of_mem _ (ih h)
    | error x =>
      rcases List.mem_cons.1 h with rfl | h
      · exact List.mem_cons_self
      · exact List.mem_cons_of_mem _ (ih h)

end Tally

end ReplyCache
