import Mathlib.Data.List.Nodup
import ReplyCache.Tally

namespace ReplyCache

namespace Tally

variable {ε : Type u} {α : Type v} {β : Type w} {γ : Type x} {δ : Type y}

def error? : Except ε α → Option ε
  | .ok _ => none
  | .error e => some e

theorem successCount_ofResultsFrom (place : Nat) (rs : List (Except ε α)) :
    (ofResultsFrom place rs).successCount = rs.countP Except.isOk := by
  induction rs generalizing place with
  | nil => rfl
  | cons r rs ih =>
      have hrest := ih (place + 1)
      simp only [successCount] at hrest
      cases r with
      | ok a =>
          rw [List.countP_cons_of_pos (by rfl), ← hrest]
          rfl
      | error e =>
          rw [List.countP_cons_of_neg (by simp [Except.isOk, Except.toBool]), ← hrest]
          rfl

theorem successCount_ofResults (rs : List (Except ε α)) :
    (ofResults rs).successCount = rs.countP Except.isOk := successCount_ofResultsFrom 0 rs

theorem failures_ofResultsFrom (place : Nat) (rs : List (Except ε α)) :
    (ofResultsFrom place rs).failures.map Prod.snd = rs.filterMap error? := by
  induction rs generalizing place with
  | nil => rfl
  | cons r rs ih =>
      cases r with
      | ok a => exact ih (place + 1)
      | error e => exact congrArg (e :: ·) (ih (place + 1))

theorem failures_ofResults (rs : List (Except ε α)) :
    (ofResults rs).failures.map Prod.snd = rs.filterMap error? := failures_ofResultsFrom 0 rs

theorem failureCount_ofResults (rs : List (Except ε α)) :
    (ofResults rs).failureCount = (rs.filterMap error?).length := by
  rw [← failures_ofResults, List.length_map]
  rfl

theorem toOption_eq_some {r : Except ε α} {a : α} : r.toOption = some a ↔ r = .ok a := by
  cases r <;> simp [Except.toOption]

theorem error?_eq_some {r : Except ε α} {e : ε} : error? r = some e ↔ r = .error e := by
  cases r <;> simp [error?]

theorem isSome_error? (r : Except ε α) : (error? r).isSome = !r.toOption.isSome := by
  cases r <;> rfl

def places (es : List (Nat × γ)) : List Nat := es.map Prod.fst

/-- What is picked of a result that is given with its place. -/
def placed (pick : δ → Option γ) (r : δ × Nat) : Option (Nat × γ) := (pick r.1).map (r.2, ·)

theorem ofResultsFrom_eq (place : Nat) (rs : List (Except ε α)) : ofResultsFrom place rs =
    { successes := (rs.zipIdx place).filterMap (placed Except.toOption)
      failures := (rs.zipIdx place).filterMap (placed error?) } := by
  induction rs generalizing place with
  | nil => rfl
  | cons r rs ih =>
      rw [List.zipIdx_cons]
      cases r with
      | ok a =>
          simp only [ofResultsFrom, ih]
          rfl
      | error e =>
          simp only [ofResultsFrom, ih]
          rfl

theorem ofResults_eq (rs : List (Except ε α)) : ofResults rs =
    { successes := rs.zipIdx.filterMap (placed Except.toOption)
      failures := rs.zipIdx.filterMap (placed error?)
      total := rs.length } := by
  rw [ofResults, ofResultsFrom_eq]

section Placed

variable (pick : δ → Option γ)

theorem mem_placed {rs : List δ} {i : Nat} {c : γ} :
    (i, c) ∈ rs.zipIdx.filterMap (placed pick) ↔ rs[i]?.bind pick = some c := by
  rw [List.mem_filterMap, Option.bind_eq_some_iff]
  constructor
  · rintro ⟨⟨r, j⟩, hr, hplaced⟩
    obtain ⟨c', hpick, heq⟩ := Option.map_eq_some_iff.1 hplaced
    obtain ⟨rfl, rfl⟩ := Prod.mk.inj heq
    exact ⟨r, List.mem_zipIdx_iff_getElem?.1 hr, hpick⟩
  · rintro ⟨r, hr, hpick⟩
    exact ⟨(r, i), List.mem_zipIdx_iff_getElem?.2 hr, Option.map_eq_some_iff.2 ⟨c, hpick, rfl⟩⟩

theorem places_placed (rs : List (δ × Nat)) : places (rs.filterMap (placed pick)) =
    (rs.filter fun r => (pick r.1).isSome).map Prod.snd := by
  induction rs with
  | nil => rfl
  | cons r rs ih =>
      cases hpick : pick r.1 with
      | none =>
          rw [List.filterMap_cons_none (by rw [placed, hpick]; rfl), ih,
            List.filter_cons_of_neg (by simp [hpick])]
      | some c =>
          rw [List.filterMap_cons_some (by rw [placed, hpick]; rfl),
            List.filter_cons_of_pos (by simp [hpick]), List.map_cons, ← ih]
          rfl

theorem zipIdx_places (rs : List δ) : rs.zipIdx.map Prod.snd = List.range rs.length := by
  rw [List.zipIdx_map_snd, List.range_eq_range']

theorem sorted_placed (rs : List δ) :
    (places (rs.zipIdx.filterMap (placed pick))).Pairwise (· < ·) := by
  rw [places_placed]
  apply List.Pairwise.sublist (List.filter_sublist.map Prod.snd)
  rw [zipIdx_places]
  exact List.pairwise_lt_range

end Placed

theorem mem_successes {rs : List (Except ε α)} {i : Nat} {a : α} :
    (i, a) ∈ (ofResults rs).successes ↔ rs[i]? = some (.ok a) := by
  rw [ofResults_eq, mem_placed, Option.bind_eq_some_iff]
  simp [toOption_eq_some]

theorem mem_failures {rs : List (Except ε α)} {i : Nat} {e : ε} :
    (i, e) ∈ (ofResults rs).failures ↔ rs[i]? = some (.error e) := by
  rw [ofResults_eq, mem_placed, Option.bind_eq_some_iff]
  simp [error?_eq_some]

theorem sorted_places (rs : List (Except ε α)) :
    (places (ofResults rs).successes).Pairwise (· < ·) ∧
      (places (ofResults rs).failures).Pairwise (· < ·) := by
  rw [ofResults_eq]
  exact ⟨sorted_placed _ rs, sorted_placed _ rs⟩

theorem perm_places (rs : List (Except ε α)) :
    (places (ofResults rs).successes ++ places (ofResults rs).failures).Perm
      (List.range rs.length) := by
  rw [ofResults_eq, places_placed, places_placed, ← List.map_append,
    ← zipIdx_places]
  simp only [isSome_error?]
  exact (List.filter_append_perm (fun r => r.1.toOption.isSome) rs.zipIdx).map Prod.snd

theorem failureCount_eq_countP (rs : List (Except ε α)) :
    (ofResults rs).failureCount = rs.countP fun r => !r.isOk := by
  have hcounts := counts_ofResults rs
  have hsplit := List.length_eq_countP_add_countP Except.isOk (l := rs)
  rw [successCount_ofResults] at hcounts
  simp only [Bool.not_eq_true, Bool.decide_eq_false] at hsplit
  omega

theorem allSucceeded_iff (rs : List (Except ε α)) :
    (ofResults rs).allSucceeded = true ↔ ∀ r ∈ rs, r.isOk = true := by
  rw [allSucceeded, List.isEmpty_iff, ← List.length_eq_zero_iff, ← failureCount,
    failureCount_eq_countP, List.countP_eq_zero]
  simp

/-- Whatever items fail, all of them are in the tally, in order and each once, with what became of
them. Operations that treat equal items differently are operations on items that are told apart. -/
theorem fanOut_sorts (f : β → Except ε α) (items : List β) :
    let t := fanOut f items
    t.total = items.length ∧ t.total = t.successCount + t.failureCount ∧
    (places t.successes).Pairwise (· < ·) ∧ (places t.failures).Pairwise (· < ·) ∧
    (places t.successes).Disjoint (places t.failures) ∧
    (∀ i, i ∈ places t.successes ∨ i ∈ places t.failures ↔ i < items.length) ∧
    (∀ i a, (i, a) ∈ t.successes ↔ items[i]?.map f = some (.ok a)) ∧
    (∀ i e, (i, e) ∈ t.failures ↔ items[i]?.map f = some (.error e)) ∧
    (t.allSucceeded = true ↔ ∀ b ∈ items, (f b).isOk = true) ∧
    t.successCount = items.countP (fun b => (f b).isOk) ∧
    t.failureCount = items.countP fun b => !(f b).isOk := by
  have hsorted := sorted_places (items.map f)
  have hperm := perm_places (items.map f)
  have hfailures := failureCount_eq_countP (items.map f)
  rw [List.length_map] at hperm
  rw [List.countP_map] at hfailures
  refine ⟨List.length_map f, (counts_ofResults (items.map f)).symm, hsorted.1, hsorted.2,
    ?_, ?_, ?_, ?_, ?_, ?_, hfailures⟩
  · exact List.disjoint_of_nodup_append (hperm.nodup_iff.2 List.nodup_range)
  · intro i
    rw [← List.mem_append, fanOut, hperm.mem_iff, List.mem_range]
  · intro i a
    rw [fanOut, mem_successes, List.getElem?_map]
  · intro i e
    rw [fanOut, mem_failures, List.getElem?_map]
  · rw [fanOut, allSucceeded_iff, List.forall_mem_map]
  · rw [fanOut, successCount_ofResults, List.countP_map]
    rfl

end Tally

end ReplyCache
