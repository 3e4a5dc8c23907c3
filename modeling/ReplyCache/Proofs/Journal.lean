import Mathlib.Data.List.DropRight
import Mathlib.Data.List.Induction
import ReplyCache.Journal

namespace ReplyCache

inductive Note where
  | tell (e : Event)
  | clear

namespace Note

def event? : Note → Option Event
  | tell e => some e
  | clear => none

/-- The events that were told since the last clearing, the oldest first. -/
def since (ns : List Note) : List Event :=
  (ns.rtakeWhile fun n => n.event?.isSome).filterMap event?

theorem since_snoc_tell (ns : List Note) (e : Event) :
    since (ns ++ [tell e]) = since ns ++ [e] := by
  have htold : (tell e).event?.isSome = true := rfl
  rw [since, List.rtakeWhile_concat, if_pos htold, List.filterMap_append]
  rfl

theorem since_snoc_clear (ns : List Note) : since (ns ++ [clear]) = [] := by
  rw [since, List.rtakeWhile_concat, if_neg Bool.noConfusion, List.filterMap_nil]

end Note

theorem Event.isFault_iff_failed (e : Event) : e.isFault = true ↔
    (∃ key fault, e = .readFailed key fault) ∨ ∃ count fault, e = .writeFailed count fault := by
  cases e <;> simp [Event.isFault]

namespace Journal

variable {j : Journal} {n : Nat} {es : List Event}

def note (j : Journal) : Note → Journal
  | .tell e => j.record e
  | .clear => j.clear

def run (ns : List Note) (j : Journal) : Journal := ns.foldl note j

structure Newest (j : Journal) (n : Nat) (es : List Event) : Prop where
  bound : j.bound = max n 1
  events : j.events = es.rtake (max n 1)

theorem newest_ofBound (n : Nat) : (ofBound n).Newest n [] := ⟨rfl, (List.rtake_nil _).symm⟩

theorem Newest.clear (h : j.Newest n es) : j.clear.Newest n [] :=
  ⟨h.bound, (List.rtake_nil _).symm⟩

theorem events_record (h : j.events.length ≤ j.bound) (e : Event) :
    (j.record e).events = (j.events ++ [e]).rtake j.bound := by
  simp only [record, List.rtake, List.length_append, List.length_singleton]
  split
  · congr 1
    omega
  · rw [Nat.sub_eq_zero_of_le (by omega), List.drop_zero]

theorem rtake_append_singleton_rtake (n : Nat) (es : List Event) (e : Event) :
    (es.rtake n ++ [e]).rtake n = (es ++ [e]).rtake n := by
  cases n with
  | zero => rw [List.rtake_zero, List.rtake_zero]
  | succ n =>
      rw [List.rtake_concat_succ, List.rtake_concat_succ]
      congr 1
      simp only [List.rtake, List.length_drop, List.drop_drop]
      congr 1
      omega

theorem Newest.record (h : j.Newest n es) (e : Event) : (j.record e).Newest n (es ++ [e]) := by
  refine ⟨h.bound, ?_⟩
  have hshort : j.events.length ≤ j.bound := by
    rw [h.events, h.bound, List.rtake, List.length_drop]
    omega
  rw [events_record hshort, h.events, h.bound, rtake_append_singleton_rtake]

theorem Newest.note {ns : List Note} (h : j.Newest n (Note.since ns)) (x : Note) :
    (j.note x).Newest n (Note.since (ns ++ [x])) := by
  cases x with
  | tell e =>
      rw [Note.since_snoc_tell]
      exact h.record e
  | clear =>
      rw [Note.since_snoc_clear]
      exact h.clear

theorem newest_run (n : Nat) (ns : List Note) :
    ((ofBound n).run ns).Newest n (Note.since ns) := by
  induction ns using List.reverseRecOn with
  | nil => exact newest_ofBound n
  | append_singleton ns x ih =>
      rw [run, List.foldl_append]
      exact ih.note x

end Journal

namespace Journals

def ofBounds (bounds : List Nat) : Journals := bounds.map Journal.ofBound

def note (js : Journals) : Note → Journals
  | .tell e => js.record e
  | .clear => js.clear

def run (ns : List Note) (js : Journals) : Journals := ns.foldl note js

theorem note_eq_map (js : Journals) (x : Note) : js.note x = js.map fun j => j.note x := by
  cases x <;> rfl

theorem run_eq_map (ns : List Note) (js : Journals) : js.run ns = js.map (Journal.run ns) := by
  induction ns generalizing js with
  | nil => exact (List.map_id js).symm
  | cons x ns ih =>
      change (js.note x).run ns = js.map fun j => (j.note x).run ns
      rw [ih, note_eq_map, List.map_map]
      rfl

theorem getElem?_run_ofBounds (bounds : List Nat) (ns : List Note) (i : Nat) :
    ((ofBounds bounds).run ns)[i]? = bounds[i]?.map fun n => (Journal.ofBound n).run ns := by
  rw [run_eq_map, ofBounds, List.map_map, List.getElem?_map]
  rfl

/-- Whatever has happened, each journal shows the newest of the events since the last clearing, all
of them if its bound is not reached, and among these the faults; and a journal of the same bound
among others shows the same. -/
theorem events_run (bounds : List Nat) (ns : List Note) :
    let js := (ofBounds bounds).run ns
    js.length = bounds.length ∧
    (∀ (i n : Nat), bounds[i]? = some n → ∃ j : Journal, js[i]? = some j ∧
      j.events = (Note.since ns).rtake (max n 1) ∧
      j.faults = ((Note.since ns).rtake (max n 1)).filter Event.isFault) ∧
    (∀ e : Event, e.isFault = true ↔
      (∃ key fault, e = .readFailed key fault) ∨ ∃ count fault, e = .writeFailed count fault) ∧
    ∀ (bounds' : List Nat) (i i' : Nat), bounds'[i']? = bounds[i]? →
      ((ofBounds bounds').run ns)[i']? = js[i]? := by
  refine ⟨?_, ?_, Event.isFault_iff_failed, ?_⟩
  · rw [run_eq_map, ofBounds, List.length_map, List.length_map]
  · intro i n hn
    have hevents := (Journal.newest_run n ns).events
    refine ⟨_, ?_, hevents, congrArg (List.filter Event.isFault) hevents⟩
    rw [getElem?_run_ofBounds, hn, Option.map_some]
  · intro bounds' i i' h
    rw [getElem?_run_ofBounds, getElem?_run_ofBounds, h]

end Journals

end ReplyCache
