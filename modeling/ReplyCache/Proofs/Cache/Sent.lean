import Mathlib.Data.List.Induction
import ReplyCache.Proofs.Cache.Ledger

namespace ReplyCache

def Request.entries : Request → List (Item × WriteOptions)
  | write _ i o => [(i, o)]
  | writeAll _ is o => is.map fun i => (i, o)
  | read .. | delete _ | ping | close => []

theorem Request.writes_eq (r : Request) :
    r.writes = r.entries.map fun e => ⟨e.1, e.2.lifetime⟩ := by
  cases r with
  | writeAll means items o => simp [writes, entries]
  | read | write | delete | ping | close => rfl

namespace Store

variable {σ : Type}

/-- A store with a record of the requests that it gets. -/
def recording (store : Store σ) : Store (σ × List Request) where
  name := store.name
  capabilities := store.capabilities
  serve := fun now r s => ((store.serve now r s.1).1, (store.serve now r s.1).2, s.2 ++ [r])

theorem serveAll_recording (store : Store σ) (now : Moment) (rs : List Request)
    (s : σ × List Request) :
    (store.recording.serveAll now rs s).2.1 = (store.serveAll now rs s.1).2 ∧
      ∃ made, made <+: rs ∧ (store.recording.serveAll now rs s).2.2 = s.2 ++ made := by
  induction rs generalizing s with
  | nil => exact ⟨rfl, [], List.prefix_refl _, (List.append_nil s.2).symm⟩
  | cons r rs ih =>
      obtain ⟨contents, record⟩ := s
      have hserve : store.recording.serve now r (contents, record) =
          ((store.serve now r contents).1, (store.serve now r contents).2, record ++ [r]) := rfl
      simp only [serveAll]
      rw [hserve]
      cases store.serve now r contents with
      | mk answer contents' =>
          obtain ⟨hcontents, made, hmade, hrecord⟩ := ih (contents', record ++ [r])
          have hmore : r :: made <+: r :: rs := List.cons_prefix_cons.2 ⟨rfl, hmade⟩
          rw [List.append_assoc] at hrecord
          cases answer with
          | ok a => exact ⟨hcontents, r :: made, hmore, hrecord⟩
          | error f =>
              cases f with
              | fault f => exact ⟨hcontents, r :: made, hmore, hrecord⟩
              | crash => exact ⟨rfl, [r], List.cons_prefix_cons.2 ⟨rfl, List.nil_prefix⟩, rfl⟩

theorem serveAll_recording_of_ok (store : Store σ) (now : Moment) {rs : List Request}
    {s : σ × List Request} (hok : (store.serveAll now rs s.1).1 = true) :
    (store.recording.serveAll now rs s).2.2 = s.2 ++ rs := by
  induction rs generalizing s with
  | nil => exact (List.append_nil s.2).symm
  | cons r rs ih =>
      obtain ⟨contents, record⟩ := s
      have hserve : store.recording.serve now r (contents, record) =
          ((store.serve now r contents).1, (store.serve now r contents).2, record ++ [r]) := rfl
      simp only [serveAll] at hok ⊢
      rw [hserve]
      cases hr : store.serve now r contents with
      | mk answer contents' =>
          rw [hr] at hok
          have hmore := @ih (contents', record ++ [r])
          rw [List.append_assoc, List.singleton_append] at hmore
          cases answer with
          | ok a => exact hmore hok
          | error f =>
              cases f with
              | fault f => exact hmore hok
              | crash => cases hok

end Store

namespace Cache

variable {σ : Type} {store : Store σ} {c : Cache σ} {d : Cache (σ × List Request)}

def recorded (c : Cache σ) : Cache (σ × List Request) :=
  { settings := c.settings, contents := (c.contents, []), buffer := c.buffer, stats := c.stats,
    events := c.events }

def sent (store : Store σ) (c : Cache σ) (os : List (Moment × Operation)) : List Request :=
  (c.recorded.run store.recording os).contents.2

/-- A cache over a record is as the cache without one. -/
structure Mirrors (c : Cache σ) (d : Cache (σ × List Request)) : Prop where
  settings : d.settings = c.settings
  contents : d.contents.1 = c.contents
  buffer : d.buffer = c.buffer

theorem Mirrors.requests_eq (h : Mirrors c d) (store : Store σ) (now : Moment) (o : Operation) :
    d.requests store.recording now o = c.requests store now o := by
  obtain ⟨settings, contents, buffer, stats, events⟩ := c
  obtain ⟨settings', contents', buffer', stats', events'⟩ := d
  obtain rfl : settings' = settings := h.settings
  obtain rfl : buffer' = buffer := h.buffer
  cases o <;> rfl

theorem Mirrors.step (h : Mirrors c d) (store : Store σ) (now : Moment) (o : Operation) :
    Mirrors (c.step store now o).2 (d.step store.recording now o).2 ∧
      ∃ made, made <+: (c.requests store now o).1 ∧
        (d.step store.recording now o).2.contents.2 = d.contents.2 ++ made := by
  obtain ⟨hcontents, made, hmade, hrecord⟩ :=
    store.serveAll_recording now (c.requests store now o).1 d.contents
  refine ⟨⟨?_, ?_, ?_⟩, made, hmade, ?_⟩
  · rw [step_settings, step_settings, h.settings]
  · rw [step_contents, step_contents, h.requests_eq, hcontents, h.contents]
  · rw [step_buffer, step_buffer, h.requests_eq]
  · rw [step_contents, h.requests_eq, hrecord]

theorem mirrors_run (store : Store σ) (c : Cache σ) (os : List (Moment × Operation)) :
    Mirrors (c.run store os) (c.recorded.run store.recording os) := by
  have hrun : ∀ {c : Cache σ} {d}, Mirrors c d →
      Mirrors (c.run store os) (d.run store.recording os) := by
    induction os with
    | nil => exact fun h => h
    | cons x os ih => exact fun h => ih (h.step store x.1 x.2).1
  exact hrun ⟨rfl, rfl, rfl⟩

theorem sent_step (store : Store σ) (c : Cache σ) (os : List (Moment × Operation)) (now : Moment)
    (o : Operation) : ∃ made, made <+: ((c.run store os).requests store now o).1 ∧
      c.sent store (os ++ [(now, o)]) = c.sent store os ++ made := by
  obtain ⟨-, made, hmade, hrecord⟩ := (mirrors_run store c os).step store now o
  refine ⟨made, hmade, ?_⟩
  rw [sent, run_append]
  exact hrecord

theorem length_sent_le (store : Store σ) (c : Cache σ) (os os' : List (Moment × Operation)) :
    (c.sent store os).length ≤ (c.sent store (os ++ os')).length := by
  induction os' using List.reverseRecOn with
  | nil => exact Nat.le_of_eq (by rw [List.append_nil])
  | append_singleton os' x ih =>
      obtain ⟨made, -, hsent⟩ := sent_step store c (os ++ os') x.1 x.2
      rw [← List.append_assoc, hsent, List.length_append]
      exact Nat.le_add_right_of_le ih

def Answers (store : Store σ) (c : Cache σ) (now : Moment) (o : Operation) : Prop :=
  (c.step store now o).1.isOk = true

instance (store : Store σ) (c : Cache σ) (now : Moment) (o : Operation) :
    Decidable (Answers store c now o) := inferInstanceAs (Decidable (_ = true))

theorem Answers.exists_ok {now : Moment} {o : Operation} (h : Answers store c now o) :
    ∃ a, (c.step store now o).1 = .ok a := by
  rw [Answers] at h
  cases ha : (c.step store now o).1 with
  | ok a => exact ⟨a, rfl⟩
  | error e =>
      rw [ha] at h
      cases h

theorem sent_snoc {os : List (Moment × Operation)} {now : Moment} {o : Operation}
    (h : Answers store (c.run store os) now o) :
    c.sent store (os ++ [(now, o)]) =
      c.sent store os ++ ((c.run store os).requests store now o).1 := by
  have hmirrors := mirrors_run store c os
  rw [Answers, step_isOk, ← hmirrors.contents] at h
  have hrecord := store.serveAll_recording_of_ok now h
  simp only [sent]
  rw [run_snoc, step_contents, hmirrors.requests_eq]
  exact hrecord

/-- The request at a position was made by an operation of the run, at the cache that it met. -/
theorem sent_position {os : List (Moment × Operation)} {i : Nat} {r : Request}
    (hr : (c.sent store os)[i]? = some r) :
    ∃ os₁ now o os₂, os = os₁ ++ (now, o) :: os₂ ∧ (c.sent store os₁).length ≤ i ∧
      i < (c.sent store (os₁ ++ [(now, o)])).length ∧
      r ∈ ((c.run store os₁).requests store now o).1 := by
  induction os using List.reverseRecOn with
  | nil => cases hr
  | append_singleton os x ih =>
      obtain ⟨now, o⟩ := x
      obtain ⟨made, hmade, hsent⟩ := sent_step store c os now o
      by_cases hi : i < (c.sent store os).length
      · rw [hsent, List.getElem?_append_left hi] at hr
        obtain ⟨os₁, now', o', os₂, rfl, hle, hlt, hmem⟩ := ih hr
        exact ⟨os₁, now', o', os₂ ++ [(now, o)], by simp, hle, hlt, hmem⟩
      · have hle := Nat.le_of_not_lt hi
        obtain ⟨hlt, -⟩ := List.getElem?_eq_some_iff.1 hr
        rw [hsent, List.getElem?_append_right hle] at hr
        exact ⟨os, now, o, [], rfl, hle, hlt, hmade.subset (List.mem_of_getElem? hr)⟩

end Cache

end ReplyCache
