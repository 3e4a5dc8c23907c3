import ReplyCache.Proofs.Cache.Outcomes
import ReplyCache.Proofs.Cache.Sent
import ReplyCache.Store.Rehearsal

namespace ReplyCache

namespace Cache

variable {σ : Type} {store : Store σ} {c : Cache σ} {now : Moment} {o : Operation}

theorem held_step_cases (store : Store σ) (now : Moment) (o : Operation) (c : Cache σ) :
    (c.step store now o).2.held = [] ∨ c.held <+: (c.step store now o).2.held := by
  rw [held_step]
  rcases requests_cases store now o c with
    hands | ⟨b, p, hb, -, hasked⟩ | ⟨-, last, -, hasked⟩ | ⟨-, -, rs, hasked, -⟩
  · rw [hands.buffer]
    exact .inr (List.prefix_refl _)
  · rw [hasked, held_eq hb, Store.holding]
    split
    · exact .inl rfl
    · exact .inr (List.prefix_append b.items [p])
  · rw [hasked]
    exact .inl (held_flushing store c)
  · rw [hasked]
    exact .inr (List.prefix_refl _)

def Roomy (n : Nat) (c : Cache σ) : Prop := ∀ b, c.buffer = some b → b.threshold = n ∧ b.size < n

theorem roomy_holding {n : Nat} {b b' : Buffer Pending} (hb : b.threshold = n ∧ b.size < n)
    (p : Pending) (h : (store.holding b p).2 = some b') : b'.threshold = n ∧ b'.size < n := by
  simp only [Store.holding] at h
  split at h
  · obtain rfl := Option.some.inj h
    exact ⟨hb.1, Nat.zero_lt_of_lt hb.2⟩
  · rename_i hfull
    obtain rfl := Option.some.inj h
    refine ⟨hb.1, ?_⟩
    rw [← hb.1]
    exact Nat.not_le.1 fun hle => hfull (decide_eq_true hle)

theorem Roomy.step {n : Nat} (h : c.Roomy n) (store : Store σ) (now : Moment) (o : Operation) :
    (c.step store now o).2.Roomy n := by
  intro b hb
  rw [step_buffer] at hb
  rcases requests_cases store now o c with
    hands | ⟨b', p, hb', -, hasked⟩ | ⟨-, last, -, hasked⟩ | ⟨-, -, rs, hasked, -⟩
  · rw [hands.buffer] at hb
    exact h b hb
  · rw [hasked] at hb
    exact roomy_holding (h b' hb') p hb
  · rw [hasked] at hb
    obtain ⟨b', hb', rfl⟩ := Option.map_eq_some_iff.1 hb
    obtain ⟨hthreshold, hsize⟩ := h b' hb'
    exact ⟨hthreshold, Nat.zero_lt_of_lt hsize⟩
  · rw [hasked] at hb
    exact h b hb

theorem Roomy.run {n : Nat} (h : c.Roomy n) (store : Store σ) (os : List (Moment × Operation)) :
    (c.run store os).Roomy n := by
  induction os generalizing c with
  | nil => exact h
  | cons x os ih => exact ih (h.step store x.1 x.2)

theorem pending_eq_length (c : Cache σ) : c.pending = c.held.length := by
  rw [pending, held]
  cases c.buffer <;> rfl

theorem perm_sent {os : List (Moment × Operation)} (hans : Along store (Answers store) c os) :
    ((c.sent store os).flatMap Request.writes ++ (c.run store os).held).Perm
      (c.held ++ c.gather store submitted os) := by
  induction os using List.reverseRecOn with
  | nil => exact List.Perm.of_eq (List.append_nil c.held).symm
  | append_singleton os x ih =>
      obtain ⟨now, o⟩ := x
      -- what is held back before the last operation is what that operation conserves
      obtain ⟨hbefore, hlast⟩ := along_append.1 hans
      have hstep := conserves store now o (c.run store os)
      rw [sent_snoc (along_cons.1 hlast).1, run_snoc, gather_snoc, List.flatMap_append,
        List.append_assoc, ← List.append_assoc c.held]
      refine (hstep.append_left _).trans ?_
      rw [← List.append_assoc]
      exact (ih hbefore).append_right _

theorem roomy_of_new {settings : Settings} {s : σ} (hc : Cache.new store settings s = .ok c)
    {n : Nat} (hn : settings.flushSize = some n) : c.Roomy n := by
  intro b hb
  cases hbulk : store.capabilities.bulk with
  | true =>
      rw [buffer_of_new hc hbulk hn] at hb
      obtain rfl := Option.some.inj hb
      exact ⟨rfl, flushSize_pos hc hn⟩
  | false =>
      rw [buffer_of_new_eq_none hc (.inr hbulk)] at hb
      cases hb

/-- Along a run, all that was let through is sent or held back, once each; what is held back is less
than what makes the buffer full, and a write that is held back tells how much is. What is held back
is handed over as a whole, whatever faults there are. A flush and the end of the connection do so,
and the store is closed after that. -/
theorem writes_conserved {settings : Settings} {s : σ} (hc : Cache.new store settings s = .ok c)
    {os : List (Moment × Operation)} (hans : Along store (Answers store) c os) :
    let after := c.run store os
    ((c.sent store os).flatMap Request.writes ++ after.held).Perm (c.gather store submitted os) ∧
      (∀ n, settings.flushSize = some n → after.pending < n) ∧
      (settings.flushSize = none ∨ store.capabilities.bulk = false → after.pending = 0) ∧
      ∀ os₁ now o os₂, os = os₁ ++ (now, o) :: os₂ →
        let met := c.run store os₁
        let next := c.run store (os₁ ++ [(now, o)])
        (∃ made, c.sent store (os₁ ++ [(now, o)]) = c.sent store os₁ ++ made ∧
          (made.flatMap Request.writes ++ next.held).Perm (met.held ++ met.submitted now o) ∧
          (next.held = [] ∨ met.held <+: next.held) ∧
          (o = .flush ∨ o = .disconnect → next.pending = 0) ∧
          (o = .disconnect → ∃ handed, made = handed ++ [.close] ∧ .close ∉ handed)) ∧
        ∀ a n, (met.step store now o).1 = .ok a → o.outcome? a = some (.buffered n) →
          next.pending = n := by
  have hsent := perm_sent hans
  rw [held_of_new hc, List.nil_append] at hsent
  refine ⟨hsent, ?_, ?_, ?_⟩
  · intro n hn
    have hroomy := (roomy_of_new hc hn).run store os
    simp only [pending]
    cases hb : (c.run store os).buffer with
    | none => exact flushSize_pos hc hn
    | some b => exact (hroomy b hb).2
  · intro hnone
    rw [pending, buffer_run_of_none store os (buffer_of_new_eq_none hc hnone)]
    rfl
  · rintro os₁ now o os₂ hos
    have hanswers := hans os₁ now o os₂ hos
    dsimp only
    rw [run_snoc]
    refine ⟨⟨_, sent_snoc hanswers, conserves store now o _, held_step_cases store now o _, ?_, ?_⟩,
      ?_⟩
    · rw [pending_eq_length, held_step]
      rintro (rfl | rfl) <;> exact congrArg List.length (held_flushing store _)
    · rintro rfl
      refine ⟨_, rfl, fun hclose => ?_⟩
      cases (Store.writing_draining _ _ hclose).1
    · intro a n ha hn
      exact pending_of_buffered ha hn

def mixed : List (Moment × Operation) :=
  let hour := Json.object [(Directives.lifetimeName, Json.ofInt 3600)]
  let listed := Call.asking (.array [.string "a", .string "b"])
  [(⟨0, 0⟩, .write .async ((Call.keyed "k").insert Call.directivesName hour) (.string "x")),
    (⟨1, 1⟩, .write .async (Call.keyed "j") (.string "y")),
    (⟨2, 2⟩, .write .async (Call.keyed "k") (.string "too large")),
    (⟨3, 3⟩, .writeBatch .blocking listed [.string "z", .string "also too large"]),
    (⟨4, 4⟩, .disconnect)]

theorem writes_conserved_mixed :
    let store := Rehearsal.store "rehearsal" { batch := true }
    let broken : Rehearsal :=
      { name := "rehearsal", memory := Memory.ofCapacity 10,
        failing := SortedMap.ofList [("batch_write", .unavailableAt "rehearsal" "gone")] }
    let settings : Settings := { flushSize := some 3, largest := 5 }
    ∃ c : Cache Rehearsal,
      Cache.new store settings broken = .ok c ∧ Along store (Answers store) c mixed ∧
        let after := c.run store mixed
        ((c.sent store mixed).flatMap Request.writes ++ after.held).Perm
            (c.gather store submitted mixed) ∧
          (c.gather store submitted mixed).length = 3 ∧ after.pending < 3 := by
  intro store broken settings
  let c : Cache Rehearsal := { settings, contents := broken, buffer := some ⟨3, []⟩ }
  have hc : Cache.new store settings broken = .ok c := rfl
  have hans : Along store (Answers store) c mixed := by decide +kernel
  obtain ⟨hsent, hroom, -⟩ := writes_conserved hc hans
  exact ⟨c, hc, hans, hsent, by decide +kernel, hroom 3 rfl⟩

end Cache

end ReplyCache
