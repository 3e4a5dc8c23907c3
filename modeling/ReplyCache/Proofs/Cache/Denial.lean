import ReplyCache.Proofs.Cache.Contexts
import ReplyCache.Proofs.Cache.Outcomes

namespace ReplyCache

def Operation.Bypasses : (o : Operation) → o.Answer → Prop
  | .read .., found => found = .bypass
  | .write .., outcome | .writeBatch .., outcome => outcome = .bypassed
  | .flush, _ | .ping, _ | .delete _, _ | .disconnect, _ | .setSpace _, _ | .setLifetime _, _ =>
    False

/-- An operation of a run, which may be marked as inserted into it. -/
structure Visit where
  inserted : Bool
  now : Moment
  operation : Operation

namespace Visit

def all (vs : List Visit) : List (Moment × Operation) := vs.map fun v => (v.now, v.operation)

def kept (vs : List Visit) : List (Moment × Operation) := all (vs.filter fun v => !v.inserted)

def insertions (vs : List Visit) : Nat := vs.countP inserted

end Visit

namespace Cache

variable {σ : Type} {store : Store σ} {now : Moment} {c d : Cache σ} {o : Operation} {call : Call}
  {n : Nat}

def Denies (c : Cache σ) (o : Operation) : Prop := ∃ call ∈ o.call?, c.admits call = false

instance (c : Cache σ) (o : Operation) : Decidable (c.Denies o) :=
  inferInstanceAs (Decidable (∃ call ∈ o.call?, _ = _))

def afterDenial (c : Cache σ) : Cache σ :=
  { c with stats := c.stats.add 1 .bypassed, events := c.events ++ [.bypassed] }

theorem step_denied (h : c.Denies o) :
    (∃ a, (c.step store now o).1 = .ok a ∧ o.Bypasses a) ∧
      (c.step store now o).2 = c.afterDenial := by
  obtain ⟨call, hcall, hdenied⟩ := h
  have hgate := Action.result_gate_of_denied hdenied
  cases o with
  | read form call' =>
      obtain rfl := Option.some.inj hcall
      have hstep : c.step store now (.read form call') = (.ok .bypass, c.afterDenial) := by
        change Action.result (Action.read store now form call') c = _
        simp only [Action.read]
        rw [Action.result_bind, hgate]
        rfl
      rw [hstep]
      exact ⟨⟨_, rfl, rfl⟩, rfl⟩
  | write form call' reply =>
      obtain rfl := Option.some.inj hcall
      have hstep : c.step store now (.write form call' reply) = (.ok .bypassed, c.afterDenial) := by
        change Action.result (Action.write store now form call' reply) c = _
        simp only [Action.write]
        rw [Action.result_bind, hgate]
        rfl
      rw [hstep]
      exact ⟨⟨_, rfl, rfl⟩, rfl⟩
  | writeBatch form call' replies =>
      obtain rfl := Option.some.inj hcall
      have hstep : c.step store now (.writeBatch form call' replies) =
          (.ok .bypassed, c.afterDenial) := by
        change Action.result (Action.writeBatch store now form call' replies) c = _
        simp only [Action.writeBatch]
        rw [Action.result_bind, hgate]
        rfl
      rw [hstep]
      exact ⟨⟨_, rfl, rfl⟩, rfl⟩
  | flush | ping | delete | disconnect | setSpace | setLifetime => cases hcall

theorem bypasses_iff_denied {a : o.Answer} (hcall : o.call? = some call)
    (ha : (c.step store now o).1 = .ok a) : o.Bypasses a ↔ c.admits call = false := by
  cases o with
  | read form call' =>
      obtain rfl := Option.some.inj hcall
      exact (recounts_read ha).2
  | write form call' reply =>
      obtain rfl := Option.some.inj hcall
      exact (reports_write ha).agrees.bypassed
  | writeBatch form call' replies =>
      obtain rfl := Option.some.inj hcall
      exact (reports_writeBatch ha).agrees.bypassed
  | flush | ping | delete | disconnect | setSpace | setLifetime => cases hcall

theorem admits_step (store : Store σ) (now : Moment) (o : Operation) (c : Cache σ) (call : Call) :
    (c.step store now o).2.admits call = c.admits call := by
  simp only [admits]
  rw [step_settings]
  cases o <;> rfl

theorem admits_run (store : Store σ) (os : List (Moment × Operation)) (c : Cache σ) (call : Call) :
    (c.run store os).admits call = c.admits call := by
  induction os generalizing c with
  | nil => rfl
  | cons x os ih => rw [run_cons, ih, admits_step]

/-- The cache went through so many denied calls more, and that is the whole difference. -/
structure DiffersBy (n : Nat) (c d : Cache σ) : Prop where
  fresh : c.fresh = d.fresh
  counts : ∀ k, c.stats.get k = d.stats.get k + if k = .bypassed then n.toUInt64 else 0
  keeps : d.events.Sublist c.events
  tells : c.events.Perm (d.events ++ List.replicate n .bypassed)

theorem differsBy_self (c : Cache σ) : c.DiffersBy 0 c := by
  refine ⟨rfl, ?_, List.Sublist.refl _, ?_⟩
  · intro k
    split <;> exact (UInt64.add_zero _).symm
  · rw [List.replicate_zero, List.append_nil]

theorem DiffersBy.denied (h : c.DiffersBy n d) : c.afterDenial.DiffersBy (n + 1) d := by
  refine ⟨h.fresh, ?_, h.keeps.trans (List.sublist_append_left _ _), ?_⟩
  · intro k
    simp only [afterDenial]
    rw [Stats.get_add, h.counts]
    by_cases hk : k = .bypassed
    · subst hk
      simp [Nat.toUInt64, UInt64.add_assoc]
    · rw [if_neg (Ne.symm hk), if_neg hk, if_neg hk]
  · rw [List.replicate_succ', ← List.append_assoc]
    exact h.tells.append_right _

theorem DiffersBy.step (h : c.DiffersBy n d) (store : Store σ) (now : Moment) (o : Operation) :
    (c.step store now o).2.DiffersBy n (d.step store now o).2 := by
  obtain ⟨-, htold, hfresh⟩ := step_congr store now o h.fresh
  refine ⟨hfresh, ?_, ?_, ?_⟩
  · intro k
    rw [step_stats store now o c, step_stats store now o d, h.counts, h.fresh]
    ac_rfl
  · rw [step_events, step_events, htold]
    exact h.keeps.append_right _
  · rw [step_events, step_events, htold, List.append_assoc]
    refine (h.tells.append_right _).trans ?_
    rw [List.append_assoc]
    exact List.perm_append_comm.append_left _

theorem differsBy_run (store : Store σ) {vs : List Visit} (h : c.DiffersBy n d)
    (hdenied : ∀ v ∈ vs, v.inserted = true → c.Denies v.operation) :
    (c.run store (Visit.all vs)).DiffersBy (n + Visit.insertions vs)
      (d.run store (Visit.kept vs)) := by
  induction vs generalizing c d n with
  | nil => exact h
  | cons v vs ih =>
      obtain ⟨hv, hvs⟩ := List.forall_mem_cons.1 hdenied
      have hvs' : ∀ v' ∈ vs, v'.inserted = true →
          (c.step store v.now v.operation).2.Denies v'.operation := by
        intro v' hv' hinserted
        obtain ⟨call, hcall, hadmits⟩ := hvs v' hv' hinserted
        exact ⟨call, hcall, (admits_step store _ _ c call).trans hadmits⟩
      cases hinserted : v.inserted with
      | true =>
          -- the other cache stays where it is
          have hnext : (c.step store v.now v.operation).2.DiffersBy (n + 1) d := by
            rw [(step_denied (hv hinserted)).2]
            exact h.denied
          have hrest := ih hnext hvs'
          rw [Nat.add_assoc, Nat.add_comm 1] at hrest
          simpa [Visit.all, Visit.kept, Visit.insertions, hinserted, run_cons] using hrest
      | false =>
          have hrest := ih (h.step store v.now v.operation) hvs'
          simpa [Visit.all, Visit.kept, Visit.insertions, hinserted, run_cons] using hrest

/-- Inserting denied calls into a run adds their events and counts them, and changes nothing else:
the store is sent the same, the same is held back, and all other operations answer, tell and count
the same. No call that the policy admits is told that it does not use the cache. -/
theorem denied_invisible (store : Store σ) {c : Cache σ} {vs : List Visit}
    (hdenied : ∀ v ∈ vs, v.inserted = true → c.Denies v.operation) :
    c.sent store (Visit.all vs) = c.sent store (Visit.kept vs) ∧
      (c.run store (Visit.all vs)).DiffersBy (Visit.insertions vs)
        (c.run store (Visit.kept vs)) ∧
      (∀ vs₁ v vs₂, vs = vs₁ ++ v :: vs₂ →
        let met := c.run store (Visit.all vs₁)
        let spared := c.run store (Visit.kept vs₁)
        if v.inserted then
          (∃ a, (met.step store v.now v.operation).1 = .ok a ∧ v.operation.Bypasses a) ∧
            (met.step store v.now v.operation).2 = met.afterDenial
        else
          (met.step store v.now v.operation).1 = (spared.step store v.now v.operation).1 ∧
            met.told store v.now v.operation = spared.told store v.now v.operation) ∧
      ∀ os now o call a, o.call? = some call → c.admits call = true →
        ((c.run store os).step store now o).1 = .ok a → ¬ o.Bypasses a := by
  have hrun : ∀ vs' ⊆ vs, (c.run store (Visit.all vs')).DiffersBy (Visit.insertions vs')
      (c.run store (Visit.kept vs')) := by
    intro vs' hsub
    have hpart := differsBy_run store c.differsBy_self fun v hv => hdenied v (hsub hv)
    rwa [Nat.zero_add] at hpart
  refine ⟨?_, hrun vs (List.Subset.refl vs), ?_, ?_⟩
  · have hrecorded := differsBy_run store.recording c.recorded.differsBy_self hdenied
    exact congrArg (fun d => d.contents.2) hrecorded.fresh
  · rintro vs₁ v vs₂ rfl
    dsimp only
    split
    · rename_i hinserted
      obtain ⟨call, hcall, hadmits⟩ := hdenied v (by simp) hinserted
      exact step_denied ⟨call, hcall, (admits_run store _ c call).trans hadmits⟩
    · have hcongr := step_congr store v.now v.operation (hrun vs₁ (by simp)).fresh
      exact ⟨hcongr.1, hcongr.2.1⟩
  · intro os now o call a hcall hadmits ha hbypasses
    have hdenies := (bypasses_iff_denied hcall ha).1 hbypasses
    rw [admits_run, hadmits] at hdenies
    cases hdenies

def unwanted : List Visit :=
  let opted := (Call.keyed "k").insert Call.directivesName
    (.object [(Directives.optInName, .bool true)])
  [⟨true, ⟨0, 0⟩, .read .async (Call.keyed "k")⟩,
    ⟨false, ⟨1, 1⟩, .write .async opted (.string "a")⟩,
    ⟨true, ⟨2, 2⟩, .write .blocking (Call.keyed "k") (.string "b")⟩,
    ⟨true, ⟨3, 3⟩, .writeBatch .async batched [.string "y", .string "z"]⟩,
    ⟨false, ⟨4, 4⟩, .read .blocking opted⟩]

theorem denied_invisible_unwanted :
    ∃ c : Cache Memory,
      Cache.new Memory.store { mode := .optIn } (Memory.ofCapacity 10) = .ok c ∧
        (∀ v ∈ unwanted, v.inserted = true → c.Denies v.operation) ∧
        c.sent Memory.store (Visit.all unwanted) = c.sent Memory.store (Visit.kept unwanted) ∧
        (c.run Memory.store (Visit.all unwanted)).DiffersBy 3
          (c.run Memory.store (Visit.kept unwanted)) := by
  let c : Cache Memory :=
    { settings := { mode := .optIn }, contents := Memory.ofCapacity 10, buffer := none }
  have hdenied : ∀ v ∈ unwanted, v.inserted = true → c.Denies v.operation := by
    decide +kernel
  obtain ⟨hsent, hdiffers, -⟩ := denied_invisible Memory.store hdenied
  exact ⟨c, rfl, hdenied, hsent, hdiffers⟩

end Cache

end ReplyCache
