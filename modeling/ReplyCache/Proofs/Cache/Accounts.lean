import ReplyCache.Proofs.Cache.Outcomes
import ReplyCache.Proofs.Cache.Sent
import ReplyCache.Store.Rehearsal

namespace ReplyCache

structure Cache.OnlyFaults {σ : Type} (c : Cache σ) : Prop where
  stats : c.stats = {}
  events : ∀ e ∈ c.events, e.counter? = some .errors

namespace Action

open Cache (OnlyFaults)

variable {σ : Type} {store : Store σ} {now : Moment}

theorem ensures_fault {e : Event} (he : e.counter? = some .errors) :
    Ensures (OnlyFaults (σ := σ)) (emit e) fun _ => OnlyFaults :=
  Ensures.modify fun c hc => ⟨hc.stats, List.forall_mem_append.2 ⟨hc.events, by simpa using he⟩⟩

theorem ensures_ping : Ensures OnlyFaults (ping store now) fun _ => OnlyFaults := by
  have hask : Ensures OnlyFaults (ask store now .ping) fun _ => OnlyFaults :=
    ensures_ask (fun _ _ hc => ⟨hc.stats, hc.events⟩) store now .ping
  refine Ensures.ite (fun _ => hask.bind fun answer => ?_) fun _ => Ensures.pure fun c hc => hc
  cases answer with
  | ok alive => exact Ensures.pure fun c hc => hc
  | error f => exact (ensures_fault rfl).bind fun _ => Ensures.pure fun c hc => hc

theorem ensures_delete (keys : List Key) :
    Ensures OnlyFaults (delete store now keys) fun _ => OnlyFaults := by
  have hask : Ensures OnlyFaults (ask store now (.delete keys)) fun _ => OnlyFaults :=
    ensures_ask (fun _ _ hc => ⟨hc.stats, hc.events⟩) store now (.delete keys)
  refine Ensures.ite (fun _ => hask.bind fun answer => ?_) fun _ => Ensures.pure fun c hc => hc
  cases answer with
  | ok n => exact Ensures.pure fun c hc => hc
  | error f => exact (ensures_fault rfl).bind fun _ => Ensures.pure fun c hc => hc

end Action

namespace Cache

variable {σ : Type} {store : Store σ} {now : Moment} {c : Cache σ} {o : Operation}

def closing (store : Store σ) (now : Moment) (c : Cache σ) : List Event :=
  match store.serve now .close c.contents with
  | (.error (.fault f), _) => [.writeFailed 0 f]
  | (.ok _, _) | (.error .crash, _) => []

/-- The events of an operation whose faults are counted. -/
def counted (store : Store σ) (c : Cache σ) (now : Moment) : Operation → List Event
  | .ping | .delete _ => []
  | .disconnect => c.told store now .flush
  | .read form call => c.told store now (.read form call)
  | .write form call reply => c.told store now (.write form call reply)
  | .writeBatch form call replies => c.told store now (.writeBatch form call replies)
  | .flush => c.told store now .flush
  | .setSpace space => c.told store now (.setSpace space)
  | .setLifetime lifetime => c.told store now (.setLifetime lifetime)

def uncounted (store : Store σ) (c : Cache σ) (now : Moment) : Operation → List Event
  | .ping => c.told store now .ping
  | .delete keys => c.told store now (.delete keys)
  | .disconnect => closing store now (c.step store now .flush).2
  | .read .. | .write .. | .writeBatch .. | .flush | .setSpace _ | .setLifetime _ => []

def outcomes (store : Store σ) (c : Cache σ) (now : Moment) : Operation → List Outcome
  | .write form call reply => (c.step store now (.write form call reply)).1.toOption.toList
  | .writeBatch form call replies =>
    (c.step store now (.writeBatch form call replies)).1.toOption.toList
  | .flush | .disconnect => (c.step store now .flush).1.toOption.toList
  | .read .. | .ping | .delete _ | .setSpace _ | .setLifetime _ => []

theorem disconnect_eq (h : Answers store c now .disconnect) :
    Answers store c now .flush ∧ ∃ s, (c.step store now .disconnect).2 =
      { (c.step store now .flush).2 with
        contents := s,
        events := (c.step store now .flush).2.events ++
          closing store now (c.step store now .flush).2 } := by
  have hstep : c.step store now .disconnect = Action.result (Action.disconnect store now) c := rfl
  have hflush : c.step store now .flush = Action.result (Action.flush store now) c := rfl
  simp only [Answers] at h ⊢
  rw [hstep, Action.disconnect, Action.result_bind] at h
  rw [hstep, Action.disconnect, Action.result_bind, hflush]
  cases hr : Action.result (Action.flush store now) c with
  | mk answer c' =>
      rw [hr] at h
      cases answer with
      | error e => cases h
      | ok outcome =>
          refine ⟨rfl, ?_⟩
          dsimp only at h ⊢
          rw [Action.result_bind, Action.result_ask] at h ⊢
          simp only [closing]
          cases hclose : store.serve now .close c'.contents with
          | mk closed s =>
              rw [hclose] at h
              cases closed with
              | ok u => exact ⟨s, by simp⟩
              | error x =>
                  cases x with
                  | fault f => exact ⟨s, rfl⟩
                  | crash => cases h

theorem told_eq_append (h : Answers store c now o) :
    c.told store now o = c.counted store now o ++ c.uncounted store now o := by
  cases o with
  | disconnect =>
      obtain ⟨-, s, hstep⟩ := disconnect_eq h
      have hevents := step_events store now .flush c
      simp only [counted, uncounted]
      rw [told, hstep, hevents]
      simp
  | ping | delete => rfl
  | read | write | writeBatch | flush | setSpace | setLifetime =>
      exact (List.append_nil _).symm

theorem onlyFaults_fresh (c : Cache σ) : OnlyFaults c.fresh :=
  ⟨rfl, fun _ he => (List.not_mem_nil he).elim⟩

theorem onlyFaults_ping (h : Answers store c now .ping) :
    OnlyFaults (c.fresh.step store now .ping).2 := by
  obtain ⟨a, ha⟩ := h.exists_ok
  exact Action.ensures_ping _ _ _ c.onlyFaults_fresh (ok_fresh ha)

theorem onlyFaults_delete {keys : List Key} (h : Answers store c now (.delete keys)) :
    OnlyFaults (c.fresh.step store now (.delete keys)).2 := by
  obtain ⟨a, ha⟩ := h.exists_ok
  exact Action.ensures_delete keys _ _ _ c.onlyFaults_fresh (ok_fresh ha)

theorem errors_of_uncounted (h : Answers store c now o) :
    ∀ e ∈ c.uncounted store now o, e.counter? = some .errors := by
  cases o with
  | ping =>
      simp only [uncounted]
      rw [told_eq_fresh]
      exact (onlyFaults_ping h).events
  | delete keys =>
      simp only [uncounted]
      rw [told_eq_fresh]
      exact (onlyFaults_delete h).events
  | disconnect =>
      intro e he
      simp only [uncounted, closing] at he
      split at he
      · obtain rfl := List.mem_singleton.1 he
        rfl
      · cases he
      · cases he
  | read | write | writeBatch | flush | setSpace | setLifetime =>
      intro e he
      cases he

theorem answers_fresh : Answers store c.fresh now o ↔ Answers store c now o := by
  rw [Answers, Answers, ← step_answer]

theorem balanced_step (h : Answers store c now o) :
    ∃ f, Balanced ((c.outcomes store now o).map fun a : Outcome => a.counts.1).sum f
      { (c.fresh.step store now o).2 with events := c.counted store now o } := by
  -- the flush within a disconnect is one of these too
  have hflush : Answers store c now .flush →
      ∃ f, Balanced ((c.outcomes store now .flush).map fun a : Outcome => a.counts.1).sum f
        (c.fresh.step store now .flush).2 := by
    intro h
    obtain ⟨a, ha⟩ := h.exists_ok
    have hbalanced := (concludes_flush ha).balanced
    simp only [outcomes]
    rw [ha]
    exact ⟨_, by simpa [Except.toOption] using hbalanced⟩
  obtain ⟨a, ha⟩ := h.exists_ok
  cases o with
  | read form call =>
      have hread := recounts_read (step_answer store now (.read form call) c ▸ ha)
      simp only [counted]
      rw [told_eq_fresh]
      exact ⟨0, hread.1.balanced c.balanced_fresh⟩
  | write form call reply =>
      have hbalanced := (reports_write ha).balanced
      simp only [outcomes, counted]
      rw [ha, told_eq_fresh]
      exact ⟨_, by simpa [Except.toOption] using hbalanced⟩
  | writeBatch form call replies =>
      have hbalanced := (reports_writeBatch ha).balanced
      simp only [outcomes, counted]
      rw [ha, told_eq_fresh]
      exact ⟨_, by simpa [Except.toOption] using hbalanced⟩
  | flush =>
      simp only [counted]
      rw [told_eq_fresh]
      exact hflush h
  | ping => exact ⟨0, balanced_empty (onlyFaults_ping h).stats rfl⟩
  | delete keys => exact ⟨0, balanced_empty (onlyFaults_delete h).stats rfl⟩
  | disconnect =>
      obtain ⟨f, hbalanced⟩ := hflush (disconnect_eq h).1
      obtain ⟨-, s, hstep⟩ := disconnect_eq (answers_fresh.2 h)
      refine ⟨f, hbalanced.of_eq ?_ ?_⟩
      · rw [hstep]
      · exact told_eq_fresh store now .flush c
  | setSpace space | setLifetime lifetime =>
      simp only [counted]
      rw [told_eq_fresh]
      exact ⟨0, balanced_empty rfl rfl⟩

theorem stats_run {os : List (Moment × Operation)} (hans : Along store (Answers store) c os) :
    (∀ k, k ≠ .sets → (c.run store os).stats.get k = c.stats.get k +
        ((c.gather store (counted store) os).countP fun e => e.counter? = some k).toUInt64) ∧
      (c.run store os).stats.get .sets = c.stats.get .sets +
        ((c.gather store (outcomes store) os).map fun a : Outcome => a.counts.1).sum.toUInt64 := by
  induction os generalizing c with
  | nil => exact ⟨fun k _ => (UInt64.add_zero _).symm, (UInt64.add_zero _).symm⟩
  | cons x os ih =>
      obtain ⟨now, o⟩ := x
      obtain ⟨hfirst, hrest⟩ := along_cons.1 hans
      obtain ⟨f, hbalanced⟩ := balanced_step hfirst
      obtain ⟨htold, hsets⟩ := ih hrest
      constructor
      · intro k hk
        rw [run_cons, htold k hk, step_stats, gather, List.countP_append, UInt64.add_assoc]
        have hstep := hbalanced.told k hk
        dsimp only at hstep
        rw [hstep]
        simp [Nat.toUInt64]
      · rw [run_cons, hsets, step_stats, gather, List.map_append, List.sum_append, UInt64.add_assoc]
        have hstep := hbalanced.sets
        dsimp only at hstep
        rw [hstep]
        simp [Nat.toUInt64]

theorem countP_told {os : List (Moment × Operation)} (hans : Along store (Answers store) c os)
    {k : Counter} (hk : k ≠ .errors) :
    (c.gather store (fun c now o => c.told store now o) os).countP (fun e => e.counter? = some k) =
      (c.gather store (counted store) os).countP fun e => e.counter? = some k := by
  induction os generalizing c with
  | nil => rfl
  | cons x os ih =>
      obtain ⟨now, o⟩ := x
      obtain ⟨hfirst, hrest⟩ := along_cons.1 hans
      have hnone : (c.uncounted store now o).countP (fun e => e.counter? = some k) = 0 := by
        apply List.countP_eq_zero.2
        intro e he
        rw [errors_of_uncounted hfirst e he]
        simpa using Ne.symm hk
      rw [gather, gather, List.countP_append, List.countP_append, ih hrest,
        told_eq_append hfirst, List.countP_append, hnone, Nat.add_zero]

/-- After a run of a new cache, hits, misses, stale and bypassed reads and writes are counted as
often as they are told, errors as often as faults are told but by pings, deletions and the close of
the store, and what was written is what the outcomes say. A read tells one event and counts it. -/
theorem stats_of_run {settings : Settings} {s : σ} (hc : Cache.new store settings s = .ok c)
    {os : List (Moment × Operation)} (hans : Along store (Answers store) c os) :
    let after := c.run store os
    (∀ k, k ≠ .sets → k ≠ .errors →
        after.stats.get k = (after.events.countP fun e => e.counter? = some k).toUInt64) ∧
      after.stats.errors =
        ((c.gather store (counted store) os).countP Event.isFault).toUInt64 ∧
      after.stats.sets =
        ((c.gather store (outcomes store) os).map fun a : Outcome => a.counts.1).sum.toUInt64 ∧
      after.events = c.gather store (fun c now o => c.told store now o) os ∧
      ∀ os₁ now o os₂, os = os₁ ++ (now, o) :: os₂ →
        let met := c.run store os₁
        met.told store now o = met.counted store now o ++ met.uncounted store now o ∧
          ∀ form call, o = .read form call → ∃ found,
            (met.step store now (.read form call)).1 = .ok found ∧
              met.Recounts (met.key call).text found
                (met.step store now (.read form call)).2 := by
  obtain ⟨hstats, hevents⟩ := past_of_new hc
  obtain ⟨htold, hsets⟩ := stats_run hans
  intro after
  have hafter : after.events = c.gather store (fun c now o => c.told store now o) os := by
    have hrun := run_events store os c
    rwa [hevents] at hrun
  have hzero : ∀ k, c.stats.get k = 0 := by
    intro k
    rw [hstats]
    cases k <;> rfl
  refine ⟨?_, ?_, ?_, hafter, ?_⟩
  · intro k hk hk'
    rw [htold k hk, hzero, UInt64.zero_add, hafter, countP_told hans hk']
  · have herrors := htold .errors Counter.noConfusion
    rw [hzero, UInt64.zero_add] at herrors
    refine herrors.trans (congrArg Nat.toUInt64 (List.countP_congr fun e _ => ?_))
    simp [Event.isFault_iff]
  · rw [hzero, UInt64.zero_add] at hsets
    exact hsets
  · intro os₁ now o os₂ hos met
    have hanswers := hans os₁ now o os₂ hos
    refine ⟨told_eq_append hanswers, ?_⟩
    rintro form call rfl
    obtain ⟨found, hfound⟩ := hanswers.exists_ok
    exact ⟨found, hfound, (recounts_read hfound).1⟩

def failing : Rehearsal :=
  let broken := Fault.unavailableAt "rehearsal" "gone"
  { name := "rehearsal",
    memory := Memory.ofCapacity 10,
    failing := SortedMap.ofList
      [("batch_write", broken), ("ping", broken), ("delete_keys", broken), ("disconnect", broken)] }

def failingRun : List (Moment × Operation) :=
  [(⟨0, 0⟩, .read .async (Call.keyed "k")),
    (⟨1, 1⟩, .write .blocking (Call.keyed "k") (.string "a")),
    (⟨2, 2⟩, .read .blocking (Call.keyed "k")),
    (⟨3, 3⟩, .write .async (Call.keyed "j") (.string "b")),
    (⟨4, 4⟩, .ping),
    (⟨5, 5⟩, .delete [⟨"k"⟩]),
    (⟨6, 6⟩, .disconnect)]

theorem stats_of_run_failing :
    let store := Rehearsal.store "rehearsal" { batch := true, ping := true, delete := true }
    ∃ c : Cache Rehearsal,
      Cache.new store { flushSize := some 2 } failing = .ok c ∧
        Along store (Answers store) c failingRun ∧
        let after := c.run store failingRun
        after.stats.errors = 1 ∧ after.stats.sets = 1 ∧ after.events.countP Event.isFault = 4 := by
  intro store
  let c : Cache Rehearsal :=
    { settings := { flushSize := some 2 }, contents := failing, buffer := some ⟨2, []⟩ }
  have hc : Cache.new store { flushSize := some 2 } failing = .ok c := rfl
  have hans : Along store (Answers store) c failingRun := by decide +kernel
  obtain ⟨-, herrors, hsets, hevents, -⟩ := stats_of_run hc hans
  refine ⟨c, hc, hans, ?_, ?_, ?_⟩
  · exact herrors.trans (by decide +kernel)
  · exact hsets.trans (by decide +kernel)
  · rw [hevents]
    decide +kernel

end Cache

end ReplyCache
