import ReplyCache.Proofs.Cache.Ledger
import ReplyCache.Proofs.Store.Memory

namespace ReplyCache

namespace Cache

variable {σ : Type} {store : Store σ} {Lacks : Key → σ → Prop} {now : Moment}

/-- No reply of a key is in the store or on its way there. -/
structure Rid (Lacks : Key → σ → Prop) (k : Key) (c : Cache σ) : Prop where
  lacks : Lacks k c.contents
  spared : ∀ p ∈ c.held, p.item.key ≠ k

def Spares (store : Store σ) (k : Key) : Cache σ → List (Moment × Operation) → Prop
  | _, [] => True
  | c, (now, o) :: os =>
    (∀ p ∈ c.submitted now o, p.item.key ≠ k) ∧ Spares store k (c.step store now o).2 os

theorem Rid.step (hf : store.Forgets Lacks) {k : Key} {c : Cache σ} (hc : Rid Lacks k c)
    {o : Operation} (ho : ∀ p ∈ c.submitted now o, p.item.key ≠ k) :
    Rid Lacks k (c.step store now o).2 := by
  refine ⟨?_, fun p hp => ?_⟩
  · rw [step_contents]
    apply hf.serveAll now hc.lacks
    intro p hp
    rcases mem_writes_requests store now o c hp with hp | hp
    · exact ho p hp
    · exact hc.spared p hp
  · rcases mem_held_step store now o c hp with hp | hp
    · exact ho p hp
    · exact hc.spared p hp

theorem Rid.run (hf : store.Forgets Lacks) {k : Key} (os : List (Moment × Operation))
    {c : Cache σ} (hc : Rid Lacks k c) (hos : Spares store k c os) :
    Rid Lacks k (c.run store os) := by
  induction os generalizing c with
  | nil => exact hc
  | cons x os ih =>
      obtain ⟨now, o⟩ := x
      obtain ⟨ho, hos'⟩ := hos
      exact ih (hc.step hf ho) hos'

theorem Rid.not_hit (hf : store.Forgets Lacks) (now : Moment) {k : Key} {c : Cache σ}
    (hc : Rid Lacks k c) (form : Form) {call : Call} (hk : c.key call = k) (reply : Json) :
    (c.step store now (.read form call)).1 ≠ .ok (.hit reply) := by
  obtain ⟨c', hgate, hcontents, hsettings, -⟩ := Action.result_gate call c
  change (Action.result (Action.read store now form call) c).1 ≠ .ok (.hit reply)
  simp only [Action.read]
  rw [Action.result_bind, hgate]
  cases c.admits call with
  | false =>
      intro h
      cases h
  | true =>
      dsimp only
      rw [if_pos rfl, Action.result_bind, Action.result_get]
      dsimp only
      rw [Action.result_bind, Action.result_ask, key_congr hsettings, hk, hcontents]
      cases hserve : store.serve now (.read (Action.formFor store form) k (Context.ofCall call))
          c.contents with
      | mk answer s =>
          cases answer with
          | ok found =>
              cases found with
              | none =>
                  intro h
                  cases h
              | some v => exact (hf.read hc.lacks (congrArg Prod.fst hserve)).elim
          | error f =>
              intro h
              cases f <;> cases h

/-- Keys that the store deleted while no write of them was held back are without a hit until they
are written again. -/
theorem no_hit_after_delete (hf : store.Forgets Lacks) (hdelete : store.capabilities.delete = true)
    {now : Moment} {keys : List Key} {c : Cache σ} {n : Nat} {s : σ}
    (hserved : store.serve now (.delete keys) c.contents = (.ok n, s)) {k : Key} (hk : k ∈ keys)
    (hheld : ∀ p ∈ c.held, p.item.key ≠ k) :
    let deleted := c.step store now (.delete keys)
    deleted.1 = .ok (some n) ∧
      ∀ os, Spares store k deleted.2 os → ∀ now' form call reply,
        (deleted.2.run store os).key call = k →
          ((deleted.2.run store os).step store now' (.read form call)).1 ≠ .ok (.hit reply) := by
  intro deleted
  have hstep : deleted = (.ok (some n), { c with contents := s }) := by
    change Action.result (Action.delete store now keys) c = _
    simp only [Action.delete]
    rw [if_pos hdelete, Action.result_bind, Action.result_ask, hserved]
    rfl
  rw [hstep]
  refine ⟨rfl, fun os hos now' form call reply hkey => ?_⟩
  have hrid : Rid Lacks k { c with contents := s } := ⟨hf.delete hserved k hk, hheld⟩
  exact (hrid.run hf os hos).not_hit hf now' form hkey reply

def heldBeside : Cache Memory where
  settings := { flushSize := some 10 }
  contents := (Memory.ofCapacity 10).put ⟨"k"⟩ ⟨Entry.toJson ⟨0, .string "old"⟩, none⟩
  buffer := some ⟨10, [⟨⟨⟨"j"⟩, ⟨0, .string "other"⟩⟩, none⟩]⟩

theorem no_hit_after_delete_heldBeside :
    let deleted := heldBeside.step Memory.store ⟨1, 1⟩ (.delete [⟨"k"⟩])
    deleted.1 = .ok (some 1) ∧
      ∀ os, Spares Memory.store ⟨"k"⟩ deleted.2 os → ∀ now' form call reply,
        (deleted.2.run Memory.store os).key call = ⟨"k"⟩ →
          ((deleted.2.run Memory.store os).step Memory.store now' (.read form call)).1 ≠
            .ok (.hit reply) :=
  no_hit_after_delete Memory.forgets rfl (s := Memory.ofCapacity 10) (by decide +kernel)
    (by decide) (by decide)

/-- A write that is held back brings the reply of a deleted key back. -/
theorem not_no_hit_after_delete :
    ¬ ∀ (c : Cache Memory) (before os : List (Moment × Operation)) (now now' : Moment)
        (keys : List Key) (n : Nat) (k : Key) (form : Form) (call : Call) (reply : Json),
      let deleted := (c.run Memory.store before).step Memory.store now (.delete keys)
      Cache.new Memory.store { flushSize := some 10 } (Memory.ofCapacity 10) = .ok c →
      deleted.1 = .ok (some n) → k ∈ keys → Spares Memory.store k deleted.2 os →
      (deleted.2.run Memory.store os).key call = k →
      ((deleted.2.run Memory.store os).step Memory.store now' (.read form call)).1 ≠
        .ok (.hit reply) := by
  intro hall
  refine hall _ [(⟨0, 0⟩, .write .async (Call.keyed "k") (.string "old"))] [(⟨2, 2⟩, .flush)] ⟨1, 1⟩
    ⟨3, 3⟩ [⟨"k"⟩] 0 ⟨"k"⟩ .async (Call.keyed "k") (.string "old") rfl (by decide +kernel)
    (by decide) ⟨fun _ h => (List.not_mem_nil h).elim, trivial⟩ (by decide +kernel) ?_
  decide +kernel

end Cache

end ReplyCache
