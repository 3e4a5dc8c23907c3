import ReplyCache.Proofs.Freshness
import ReplyCache.Proofs.Store.Shelf

namespace ReplyCache

namespace Action

variable {σ : Type} {store : Store σ} {now : Moment} {c : Cache σ} {call : Call}

theorem result_gate_of_admits (h : c.admits call = true) :
    result (gate call) c = (.ok true, c) := by
  simp only [gate]
  rw [result_bind, result_get]
  dsimp only
  rw [if_pos h]
  rfl

theorem result_gate_of_denied (h : c.admits call = false) :
    result (gate call) c = (.ok false,
      { c with stats := c.stats.add 1 .bypassed, events := c.events ++ [.bypassed] }) := by
  simp only [gate]
  rw [result_bind, result_get]
  dsimp only
  rw [if_neg (by simp [h])]
  rfl

theorem result_read (hadmits : c.admits call = true) (form : Form) :
    result (read store now form call) c =
      match store.serve now (.read (formFor store form) (c.key call) (Context.ofCall call))
          c.contents with
      | (.ok found, s) =>
        result (finishRead now call (c.key call) (.ok found)) { c with contents := s }
      | (.error (.fault f), s) =>
        result (finishRead now call (c.key call) (.error f)) { c with contents := s }
      | (.error .crash, s) => (.error .crash, { c with contents := s }) := by
  simp only [read]
  rw [result_bind, result_gate_of_admits hadmits]
  dsimp only
  rw [if_pos rfl, result_bind, result_get]
  dsimp only
  rw [result_bind, result_ask]
  cases store.serve now (.read (formFor store form) (c.key call) (Context.ofCall call))
      c.contents with
  | mk answer s =>
      cases answer with
      | ok found => rfl
      | error f => cases f <;> rfl

end Action

namespace Cache

variable {σ : Type} {store : Store σ} {now : Moment} {c : Cache σ} {call : Call} {form : Form}
  {s : σ}

theorem read_failed (hadmits : c.admits call = true) {f : Fault}
    (hserve : store.serve now (.read (Action.formFor store form) (c.key call) (Context.ofCall call))
      c.contents = (.error (.fault f), s)) :
    let read := c.step store now (.read form call)
    read.1 = .ok .miss ∧ read.2.events = c.events ++ [.readFailed (c.key call).text f] := by
  have hread := @Action.result_read _ store now _ _ hadmits form
  rw [hserve] at hread
  exact ⟨congrArg Prod.fst hread, congrArg (fun r => r.2.events) hread⟩

theorem read_absent (hadmits : c.admits call = true)
    (hserve : store.serve now (.read (Action.formFor store form) (c.key call) (Context.ofCall call))
      c.contents = (.ok none, s)) :
    let read := c.step store now (.read form call)
    read.1 = .ok .miss ∧ read.2.events = c.events ++ [.miss (c.key call).text] := by
  have hread := @Action.result_read _ store now _ _ hadmits form
  rw [hserve] at hread
  exact ⟨congrArg Prod.fst hread, congrArg (fun r => r.2.events) hread⟩

theorem read_found (hadmits : c.admits call = true) (hage : call.directives.maxAge = none)
    {e : Entry} (hfinite : e.timestamp.isFinite = true)
    (hserve : store.serve now (.read (Action.formFor store form) (c.key call) (Context.ofCall call))
      c.contents = (.ok (some e.toJson), s)) :
    let read := c.step store now (.read form call)
    match e.reply.nonNull? with
    | some reply => read.1 = .ok (.hit reply) ∧
        read.2.events = c.events ++ [.hit (c.key call).text]
    | none => read.1 = .ok .miss ∧
        read.2.events = c.events ++ [.readFailed (c.key call).text Freshness.noReply] := by
  have hjudge := Freshness.judge_toJson hfinite none now.wall
  simp only [Freshness.isTooOld, Bool.false_eq_true, if_false] at hjudge
  have hread := @Action.result_read _ store now _ _ hadmits form
  rw [hserve] at hread
  simp only [Action.finishRead, hage, hjudge] at hread
  cases hreply : e.reply.nonNull? with
  | some reply =>
      rw [hreply] at hread
      exact ⟨congrArg Prod.fst hread, congrArg (fun r => r.2.events) hread⟩
  | none =>
      rw [hreply] at hread
      exact ⟨congrArg Prod.fst hread, congrArg (fun r => r.2.events) hread⟩

section Recalling

variable {Holds : σ → Shelf → Prop} {sh : Shelf}

theorem read_nothing (hrecalls : store.Recalls Holds) (hholds : Holds c.contents sh)
    (now : Moment) (form : Form) (hadmits : c.admits call = true) (hw : sh (c.key call) = none) :
    let read := c.step store now (.read form call)
    read.1 = .ok .miss ∧ read.2.events = c.events ++ [.miss (c.key call).text] := by
  obtain ⟨s, hserve, -⟩ := @hrecalls now (Action.formFor store form) (c.key call)
    (Context.ofCall call) _ _ hholds
  rw [hw] at hserve
  exact read_absent hadmits hserve

theorem read_write (hrecalls : store.Recalls Holds) (hholds : Holds c.contents sh)
    (now : Moment) (form : Form) (hadmits : c.admits call = true)
    (hage : call.directives.maxAge = none) {w : Pending} (hw : sh (c.key call) = some w)
    (hfinite : w.item.entry.timestamp.isFinite = true) :
    let read := c.step store now (.read form call)
    match w.item.entry.reply.nonNull? with
    | some reply => read.1 = .ok (.hit reply) ∧
        read.2.events = c.events ++ [.hit (c.key call).text]
    | none => read.1 = .ok .miss ∧
        read.2.events = c.events ++ [.readFailed (c.key call).text Freshness.noReply] := by
  obtain ⟨s, hserve, -⟩ := @hrecalls now (Action.formFor store form) (c.key call)
    (Context.ofCall call) _ _ hholds
  rw [hw] at hserve
  exact read_found hadmits hage hfinite hserve

/-- A read hits with the reply of what the store holds, unless that is `null`. -/
theorem hit_iff_reply (hrecalls : store.Recalls Holds) (hholds : Holds c.contents sh)
    (now : Moment) (form : Form) (hadmits : c.admits call = true)
    (hage : call.directives.maxAge = none) {w : Pending} (hw : sh (c.key call) = some w)
    (hfinite : w.item.entry.timestamp.isFinite = true) (r : Json) :
    (c.step store now (.read form call)).1 = .ok (.hit r) ↔
      w.item.entry.reply = r ∧ r ≠ .null := by
  have hread := read_write hrecalls hholds now form hadmits hage hw hfinite
  rw [← Json.nonNull?_eq_some]
  cases hreply : w.item.entry.reply.nonNull? with
  | some reply =>
      rw [hreply] at hread
      have hanswer : (c.step store now (.read form call)).1 = .ok (.hit reply) := hread.1
      rw [hanswer]
      simp
  | none =>
      rw [hreply] at hread
      have hanswer : (c.step store now (.read form call)).1 = .ok .miss := hread.1
      rw [hanswer]
      simp

end Recalling

end Cache

end ReplyCache
