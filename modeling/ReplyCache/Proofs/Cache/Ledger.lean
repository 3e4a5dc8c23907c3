import ReplyCache.Proofs.Cache.Groups
import ReplyCache.Proofs.Cache.Runs

namespace ReplyCache

def Call.keyed (k : String) : Call := Call.empty.insert Call.keyName (.string k)

def Call.asking (input : Json) : Call := Call.empty.insert Call.inputName input

namespace Operation

/-- Whether the operation writes a reply without waiting for it, so that a buffer holds it back. -/
def waits : Operation → Bool
  | .write .async .. => true
  | .writeBatch .async call _ => call.inputs?.isNone
  | _ => false

def writesReplies : Operation → Bool
  | .write .. | .writeBatch .. => true
  | _ => false

def asks : Operation → Bool
  | .read .. | .ping | .delete _ => true
  | _ => false

end Operation

namespace Store

variable {σ : Type} {store : Store σ}

theorem writing_draining (ps : List Pending) : store.Writing (store.draining ps) := by
  intro r hr
  obtain ⟨g, -, hr⟩ := List.mem_flatMap.1 hr
  exact writing_writing g.2 { lifetime := g.1 } r hr

theorem writes_draining (ps : List Pending) :
    (store.draining ps).flatMap Request.writes = Pending.byLifetime ps := by
  simp only [Store.draining, Pending.byLifetime, Pending.spread]
  rw [List.flatMap_assoc]
  congr 1
  funext g
  exact writes_writing g.2 { lifetime := g.1 }

theorem perm_writes_draining (store : Store σ) (ps : List Pending) :
    ((store.draining ps).flatMap Request.writes).Perm ps := by
  rw [writes_draining]
  exact Pending.perm_byLifetime ps

theorem offers_formFor (store : Store σ) (form : Form) (i : Item) (o : WriteOptions) :
    store.capabilities.offers (.write (Action.formFor store form) i o) = true := by
  simp only [Action.formFor]
  cases hasync : store.capabilities.async <;> simp [Capabilities.offers, hasync]

end Store

namespace Cache

variable {σ : Type} {store : Store σ} {now : Moment} {c : Cache σ}

def submittedOne (c : Cache σ) (now : Moment) (call : Call) (reply : Json) : List Pending :=
  if c.accepts call reply then [c.pendingOf now call reply] else []

def submittedBatch (c : Cache σ) (now : Moment) (call : Call) (replies : List Json) :
    List Pending :=
  if c.admits call then
    match call.inputs? with
    | none => c.submittedOne now call (.array replies)
    | some inputs =>
      if inputs.length ≠ replies.length then []
      else (c.itemsOf now call inputs replies).map fun i => ⟨i, (c.writeOptions call).lifetime⟩
  else []

/-- The writes that an operation lets through to the store or the buffer. -/
def submitted (c : Cache σ) (now : Moment) : Operation → List Pending
  | .write _ call reply => c.submittedOne now call reply
  | .writeBatch _ call replies => c.submittedBatch now call replies
  | .read .. | .flush | .ping | .delete _ | .disconnect | .setSpace _ | .setLifetime _ => []

theorem submitted_eq_nil {o : Operation} (h : o.writesReplies = false) (c : Cache σ)
    (now : Moment) : c.submitted now o = [] := by
  cases o with
  | write | writeBatch => cases h
  | read | flush | ping | delete | disconnect | setSpace | setLifetime => rfl

theorem submittedOne_congr {c c' : Cache σ} (h : c'.settings = c.settings) (now : Moment)
    (call : Call) (reply : Json) :
    c'.submittedOne now call reply = c.submittedOne now call reply := by
  unfold submittedOne accepts pendingOf admits
  rw [h, itemOf_congr h, writeOptions_congr h]

theorem submitted_congr {c c' : Cache σ} (h : c'.settings = c.settings) (now : Moment)
    (o : Operation) : c'.submitted now o = c.submitted now o := by
  cases o with
  | write form call reply => exact submittedOne_congr h now call reply
  | writeBatch form call replies =>
      change c'.submittedBatch now call replies = c.submittedBatch now call replies
      unfold submittedBatch admits
      simp only [h, submittedOne_congr h, itemsOf_congr h, writeOptions_congr h]
  | read | flush | ping | delete | disconnect | setSpace | setLifetime => rfl

/-- Requests that hand writes to the store at once. -/
structure Hands (c : Cache σ) (store : Store σ) (ps : List Pending)
    (asked : List Request × Option (Buffer Pending)) : Prop where
  writing : store.Writing asked.1
  writes : asked.1.flatMap Request.writes = ps
  buffer : asked.2 = c.buffer

theorem hands_nothing (c : Cache σ) (store : Store σ) : c.Hands store [] ([], c.buffer) :=
  ⟨fun _ h => (List.not_mem_nil h).elim, rfl, rfl⟩

theorem hands_writing {form : Form} (h : form = .blocking ∨ c.buffer = none) (call : Call)
    (reply : Json) :
    c.Hands store (c.submittedOne now call reply) (c.writing store now form call reply) := by
  simp only [writing, submittedOne]
  split
  · have hone : c.Hands store [c.pendingOf now call reply]
        ([.write (Action.formFor store form) (c.itemOf now call reply) (c.writeOptions call)],
          c.buffer) := by
      refine ⟨?_, rfl, rfl⟩
      intro r hr
      obtain rfl := List.mem_singleton.1 hr
      exact ⟨rfl, Store.offers_formFor store form _ _⟩
    rcases h with rfl | hb
    · exact hone
    · rw [hb] at hone ⊢
      cases form <;> exact hone
  · exact hands_nothing c store

theorem hands_map (items : List Item) (options : WriteOptions) :
    c.Hands store (items.map fun i => ⟨i, options.lifetime⟩)
      (items.map fun i => .write .blocking i options, c.buffer) := by
  refine ⟨?_, ?_, rfl⟩
  · intro r hr
    obtain ⟨i, -, rfl⟩ := List.mem_map.1 hr
    exact ⟨rfl, by simp [Capabilities.offers]⟩
  · rw [List.flatMap_map, List.map_eq_flatMap]
    rfl

theorem hands_writingBatch {form : Form} {call : Call}
    (h : form = .blocking ∨ call.inputs?.isSome = true ∨ c.buffer = none) (replies : List Json) :
    c.Hands store (c.submittedBatch now call replies)
      (c.writingBatch store now form call replies) := by
  simp only [submittedBatch, writingBatch]
  split
  · cases hinputs : call.inputs? with
    | none =>
        refine hands_writing ?_ call (.array replies)
        simpa [hinputs] using h
    | some inputs =>
        dsimp only
        split
        · exact hands_nothing c store
        · cases form with
          | async => exact ⟨Store.writing_writing _ _, Store.writes_writing _ _, rfl⟩
          | blocking => exact hands_map _ _
  · exact hands_nothing c store

theorem hands_requests {o : Operation} (ho : o.writesReplies = true)
    (h : o.waits = false ∨ c.buffer = none) :
    c.Hands store (c.submitted now o) (c.requests store now o) := by
  cases o with
  | write form call reply =>
      refine hands_writing ?_ call reply
      cases form <;> simp_all [Operation.waits]
  | writeBatch form call replies =>
      refine hands_writingBatch ?_ replies
      cases form
      · exact .inl rfl
      · refine .inr (h.imp (fun hwaits => ?_) id)
        cases hinputs : call.inputs? <;> simp_all [Operation.waits]
  | read | flush | ping | delete | disconnect | setSpace | setLifetime => cases ho

theorem holds_writing (store : Store σ) (now : Moment) {b : Buffer Pending}
    (hb : c.buffer = some b) (call : Call) (reply : Json) :
    (c.submittedOne now call reply = [] ∧ c.writing store now .async call reply = ([], some b)) ∨
      ∃ p, c.submittedOne now call reply = [p] ∧
        c.writing store now .async call reply = store.holding b p := by
  simp only [submittedOne, writing]
  split
  · refine .inr ⟨_, rfl, ?_⟩
    rw [hb]
  · exact .inl ⟨rfl, by rw [hb]⟩

theorem holds_requests (store : Store σ) (now : Moment) {o : Operation} (ho : o.waits = true)
    {b : Buffer Pending} (hb : c.buffer = some b) :
    (c.submitted now o = [] ∧ c.requests store now o = ([], some b)) ∨
      ∃ p, c.submitted now o = [p] ∧ c.requests store now o = store.holding b p := by
  cases o with
  | write form call reply =>
      cases form with
      | async => exact holds_writing store now hb call reply
      | blocking => cases ho
  | writeBatch form call replies =>
      cases form with
      | async =>
          have hinputs : call.inputs? = none := by simpa [Operation.waits] using ho
          change (c.submittedBatch now call replies = [] ∧
            c.writingBatch store now .async call replies = ([], some b)) ∨
              ∃ p, c.submittedBatch now call replies = [p] ∧
                c.writingBatch store now .async call replies = store.holding b p
          simp only [submittedBatch, writingBatch]
          rw [hinputs]
          split
          · exact holds_writing store now hb call (.array replies)
          · exact .inl ⟨rfl, by rw [hb]⟩
      | blocking => cases ho
  | read | flush | ping | delete | disconnect | setSpace | setLifetime => cases ho

theorem new_eq_ok {settings : Settings} {s : σ} {c : Cache σ}
    (h : Cache.new store settings s = .ok c) :
    settings.validate = .ok () ∧ c.settings = settings ∧ c.contents = s ∧
      c.buffer = if store.capabilities.bulk then settings.flushSize.map Buffer.ofThreshold
        else none := by
  simp only [Cache.new] at h
  cases hvalid : settings.validate with
  | error f =>
      rw [hvalid] at h
      cases h
  | ok u =>
      rw [hvalid] at h
      obtain rfl := Except.ok.inj h
      exact ⟨rfl, rfl, rfl, rfl⟩

theorem past_of_new {settings : Settings} {s : σ} (hc : Cache.new store settings s = .ok c) :
    c.stats = {} ∧ c.events = [] := by
  simp only [Cache.new] at hc
  cases hvalid : settings.validate with
  | error f =>
      rw [hvalid] at hc
      cases hc
  | ok u =>
      rw [hvalid] at hc
      obtain rfl := Except.ok.inj hc
      exact ⟨rfl, rfl⟩

theorem flushSize_pos {settings : Settings} {s : σ} {c : Cache σ} {n : Nat}
    (h : Cache.new store settings s = .ok c) (hn : settings.flushSize = some n) : 0 < n := by
  obtain ⟨hvalid, -, -, -⟩ := new_eq_ok h
  apply Nat.pos_of_ne_zero
  rintro rfl
  rw [Settings.validate, hn, if_pos rfl] at hvalid
  cases hvalid

theorem buffer_of_new {settings : Settings} {s : σ} {c : Cache σ} {n : Nat}
    (h : Cache.new store settings s = .ok c) (hbulk : store.capabilities.bulk = true)
    (hn : settings.flushSize = some n) : c.buffer = some ⟨n, []⟩ := by
  obtain ⟨-, -, -, hbuffer⟩ := new_eq_ok h
  rw [hbuffer, hbulk, if_pos rfl, hn, Option.map_some, Buffer.ofThreshold,
    Nat.max_eq_left (flushSize_pos h hn)]

theorem buffer_of_new_eq_none {settings : Settings} {s : σ} {c : Cache σ}
    (h : Cache.new store settings s = .ok c)
    (hnone : settings.flushSize = none ∨ store.capabilities.bulk = false) : c.buffer = none := by
  obtain ⟨-, -, -, hbuffer⟩ := new_eq_ok h
  rw [hbuffer]
  rcases hnone with hflush | hbulk
  · simp [hflush]
  · simp [hbulk]

theorem held_eq {b : Buffer Pending} (hb : c.buffer = some b) : c.held = b.items := by
  rw [held, hb]
  rfl

theorem held_of_none (h : c.buffer = none) : c.held = [] := by
  rw [held, h]
  rfl

theorem held_of_new {settings : Settings} {s : σ} {c : Cache σ}
    (h : Cache.new store settings s = .ok c) : c.held = [] := by
  obtain ⟨-, -, -, hbuffer⟩ := new_eq_ok h
  rw [held, hbuffer]
  split
  · cases settings.flushSize <;> rfl
  · rfl

theorem hands_or_holds (store : Store σ) (now : Moment) {o : Operation} (c : Cache σ)
    (ho : o.writesReplies = true) :
    c.Hands store (c.submitted now o) (c.requests store now o) ∨
      ∃ b, c.buffer = some b ∧
        ((c.submitted now o = [] ∧ c.requests store now o = ([], some b)) ∨
          ∃ p, c.submitted now o = [p] ∧ c.requests store now o = store.holding b p) := by
  cases hwaits : o.waits with
  | false => exact .inl (hands_requests ho (.inl hwaits))
  | true =>
      cases hb : c.buffer with
      | none => exact .inl (hands_requests ho (.inr hb))
      | some b => exact .inr ⟨b, rfl, holds_requests store now hwaits hb⟩

/-- What an operation can have the store do. It hands over what it lets through, it adds a write to
those that are held back, it hands over all that are held back, or it asks for no write. -/
theorem requests_cases (store : Store σ) (now : Moment) (o : Operation) (c : Cache σ) :
    c.Hands store (c.submitted now o) (c.requests store now o) ∨
      (∃ b p, c.buffer = some b ∧ c.submitted now o = [p] ∧
        c.requests store now o = store.holding b p) ∨
      (c.submitted now o = [] ∧ ∃ last, (∀ r ∈ last, r = .close) ∧
        c.requests store now o = (store.draining c.held ++ last, (c.flushing store).2)) ∨
      o.asks = true ∧ c.submitted now o = [] ∧ ∃ rs, c.requests store now o = (rs, c.buffer) ∧
        ∀ r ∈ rs, store.capabilities.offers r = true ∧ r.writes = [] := by
  have hasks : ∀ {may : Bool} {q : Request}, (may = true → store.capabilities.offers q = true) →
      q.writes = [] → ∀ r ∈ if may then [q] else [],
        store.capabilities.offers r = true ∧ r.writes = [] := by
    intro may q hoffers hwrites r hr
    cases may with
    | true =>
        obtain rfl := List.mem_singleton.1 hr
        exact ⟨hoffers rfl, hwrites⟩
    | false => cases hr
  cases ho : o.writesReplies with
  | true =>
      rcases hands_or_holds store now c ho with hands | ⟨b, hb, ⟨hnone, hasked⟩ | ⟨p, hone, hasked⟩⟩
      · exact .inl hands
      · rw [hnone, hasked, ← hb]
        exact .inl (hands_nothing c store)
      · exact .inr (.inl ⟨b, p, hb, hone, hasked⟩)
  | false =>
      cases o with
      | write | writeBatch => cases ho
      | flush =>
          refine .inr (.inr (.inl ⟨rfl, [], fun r hr => (List.not_mem_nil hr).elim, ?_⟩))
          rw [List.append_nil]
          rfl
      | disconnect =>
          exact .inr (.inr (.inl ⟨rfl, [.close], fun r hr => List.mem_singleton.1 hr, rfl⟩))
      | read form call =>
          refine .inr (.inr (.inr ⟨rfl, rfl, _, rfl, hasks (fun _ => ?_) rfl⟩))
          simp only [Action.formFor]
          cases hasync : store.capabilities.async <;> simp [Capabilities.offers, hasync]
      | ping => exact .inr (.inr (.inr ⟨rfl, rfl, _, rfl, hasks (fun h => h) rfl⟩))
      | delete keys => exact .inr (.inr (.inr ⟨rfl, rfl, _, rfl, hasks (fun h => h) rfl⟩))
      | setSpace | setLifetime => exact .inl (hands_nothing c store)

theorem offers_requests (store : Store σ) (now : Moment) (o : Operation) (c : Cache σ) :
    ∀ r ∈ (c.requests store now o).1, store.capabilities.offers r = true := by
  intro r hr
  rcases requests_cases store now o c with
    hands | ⟨b, p, -, -, hasked⟩ | ⟨-, last, hlast, hasked⟩ | ⟨-, -, rs, hasked, hrs⟩
  · exact (hands.writing r hr).2
  · rw [hasked, Store.holding] at hr
    split at hr
    · exact (Store.writing_draining _ r hr).2
    · cases hr
  · rw [hasked] at hr
    rcases List.mem_append.1 hr with hr | hr
    · exact (Store.writing_draining _ r hr).2
    · rw [hlast r hr]
      rfl
  · rw [hasked] at hr
    exact (hrs r hr).1

theorem buffer_step_of_none (store : Store σ) (now : Moment) (o : Operation)
    (h : c.buffer = none) : (c.step store now o).2.buffer = none := by
  rw [step_buffer]
  rcases requests_cases store now o c with
    hands | ⟨b, p, hb, -, -⟩ | ⟨-, last, -, hasked⟩ | ⟨-, -, rs, hasked, -⟩
  · exact hands.buffer.trans h
  · rw [h] at hb
    cases hb
  · rw [hasked, flushing, h]
    rfl
  · rw [hasked]
    exact h

theorem buffer_run_of_none (store : Store σ) (os : List (Moment × Operation))
    (h : c.buffer = none) : (c.run store os).buffer = none := by
  induction os generalizing c with
  | nil => exact h
  | cons x os ih => exact ih (buffer_step_of_none store x.1 x.2 h)

theorem held_step (store : Store σ) (now : Moment) (o : Operation) (c : Cache σ) :
    (c.step store now o).2.held = ((c.requests store now o).2.map Buffer.items).getD [] := by
  rw [held, step_buffer]

theorem held_flushing (store : Store σ) (c : Cache σ) :
    ((c.flushing store).2.map Buffer.items).getD [] = [] := by
  simp only [flushing]
  cases c.buffer <;> rfl

/-- What an operation hands over and leaves in the buffer is what was held back and what it lets
through itself. -/
theorem conserves (store : Store σ) (now : Moment) (o : Operation) (c : Cache σ) :
    ((c.requests store now o).1.flatMap Request.writes ++ (c.step store now o).2.held).Perm
      (c.held ++ c.submitted now o) := by
  rw [held_step]
  rcases requests_cases store now o c with
    hands | ⟨b, p, hb, hone, hasked⟩ | ⟨hnone, last, hlast, hasked⟩ | ⟨-, hnone, rs, hasked, hrs⟩
  · rw [hands.writes, hands.buffer]
    exact List.perm_append_comm
  · rw [hone, hasked, held_eq hb, Store.holding]
    split
    · exact (List.Perm.of_eq (List.append_nil _)).trans (store.perm_writes_draining _)
    · exact List.Perm.refl _
  · have hclose : last.flatMap Request.writes = [] :=
      List.flatMap_eq_nil_iff.2 fun r hr => by rw [hlast r hr]; rfl
    rw [hnone, hasked, held_flushing, List.flatMap_append, hclose, List.append_nil, List.append_nil,
      List.append_nil]
    exact store.perm_writes_draining c.held
  · have hquiet : rs.flatMap Request.writes = [] :=
      List.flatMap_eq_nil_iff.2 fun r hr => (hrs r hr).2
    rw [hnone, hasked, hquiet, List.append_nil]
    exact List.Perm.refl _

theorem mem_writes_requests (store : Store σ) (now : Moment) (o : Operation) (c : Cache σ)
    {p : Pending} (h : p ∈ (c.requests store now o).1.flatMap Request.writes) :
    p ∈ c.submitted now o ∨ p ∈ c.held :=
  (List.mem_append.1 ((conserves store now o c).mem_iff.1 (List.mem_append_left _ h))).symm

theorem mem_held_step (store : Store σ) (now : Moment) (o : Operation) (c : Cache σ) {p : Pending}
    (h : p ∈ (c.step store now o).2.held) : p ∈ c.submitted now o ∨ p ∈ c.held :=
  (List.mem_append.1 ((conserves store now o c).mem_iff.1 (List.mem_append_right _ h))).symm

section Keeping

variable {Holds : σ → Shelf → Prop} {good : Moment → Prop} {takes : Pending → Prop} {sh : Shelf}

theorem holds_flush (hk : store.Keeps Holds good takes) (hnow : good now)
    (hs : Holds c.contents sh) (ht : ∀ p ∈ c.held, takes p) :
    Holds (c.step store now .flush).2.contents (sh.putAll (Pending.byLifetime c.held)) := by
  have hasked : (c.requests store now .flush).1 = store.draining c.held := rfl
  rw [step_contents, hasked, ← Store.writes_draining]
  apply hk.serveAll hnow (Store.writing_draining c.held) hs
  intro p hp
  rw [Store.writes_draining] at hp
  exact ht p (Pending.mem_byLifetime.1 hp)

theorem holds_handed (hk : store.Keeps Holds good takes) (hnow : good now) {o : Operation}
    (ho : o.writesReplies = true) (h : o.waits = false ∨ c.buffer = none)
    (hs : Holds c.contents sh) (ht : ∀ p ∈ c.submitted now o, takes p) :
    Holds (c.step store now o).2.contents (sh.putAll (c.submitted now o)) ∧
      (c.step store now o).2.buffer = c.buffer := by
  have hands : c.Hands store (c.submitted now o) (c.requests store now o) := hands_requests ho h
  refine ⟨?_, (step_buffer store now o c).trans hands.buffer⟩
  rw [step_contents, ← hands.writes]
  exact hk.serveAll hnow hands.writing hs fun p hp => ht p (hands.writes ▸ hp)

theorem holds_waiting (hk : store.Keeps Holds good takes) (hnow : good now) {o : Operation}
    (ho : o.waits = true) {b : Buffer Pending} (hb : c.buffer = some b) (hs : Holds c.contents sh)
    (ht : ∀ p ∈ b.items ++ c.submitted now o, takes p) :
    (c.submitted now o = [] ∧ (c.step store now o).2.buffer = some b ∧
        Holds (c.step store now o).2.contents sh) ∨
      ∃ p, c.submitted now o = [p] ∧
        if b.threshold ≤ (b.items ++ [p]).length then
          (c.step store now o).2.buffer = some ⟨b.threshold, []⟩ ∧
            Holds (c.step store now o).2.contents
              (sh.putAll (Pending.byLifetime (b.items ++ [p])))
        else
          (c.step store now o).2.buffer = some ⟨b.threshold, b.items ++ [p]⟩ ∧
            Holds (c.step store now o).2.contents sh := by
  rw [step_buffer, step_contents]
  rcases holds_requests store now ho hb with ⟨hnone, hasked⟩ | ⟨p, hone, hasked⟩
  · rw [hasked]
    exact .inl ⟨hnone, rfl, hs⟩
  · refine .inr ⟨p, hone, ?_⟩
    rw [hone] at ht
    rw [hasked]
    simp only [Store.holding, Buffer.isFull, Buffer.size, Buffer.push, Buffer.drain]
    by_cases hfull : b.threshold ≤ (b.items ++ [p]).length
    · simp only [hfull, decide_true, if_true, true_and]
      rw [← Store.writes_draining]
      apply hk.serveAll hnow (Store.writing_draining _) hs
      intro q hq
      rw [Store.writes_draining] at hq
      exact ht q (Pending.mem_byLifetime.1 hq)
    · simp only [hfull, decide_false, Bool.false_eq_true, if_false, true_and]
      exact hs

end Keeping

end Cache

end ReplyCache
