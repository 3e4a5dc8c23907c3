import ReplyCache.Proofs.Cache.Actions

namespace ReplyCache

namespace Store

variable {σ : Type}

def writing (store : Store σ) (items : List Item) (options : WriteOptions) : List Request :=
  if items.isEmpty then []
  else if !store.capabilities.async then items.map fun i => .write .blocking i options
  else if store.capabilities.pipeline then [.writeAll .pipeline items options]
  else if store.capabilities.batch then [.writeAll .batch items options]
  else items.map fun i => .write .async i options

def draining (store : Store σ) (ps : List Pending) : List Request :=
  (Action.groupByLifetime ps).flatMap fun g => store.writing g.2 { lifetime := g.1 }

def holding (store : Store σ) (b : Buffer Pending) (p : Pending) :
    List Request × Option (Buffer Pending) :=
  if (b.push p).isFull then (store.draining (b.push p).items, some (b.push p).drain.2)
  else ([], some (b.push p))

end Store

namespace Cache

variable {σ : Type}

def accepts (c : Cache σ) (call : Call) (reply : Json) : Bool :=
  c.admits call && decide (reply.textSize ≤ c.settings.largest)

def itemOf (c : Cache σ) (now : Moment) (call : Call) (reply : Json) : Item :=
  ⟨c.key call, ⟨now.wall, reply⟩⟩

def pendingOf (c : Cache σ) (now : Moment) (call : Call) (reply : Json) : Pending :=
  ⟨c.itemOf now call reply, (c.writeOptions call).lifetime⟩

def itemsOf (c : Cache σ) (now : Moment) (call : Call) (inputs replies : List Json) : List Item :=
  ((inputs.zip replies).filter fun e => decide (e.2.textSize ≤ c.settings.largest)).map fun e =>
    c.itemOf now (call.withInput e.1) e.2

/-- The writes that are held back, the oldest first. -/
def held (c : Cache σ) : List Pending := (c.buffer.map Buffer.items).getD []

def flushing (c : Cache σ) (store : Store σ) : List Request × Option (Buffer Pending) :=
  (store.draining c.held, c.buffer.map fun b => b.drain.2)

def writing (c : Cache σ) (store : Store σ) (now : Moment) (form : Form) (call : Call)
    (reply : Json) : List Request × Option (Buffer Pending) :=
  if c.accepts call reply then
    match form, c.buffer with
    | .async, some b => store.holding b (c.pendingOf now call reply)
    | _, _ =>
      ([.write (Action.formFor store form) (c.itemOf now call reply) (c.writeOptions call)],
        c.buffer)
  else ([], c.buffer)

def writingBatch (c : Cache σ) (store : Store σ) (now : Moment) (form : Form) (call : Call)
    (replies : List Json) : List Request × Option (Buffer Pending) :=
  if c.admits call then
    match call.inputs? with
    | none => c.writing store now form call (.array replies)
    | some inputs =>
      if inputs.length ≠ replies.length then ([], c.buffer)
      else
        let items := c.itemsOf now call inputs replies
        match form with
        | .async => (store.writing items (c.writeOptions call), c.buffer)
        | .blocking => (items.map fun i => .write .blocking i (c.writeOptions call), c.buffer)
  else ([], c.buffer)

/-- The requests of an operation, and the buffer after it. -/
def requests (c : Cache σ) (store : Store σ) (now : Moment) :
    Operation → List Request × Option (Buffer Pending)
  | .read form call =>
    (if c.admits call then
      [.read (Action.formFor store form) (c.key call) (Context.ofCall call)] else [], c.buffer)
  | .write form call reply => c.writing store now form call reply
  | .writeBatch form call replies => c.writingBatch store now form call replies
  | .flush => c.flushing store
  | .ping => (if store.capabilities.ping then [.ping] else [], c.buffer)
  | .delete keys => (if store.capabilities.delete then [.delete keys] else [], c.buffer)
  | .disconnect => ((c.flushing store).1 ++ [.close], (c.flushing store).2)
  | .setSpace _ | .setLifetime _ => ([], c.buffer)

theorem key_congr {c c' : Cache σ} (h : c'.settings = c.settings) (call : Call) :
    c'.key call = c.key call := by
  rw [key, scheme, h]
  rfl

theorem itemOf_congr {c c' : Cache σ} (h : c'.settings = c.settings) (now : Moment) (call : Call)
    (reply : Json) : c'.itemOf now call reply = c.itemOf now call reply := by
  rw [itemOf, key_congr h]
  rfl

theorem itemsOf_congr {c c' : Cache σ} (h : c'.settings = c.settings) (now : Moment) (call : Call)
    (inputs replies : List Json) :
    c'.itemsOf now call inputs replies = c.itemsOf now call inputs replies := by
  simp only [itemsOf]
  simp only [h, itemOf_congr h]

theorem writeOptions_congr {c c' : Cache σ} (h : c'.settings = c.settings) (call : Call) :
    c'.writeOptions call = c.writeOptions call := by
  rw [writeOptions, h]
  rfl

theorem writing_congr {c c' : Cache σ} (h : c'.settings = c.settings) (hb : c'.buffer = c.buffer)
    (store : Store σ) (now : Moment) (form : Form) (call : Call) (reply : Json) :
    c'.writing store now form call reply = c.writing store now form call reply := by
  unfold writing accepts pendingOf admits
  rw [h, hb, itemOf_congr h, writeOptions_congr h]

end Cache

namespace Action

variable {σ : Type} {store : Store σ} {now : Moment} {c : Cache σ}

theorem does_readFailed (key : Key) (f : Fault) (c : Cache σ) :
    Does store now (readFailed key f) c [] c.buffer :=
  Does.of_result rfl rfl rfl rfl

theorem does_finishRead (call : Call) (key : Key) (answer : Except Fault (Option Json))
    (c : Cache σ) : Does store now (finishRead now call key answer) c [] c.buffer := by
  simp only [finishRead]
  cases answer with
  | error f => exact does_readFailed key f c
  | ok stored =>
      cases stored with
      | none => exact Does.of_result rfl rfl rfl rfl
      | some stored =>
          dsimp only
          cases Freshness.judge stored call.directives.maxAge now.wall with
          | error f => exact does_readFailed key f c
          | ok freshness => cases freshness <;> exact Does.of_result rfl rfl rfl rfl

theorem does_read (form : Form) (call : Call) (c : Cache σ) :
    Does store now (read store now form call) c (c.requests store now (.read form call)).1
      c.buffer := by
  obtain ⟨c', hgate, hcontents, hsettings, hbuffer⟩ := result_gate call c
  apply Does.bind_result hgate hcontents hsettings
  rw [← hbuffer]
  cases hadmits : c.admits call with
  | false => simpa [Cache.requests, hadmits] using Does.pure _ c'
  | true =>
      simp only [Cache.requests, hadmits, if_true]
      apply Does.bind_result (result_get c') rfl rfl
      rw [Cache.key_congr hsettings]
      exact (does_ask _ c').bind_quiet fun answer c'' => does_finishRead call _ answer c''

theorem does_writeFailed (n : Nat) (f : Fault) (c : Cache σ) :
    Does store now (writeFailed n f) c [] c.buffer :=
  Does.of_result rfl rfl rfl rfl

theorem does_finishWrite (n : Nat) (strategy : Strategy) (answer : Except Fault Unit)
    (c : Cache σ) : Does store now (finishWrite n strategy answer) c [] c.buffer := by
  cases answer with
  | ok u => exact Does.of_result rfl rfl rfl rfl
  | error f => exact Does.of_result rfl rfl rfl rfl

theorem does_finishWrites (strategy : Strategy) (written failed : Nat) (c : Cache σ) :
    Does store now (finishWrites strategy written failed) c [] c.buffer := by
  simp only [finishWrites]
  split <;> exact Does.of_result rfl rfl rfl rfl

theorem does_writeOne (form : Form) (item : Item) (options : WriteOptions) (c : Cache σ) :
    Does store now (writeOne store now form item options) c [.write form item options] c.buffer :=
  (does_ask _ c).bind_quiet fun answer c' => does_finishWrite 1 .single answer c'

theorem does_writeEach (options : WriteOptions) (items : List Item) (c : Cache σ) :
    Does store now (writeEach store now options items) c
      (items.map fun i => .write .blocking i options) c.buffer := by
  induction items generalizing c with
  | nil => exact Does.pure _ c
  | cons i is ih =>
      have hask : Does store now (ask store now (.write .blocking i options)) c _ _ := does_ask _ c
      rw [List.map_cons, ← List.singleton_append]
      apply hask.bind
      intro answer c' hr
      rw [← hask.buffer_after hr]
      cases answer with
      | ok u => exact (ih c').bind_quiet fun n c'' => Does.pure _ c''
      | error f =>
          have hfailed : Does store now (writeFailed 1 f) c' [] c'.buffer := does_writeFailed 1 f c'
          apply hfailed.bind_of_quiet
          intro u c'' hr'
          rw [← hfailed.buffer_after hr']
          exact (ih c'').bind_quiet fun n c₁ => Does.pure _ c₁

theorem does_writeBlocking (items : List Item) (options : WriteOptions) (c : Cache σ) :
    Does store now (writeBlocking store now items options) c
      (items.map fun i => .write .blocking i options) c.buffer :=
  (does_writeEach options items c).bind_quiet fun n c' => does_finishWrites .blocking n.1 n.2 c'

theorem does_writeFannedOut (items : List Item) (options : WriteOptions) (c : Cache σ) :
    Does store now (writeFannedOut store now items options) c
      (items.map fun i => .write .async i options) c.buffer := by
  rw [List.map_eq_flatMap]
  have hask : ∀ (i : Item) (c : Cache σ), Does store now
      (ask store now (.write .async i options)) c [.write .async i options] c.buffer :=
    fun i c => does_ask _ c
  apply (does_mapM hask items c).bind_quiet
  intro answers c'
  exact (does_forM (fun e c => does_writeFailed 1 e.2 c) _ c').bind_quiet fun _ c'' =>
    does_finishWrites .fanOut _ _ c''

theorem does_writeItems (items : List Item) (options : WriteOptions) (c : Cache σ) :
    Does store now (writeItems store now items options) c (store.writing items options)
      c.buffer := by
  unfold writeItems Store.writing
  dsimp only
  split
  · exact Does.pure _ c
  · split
    · exact does_writeBlocking items options c
    · split
      · exact (does_ask _ c).bind_quiet fun answer c' =>
          does_finishWrite items.length .pipeline answer c'
      · split
        · exact (does_ask _ c).bind_quiet fun answer c' =>
            does_finishWrite items.length .batch answer c'
        · exact does_writeFannedOut items options c

theorem does_writeGroups (so : Outcome) (gs : List (Option Span × List Item)) (c : Cache σ) :
    Does store now (writeGroups store now so gs) c
      (gs.flatMap fun g => store.writing g.2 { lifetime := g.1 }) c.buffer := by
  induction gs generalizing so c with
  | nil => exact Does.pure so c
  | cons g gs ih =>
      have hwrite : Does store now (writeItems store now g.2 { lifetime := g.1 }) c _ _ :=
        does_writeItems g.2 { lifetime := g.1 } c
      rw [List.flatMap_cons]
      apply hwrite.bind
      intro outcome c' hr
      rw [← hwrite.buffer_after hr]
      exact ih (so.merge outcome) c'

/-- What is held back is taken out before the store is asked, so a crash does not bring it back. -/
theorem result_drain (c : Cache σ) :
    result drain c = (.ok c.held, { c with buffer := c.buffer.map fun b => b.drain.2 }) := by
  obtain ⟨settings, contents, buffer, stats, events⟩ := c
  cases buffer <;> rfl

theorem does_flush (c : Cache σ) :
    Does store now (flush store now) c (c.flushing store).1 (c.flushing store).2 :=
  Does.bind_result (result_drain c) rfl rfl (does_writeGroups (.written 0) _ _)

theorem does_hold (b : Buffer Pending) (p : Pending) (c : Cache σ) :
    Does store now (hold store now b p) c (store.holding b p).1 (store.holding b p).2 := by
  apply Does.bind_result (result_modify _ c) rfl rfl
  simp only [Store.holding]
  split
  · exact does_flush { c with buffer := some (b.push p) }
  · exact Does.of_result rfl rfl rfl rfl

theorem does_write (form : Form) (call : Call) (reply : Json) (c : Cache σ) :
    Does store now (write store now form call reply) c (c.writing store now form call reply).1
      (c.writing store now form call reply).2 := by
  obtain ⟨c₁, hgate, hcontents, hsettings, hbuffer⟩ := result_gate call c
  apply Does.bind_result hgate hcontents hsettings
  unfold Cache.writing Cache.accepts
  cases hadmits : c.admits call with
  | false =>
      simp only [Bool.false_and, Bool.false_eq_true, if_false]
      rw [← hbuffer]
      exact Does.pure _ c₁
  | true =>
      obtain ⟨c₂, hfits, hcontents', hsettings', hbuffer'⟩ := result_fits reply c₁
      apply Does.bind_result hfits hcontents' hsettings'
      rw [hsettings, Bool.true_and]
      rw [hsettings] at hsettings'
      rw [hbuffer] at hbuffer'
      by_cases hsize : reply.textSize ≤ c.settings.largest
      · simp only [hsize, decide_true, if_true]
        apply Does.bind_result (result_get c₂) rfl rfl
        have hitem := Cache.itemOf_congr hsettings' now call reply
        have hoptions := Cache.writeOptions_congr hsettings' call
        simp only [Cache.itemOf] at hitem
        have hone : Does store now (writeOne store now (formFor store form)
            (c.itemOf now call reply) (c.writeOptions call)) c₂ _ _ := does_writeOne _ _ _ c₂
        rw [hitem, hoptions, ← hbuffer']
        cases hb : c₂.buffer with
        | none =>
            rw [hb] at hone
            cases form <;> exact hone
        | some b =>
            rw [hb] at hone
            cases form with
            | async => exact does_hold b _ c₂
            | blocking => exact hone
      · simp only [hsize, decide_false, Bool.false_eq_true, if_false]
        rw [← hbuffer']
        exact Does.pure _ c₂

theorem result_filterFits (es acc : List (Json × Json)) (c : Cache σ) :
    ∃ c', result (List.filterAuxM (fun e => fits e.2) es acc) c =
        (.ok ((es.filter fun e => decide (e.2.textSize ≤ c.settings.largest)).reverse ++ acc), c') ∧
      c'.contents = c.contents ∧ c'.settings = c.settings ∧ c'.buffer = c.buffer := by
  induction es generalizing acc c with
  | nil => exact ⟨c, rfl, rfl, rfl, rfl⟩
  | cons e es ih =>
      obtain ⟨c₁, hfits, hcontents, hsettings, hbuffer⟩ := result_fits e.2 c
      obtain ⟨c₂, hrest, hcontents', hsettings', hbuffer'⟩ :=
        ih (cond (decide (e.2.textSize ≤ c.settings.largest)) (e :: acc) acc) c₁
      refine ⟨c₂, ?_, hcontents'.trans hcontents, hsettings'.trans hsettings,
        hbuffer'.trans hbuffer⟩
      rw [List.filterAuxM, result_bind, hfits]
      dsimp only
      rw [hrest, hsettings]
      by_cases hsize : e.2.textSize ≤ c.settings.largest
      · simp [hsize]
      · simp [hsize]

theorem result_batchItems (now : Moment) (call : Call) (inputs replies : List Json) (c : Cache σ) :
    ∃ c', result (batchItems now call inputs replies) c =
        (.ok (c.itemsOf now call inputs replies), c') ∧
      c'.contents = c.contents ∧ c'.settings = c.settings ∧ c'.buffer = c.buffer := by
  obtain ⟨c', hfits, hcontents, hsettings, hbuffer⟩ := result_filterFits (inputs.zip replies) [] c
  refine ⟨c', ?_, hcontents, hsettings, hbuffer⟩
  have hfilter : result ((inputs.zip replies).filterM fun e => fits e.2) c =
      (.ok ((inputs.zip replies).filter fun e => decide (e.2.textSize ≤ c.settings.largest)),
        c') := by
    rw [List.filterM, result_bind, hfits]
    simp
  simp only [batchItems]
  rw [result_bind, hfilter]
  dsimp only
  rw [result_bind, result_get]
  dsimp only
  rw [result_pure]
  simp only [Cache.itemsOf, Cache.itemOf]
  simp only [Cache.key_congr hsettings]

theorem does_writeBatch (form : Form) (call : Call) (replies : List Json) (c : Cache σ) :
    Does store now (writeBatch store now form call replies) c
      (c.writingBatch store now form call replies).1
      (c.writingBatch store now form call replies).2 := by
  obtain ⟨c₁, hgate, hcontents, hsettings, hbuffer⟩ := result_gate call c
  apply Does.bind_result hgate hcontents hsettings
  simp only [Cache.writingBatch]
  cases hadmits : c.admits call with
  | false =>
      simp only [Bool.false_eq_true, if_false]
      rw [← hbuffer]
      exact Does.pure _ c₁
  | true =>
      simp only [Bool.not_true, Bool.false_eq_true, if_false, if_true]
      cases call.inputs? with
      | none =>
          dsimp only
          rw [← Cache.writing_congr hsettings hbuffer]
          exact does_write form call (.array replies) c₁
      | some inputs =>
          dsimp only
          by_cases hlen : inputs.length ≠ replies.length
          · rw [if_pos hlen, if_pos hlen, ← hbuffer]
            exact Does.of_result rfl rfl rfl rfl
          · obtain ⟨c₂, hitems, hcontents', hsettings', hbuffer'⟩ :=
              result_batchItems now call inputs replies c₁
            rw [if_neg hlen, if_neg hlen]
            apply Does.bind_result hitems hcontents' hsettings'
            apply Does.bind_result (result_get c₂) rfl rfl
            rw [hsettings] at hsettings'
            rw [hbuffer] at hbuffer'
            rw [Cache.itemsOf_congr hsettings, Cache.writeOptions_congr hsettings', ← hbuffer']
            cases form with
            | async => exact does_writeItems _ _ c₂
            | blocking => exact does_writeBlocking _ _ c₂

theorem does_ping (c : Cache σ) :
    Does store now (ping store now) c (c.requests store now .ping).1 c.buffer := by
  simp only [ping, Cache.requests]
  split
  · apply (does_ask _ c).bind_quiet
    intro answer c'
    cases answer with
    | ok alive => exact Does.pure _ c'
    | error f => exact Does.of_result rfl rfl rfl rfl
  · exact Does.pure _ c

theorem does_delete (keys : List Key) (c : Cache σ) :
    Does store now (delete store now keys) c (c.requests store now (.delete keys)).1 c.buffer := by
  simp only [delete, Cache.requests]
  split
  · apply (does_ask _ c).bind_quiet
    intro answer c'
    cases answer with
    | ok n => exact Does.pure _ c'
    | error f => exact Does.of_result rfl rfl rfl rfl
  · exact Does.pure _ c

theorem does_disconnect (c : Cache σ) :
    Does store now (disconnect store now) c (c.requests store now .disconnect).1
      (c.requests store now .disconnect).2 := by
  apply (does_flush c).bind
  intro outcome c' hr
  rw [← (does_flush c).buffer_after hr]
  apply (does_ask _ c').bind_quiet
  intro answer c''
  cases answer with
  | ok u => exact Does.pure _ c''
  | error f => exact Does.of_result rfl rfl rfl rfl

end Action

namespace Operation

def settle : Operation → Settings → Settings
  | .setSpace space, s => { s with space }
  | .setLifetime lifetime, s => { s with lifetime }
  | _, s => s

end Operation

namespace Cache

variable {σ : Type} (store : Store σ) (now : Moment)

/-- What is left of an operation: the store after its requests, its buffer and its settings. It has
an answer unless one of its requests crashed the store. -/
theorem step_leaves (o : Operation) (c : Cache σ) :
    (c.step store now o).2.contents = (store.serveAll now (c.requests store now o).1 c.contents).2 ∧
      (c.step store now o).1.isOk = (store.serveAll now (c.requests store now o).1 c.contents).1 ∧
      (c.step store now o).2.buffer = (c.requests store now o).2 ∧
      (c.step store now o).2.settings = o.settle c.settings := by
  have of_does : ∀ {α : Type} {act : Action σ α} {rs : List Request} {b : Option (Buffer Pending)},
      Action.Does store now act c rs b →
        (act.run.run c).2.contents = (store.serveAll now rs c.contents).2 ∧
        (act.run.run c).1.isOk = (store.serveAll now rs c.contents).1 ∧
        (act.run.run c).2.buffer = b ∧ (act.run.run c).2.settings = c.settings :=
    fun h => ⟨h.contents, h.survives, h.buffer, h.settings⟩
  cases o with
  | read form call => exact of_does (Action.does_read form call c)
  | write form call reply => exact of_does (Action.does_write form call reply c)
  | writeBatch form call replies => exact of_does (Action.does_writeBatch form call replies c)
  | flush => exact of_does (Action.does_flush c)
  | ping => exact of_does (Action.does_ping c)
  | delete keys => exact of_does (Action.does_delete keys c)
  | disconnect => exact of_does (Action.does_disconnect c)
  | setSpace space => exact ⟨rfl, rfl, rfl, rfl⟩
  | setLifetime lifetime => exact ⟨rfl, rfl, rfl, rfl⟩

theorem step_contents (o : Operation) (c : Cache σ) :
    (c.step store now o).2.contents =
      (store.serveAll now (c.requests store now o).1 c.contents).2 :=
  (step_leaves store now o c).1

theorem step_isOk (o : Operation) (c : Cache σ) :
    (c.step store now o).1.isOk = (store.serveAll now (c.requests store now o).1 c.contents).1 :=
  (step_leaves store now o c).2.1

theorem step_buffer (o : Operation) (c : Cache σ) :
    (c.step store now o).2.buffer = (c.requests store now o).2 :=
  (step_leaves store now o c).2.2.1

theorem step_settings (o : Operation) (c : Cache σ) :
    (c.step store now o).2.settings = o.settle c.settings :=
  (step_leaves store now o c).2.2.2

end Cache

end ReplyCache
