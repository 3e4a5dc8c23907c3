import ReplyCache.Proofs.Cache.Contexts
import ReplyCache.Proofs.Cache.History
import ReplyCache.Proofs.Tally

namespace ReplyCache

namespace Event

def unlabelled : Event → Event
  | written n _ => written n .single
  | e => e

end Event

namespace Operation

/-- The operation in the form in which the caller waits for the answer. -/
def blocking : Operation → Operation
  | read _ call => read .blocking call
  | write _ call reply => write .blocking call reply
  | writeBatch _ call replies => writeBatch .blocking call replies
  | o => o

end Operation

structure Turn where
  swapped : Bool
  now : Moment
  operation : Operation

namespace Turn

def done (t : Turn) : Operation := if t.swapped then t.operation.blocking else t.operation

def asMeant (ts : List Turn) : List (Moment × Operation) := ts.map fun t => (t.now, t.operation)

def asDone (ts : List Turn) : List (Moment × Operation) := ts.map fun t => (t.now, t.done)

end Turn

def Answered.heard {α : Type} : Answered α → Except Crash (Except Fault α)
  | .ok a => .ok (.ok a)
  | .error (.fault f) => .ok (.error f)
  | .error .crash => .error .crash

namespace Store

variable {σ : Type}

def writeEach (store : Store σ) (now : Moment) (options : WriteOptions) :
    List Item → σ → Except Crash (List (Except Fault Unit)) × σ
  | [], s => (.ok [], s)
  | i :: is, s =>
    let (answer, s') := store.serve now (.write .blocking i options) s
    match answer.heard with
    | .error e => (.error e, s')
    | .ok a =>
      let (answers, s'') := store.writeEach now options is s'
      (answers.map (a :: ·), s'')

theorem writeEach_cons_error {store : Store σ} {now : Moment} {options : WriteOptions} {i : Item}
    {s s' : σ} {answer : Answered Unit} {e : Crash}
    (hserve : store.serve now (.write .blocking i options) s = (answer, s'))
    (h : answer.heard = .error e) (is : List Item) :
    store.writeEach now options (i :: is) s = (.error e, s') := by
  rw [writeEach, hserve]
  dsimp only
  rw [h]

theorem writeEach_cons_ok {store : Store σ} {now : Moment} {options : WriteOptions} {i : Item}
    {s s' : σ} {answer : Answered Unit} {a : Except Fault Unit}
    (hserve : store.serve now (.write .blocking i options) s = (answer, s'))
    (h : answer.heard = .ok a) (is : List Item) :
    store.writeEach now options (i :: is) s =
      ((store.writeEach now options is s').1.map (a :: ·),
        (store.writeEach now options is s').2) := by
  rw [writeEach, hserve]
  dsimp only
  rw [h]

/-- Reading and writing single items does the same in both forms. -/
structure IgnoresForm (store : Store σ) : Prop where
  read : ∀ now k context s, store.serve now (.read .async k context) s =
    store.serve now (.read .blocking k context) s
  write : ∀ now i options s, store.serve now (.write .async i options) s =
    store.serve now (.write .blocking i options) s

/-- Writing many items at once, unless it fails, is writing them one after the other. -/
def WritesInOrder (store : Store σ) : Prop :=
  ∀ now means items options s s', store.serve now (.writeAll means items options) s = (.ok (), s') →
    store.writeEach now options items s = (.ok (items.map fun _ => .ok ()), s')

def grants (store : Store σ) (now : Moment) : List Request → σ → Bool
  | [], _ => true
  | r :: rs, s =>
    match store.serve now r s with
    | (.ok _, s') => store.grants now rs s'
    | (.error _, _) => false

end Store

namespace Cache

variable {σ : Type}

def leavesNothing (c : Cache σ) : Operation → Bool
  | .writeBatch .async call replies =>
    c.admits call && call.inputs?.any fun inputs =>
      inputs.length = replies.length && replies.all fun r => c.settings.largest < r.textSize
  | _ => false

def afterFailure (c : Cache σ) (f : Fault) : Cache σ :=
  { c with stats := c.stats.add 1 .errors, events := c.events ++ [.writeFailed 1 f] }

def afterFailures (c : Cache σ) (fs : List Fault) : Cache σ := fs.foldl afterFailure c

end Cache

namespace Action

variable {σ α β : Type} {store : Store σ} {now : Moment} {c : Cache σ}

theorem ext {act act' : Action σ α} (h : ∀ c, result act c = result act' c) : act = act' :=
  funext h

theorem result_ask_heard (r : Request) (c : Cache σ) :
    result (ask store now r) c = ((store.serve now r c.contents).1.heard,
      { c with contents := (store.serve now r c.contents).2 }) := by
  rw [result_ask]
  obtain ⟨answer, s⟩ := store.serve now r c.contents
  cases answer with
  | ok a => rfl
  | error f => cases f <;> rfl

theorem ask_read (h : store.IgnoresForm) (now : Moment) (form : Form) (k : Key)
    (context : Context) :
    (ask store now (.read form k context) : Action σ (Except Fault (Option Json))) =
      ask store now (.read .blocking k context) := by
  cases form with
  | blocking => rfl
  | async =>
      refine ext fun c => ?_
      rw [result_ask_heard, result_ask_heard, h.read]

theorem ask_write (h : store.IgnoresForm) (now : Moment) (form : Form) (i : Item)
    (options : WriteOptions) :
    (ask store now (.write form i options) : Action σ (Except Fault Unit)) =
      ask store now (.write .blocking i options) := by
  cases form with
  | blocking => rfl
  | async =>
      refine ext fun c => ?_
      rw [result_ask_heard, result_ask_heard, h.write]

theorem read_blocking (h : store.IgnoresForm) (now : Moment) (form : Form) (call : Call) :
    read store now form call = read store now .blocking call := by
  refine congrArg (gate call >>= ·) (funext fun admitted => ?_)
  cases admitted with
  | false => rfl
  | true =>
      refine congrArg (get >>= ·) (funext fun c => ?_)
      have hask := (ask_read h now (formFor store form) (c.key call)
        (Context.ofCall call)).trans (ask_read h now (formFor store .blocking) _ _).symm
      exact congrArg (· >>= finishRead now call (c.key call)) hask

theorem writeOne_blocking (h : store.IgnoresForm) (now : Moment) (form form' : Form) (i : Item)
    (options : WriteOptions) :
    writeOne store now form i options = writeOne store now form' i options := by
  have hask := (ask_write h now form i options).trans (ask_write h now form' i options).symm
  exact congrArg (· >>= finishWrite 1 .single) hask

theorem result_mapM_ask (h : store.IgnoresForm) (now : Moment) (options : WriteOptions)
    (items : List Item) (c : Cache σ) :
    result (items.mapM fun i =>
        (ask store now (.write .async i options) : Action σ (Except Fault Unit))) c =
      ((store.writeEach now options items c.contents).1,
        { c with contents := (store.writeEach now options items c.contents).2 }) := by
  induction items generalizing c with
  | nil => rfl
  | cons i is ih =>
      rw [List.mapM_cons, result_bind, ask_write h, result_ask_heard]
      cases hserve : store.serve now (.write .blocking i options) c.contents with
      | mk answer s =>
          dsimp only
          cases hheard : answer.heard with
          | error e =>
              rw [Store.writeEach_cons_error hserve hheard]
          | ok a =>
              dsimp only
              rw [Store.writeEach_cons_ok hserve hheard, result_bind, ih]
              cases (store.writeEach now options is s).1 <;> rfl

theorem result_forM_writeFailed (es : List (Nat × Fault)) (c : Cache σ) :
    result (es.forM fun e => writeFailed 1 e.2) c =
      (.ok ⟨⟩, c.afterFailures (es.map Prod.snd)) := by
  induction es generalizing c with
  | nil => rfl
  | cons e es ih => exact ih (c.afterFailure e.2)

/-- Told in between or told in the end, the failures are the same in the same order. -/
theorem result_writeEach (options : WriteOptions) {items : List Item} {c : Cache σ}
    {answers : List (Except Fault Unit)} {s : σ}
    (h : store.writeEach now options items c.contents = (.ok answers, s)) :
    result (writeEach store now options items) c =
      (.ok (answers.countP Except.isOk, (answers.filterMap Tally.error?).length),
        Cache.afterFailures { c with contents := s } (answers.filterMap Tally.error?)) := by
  induction items generalizing c answers with
  | nil =>
      obtain ⟨hanswers, rfl⟩ := Prod.mk.inj h
      obtain rfl := Except.ok.inj hanswers
      rfl
  | cons i is ih =>
      rw [writeEach, result_bind, result_ask_heard]
      cases hserve : store.serve now (.write .blocking i options) c.contents with
      | mk answer s' =>
          dsimp only
          cases hheard : answer.heard with
          | error e =>
              rw [Store.writeEach_cons_error hserve hheard] at h
              cases (Prod.mk.inj h).1
          | ok a =>
              rw [Store.writeEach_cons_ok hserve hheard] at h
              cases hrest : store.writeEach now options is s' with
              | mk rest s'' =>
                  rw [hrest] at h
                  cases rest with
                  | error e => cases (Prod.mk.inj h).1
                  | ok answers' =>
                      obtain ⟨hanswers, hs⟩ := Prod.mk.inj h
                      obtain rfl : s'' = s := hs
                      obtain rfl : a :: answers' = answers := Except.ok.inj hanswers
                      cases a with
                      | ok u =>
                          dsimp only
                          rw [result_bind, ih hrest, List.countP_cons_of_pos (by rfl)]
                          rfl
                      | error f =>
                          have hfailed : result (writeFailed 1 f) { c with contents := s' } =
                              (.ok ⟨⟩, Cache.afterFailure { c with contents := s' } f) := rfl
                          have hcount : ¬ Except.isOk (.error f : Except Fault Unit) = true := by
                            simp [Except.isOk, Except.toBool]
                          dsimp only
                          rw [result_bind, hfailed]
                          dsimp only
                          rw [result_bind, ih hrest, List.countP_cons_of_neg hcount]
                          rfl

theorem result_writeEach_crash (options : WriteOptions) {items : List Item} {c : Cache σ}
    {e : Crash} {s : σ} (h : store.writeEach now options items c.contents = (.error e, s)) :
    (result (writeEach store now options items) c).1 = .error e ∧
      (result (writeEach store now options items) c).2.contents = s := by
  induction items generalizing c with
  | nil => cases (Prod.mk.inj h).1
  | cons i is ih =>
      rw [writeEach, result_bind, result_ask_heard]
      cases hserve : store.serve now (.write .blocking i options) c.contents with
      | mk answer s' =>
          dsimp only
          cases hheard : answer.heard with
          | error e' =>
              rw [Store.writeEach_cons_error hserve hheard] at h
              obtain ⟨he, rfl⟩ := Prod.mk.inj h
              obtain rfl := Except.error.inj he
              exact ⟨rfl, rfl⟩
          | ok a =>
              rw [Store.writeEach_cons_ok hserve hheard] at h
              cases hrest : store.writeEach now options is s' with
              | mk rest s'' =>
                  rw [hrest] at h
                  cases rest with
                  | ok answers' => cases (Prod.mk.inj h).1
                  | error e' =>
                      obtain ⟨he, hs⟩ := Prod.mk.inj h
                      obtain rfl : s'' = s := hs
                      obtain rfl : e' = e := Except.error.inj he
                      have hcrash : ∀ {γ : Type} (g : Nat × Nat → Action σ γ) {d : Cache σ},
                          d.contents = s' →
                            (result (writeEach store now options is >>= g) d).1 = .error e' ∧
                            (result (writeEach store now options is >>= g) d).2.contents = s'' := by
                        intro γ g d hd
                        have hcase := ih (c := d) (by rw [hd]; exact hrest)
                        rw [result_bind]
                        cases hr : result (writeEach store now options is) d with
                        | mk answer' d' =>
                            rw [hr] at hcase
                            obtain ⟨hanswer, hcontents⟩ := hcase
                            dsimp only at hanswer hcontents ⊢
                            rw [hanswer]
                            exact ⟨rfl, hcontents⟩
                      cases a with
                      | ok u => exact hcrash _ rfl
                      | error f => exact hcrash _ rfl

/-- Two results that are the same up to how writes were made, but that more is told in the first. A
crash may come before failures are told or after. -/
structure Twins {α β : Type} (more : List Event) (x : Except Crash α × Cache σ)
    (y : Except Crash β × Cache σ) : Prop where
  answer : HEq x.1 y.1
  contents : x.2.contents = y.2.contents
  stats : y.1.isOk = true → x.2.stats = y.2.stats
  events : y.1.isOk = true →
    x.2.events.map Event.unlabelled = y.2.events.map Event.unlabelled ++ more

theorem Twins.of_eq {x y : Except Crash α × Cache σ} (h : x = y) : Twins [] x y := by
  subst h
  exact ⟨HEq.rfl, rfl, fun _ => rfl, fun _ => (List.append_nil _).symm⟩

theorem Twins.of_crash {e : Crash} {c d : Cache σ} (h : c.contents = d.contents) :
    Twins [] ((.error e, c) : Except Crash α × Cache σ)
      ((.error e, d) : Except Crash α × Cache σ) :=
  ⟨HEq.rfl, h, fun hok => (nomatch hok), fun hok => (nomatch hok)⟩

theorem twins_finishWrites (strategy strategy' : Strategy) (written failed : Nat) (c : Cache σ) :
    Twins [] (result (finishWrites strategy written failed) c)
      (result (finishWrites strategy' written failed) c) := by
  have hresult : ∀ l : Strategy, result (finishWrites l written failed : Action σ Outcome) c =
      if failed = 0 then
        (.ok (.written written), { c with
          stats := c.stats.add written .sets, events := c.events ++ [.written written l] })
      else (.ok (.failed written failed), { c with stats := c.stats.add written .sets }) := by
    intro l
    simp only [finishWrites]
    split <;> rfl
  rw [hresult, hresult]
  split
  · refine ⟨HEq.rfl, rfl, fun _ => rfl, fun _ => ?_⟩
    simp [Event.unlabelled]
  · exact Twins.of_eq rfl

theorem twins_writeFannedOut (h : store.IgnoresForm) (items : List Item) (options : WriteOptions)
    (c : Cache σ) : Twins [] (result (writeBlocking store now items options) c)
      (result (writeFannedOut store now items options) c) := by
  cases hall : store.writeEach now options items c.contents with
  | mk answers s =>
      have hasked := result_mapM_ask h now options items c
      rw [hall] at hasked
      simp only [writeBlocking, writeFannedOut]
      rw [result_bind, result_bind, hasked]
      cases answers with
      | error e =>
          obtain ⟨hanswer, hcontents⟩ := result_writeEach_crash options hall
          cases hr : result (writeEach store now options items) c with
          | mk answer c' =>
              rw [hr] at hanswer hcontents
              dsimp only at hanswer hcontents ⊢
              rw [hanswer]
              exact Twins.of_crash hcontents
      | ok answers =>
          rw [result_writeEach options hall]
          dsimp only
          rw [result_bind, result_forM_writeFailed, Tally.failures_ofResults,
            Tally.successCount_ofResults, Tally.failureCount_ofResults]
          exact twins_finishWrites .blocking .fanOut _ _ _

theorem twins_writeAll (hinorder : store.WritesInOrder) {means : Bulk} {items : List Item}
    {options : WriteOptions} {c : Cache σ}
    (hgrants : store.grants now [.writeAll means items options] c.contents = true)
    (strategy : Strategy) :
    Twins [] (result (writeBlocking store now items options) c)
      (result (ask store now (.writeAll means items options) >>=
        finishWrite items.length strategy) c) := by
  simp only [Store.grants] at hgrants
  rw [result_bind, result_ask_heard]
  cases hserve : store.serve now (.writeAll means items options) c.contents with
  | mk answer s =>
      rw [hserve] at hgrants
      cases answer with
      | error x => cases hgrants
      | ok u =>
          have hall := hinorder now means items options c.contents s hserve
          have hfaults : (items.map fun _ => (.ok () : Except Fault Unit)).filterMap
              Tally.error? = [] := by
            simp [Tally.error?]
          have hcount : (items.map fun _ => (.ok () : Except Fault Unit)).countP Except.isOk =
              items.length := by
            rw [List.countP_map]
            exact List.countP_eq_length.2 fun _ _ => rfl
          simp only [writeBlocking]
          rw [result_bind, result_writeEach options hall, hfaults, hcount]
          exact twins_finishWrites .blocking strategy items.length 0 _

theorem twins_writeItems (h : store.IgnoresForm) {items : List Item} {options : WriteOptions}
    {c : Cache σ} (hbulk : store.capabilities.bulk = false ∨
      store.WritesInOrder ∧ store.grants now (store.writing items options) c.contents = true) :
    Twins (if items = [] then [.written 0 .single] else [])
      (result (writeBlocking store now items options) c)
      (result (writeItems store now items options) c) := by
  unfold writeItems Store.writing at *
  dsimp only at *
  cases items with
  | nil =>
      refine ⟨HEq.rfl, rfl, fun _ => ?_, fun _ => ?_⟩
      · change c.stats.add 0 .sets = c.stats
        simp [Stats.add]
      · change (c.events ++ [Event.written 0 .blocking]).map Event.unlabelled = _
        simp [Event.unlabelled]
  | cons i is =>
      have hfilled : ¬ (i :: is).isEmpty = true := by simp
      rw [if_neg (List.cons_ne_nil i is), if_neg hfilled]
      rw [if_neg hfilled] at hbulk
      by_cases hasync : (!store.capabilities.async) = true
      · rw [if_pos hasync]
        exact Twins.of_eq rfl
      · rw [if_neg hasync] at hbulk ⊢
        by_cases hpipeline : store.capabilities.pipeline = true
        · rw [if_pos hpipeline] at hbulk ⊢
          obtain ⟨hinorder, hgrants⟩ := hbulk.resolve_left (by simp [Capabilities.bulk, hpipeline])
          exact twins_writeAll hinorder hgrants .pipeline
        · rw [if_neg hpipeline] at hbulk ⊢
          by_cases hbatch : store.capabilities.batch = true
          · rw [if_pos hbatch] at hbulk ⊢
            obtain ⟨hinorder, hgrants⟩ := hbulk.resolve_left (by simp [Capabilities.bulk, hbatch])
            exact twins_writeAll hinorder hgrants .batch
          · rw [if_neg hbatch]
            exact twins_writeFannedOut h _ options c

theorem result_write_blocking (h : store.IgnoresForm) (hb : c.buffer = none) (form : Form)
    (call : Call) (reply : Json) :
    result (write store now .blocking call reply) c =
      result (write store now form call reply) c := by
  obtain ⟨c₁, hgate, -, -, hbuffer⟩ := result_gate call c
  simp only [write]
  rw [result_bind, result_bind, hgate]
  dsimp only
  cases c.admits call with
  | false => rfl
  | true =>
      obtain ⟨c₂, hfits, -, -, hbuffer'⟩ := result_fits reply c₁
      have hnone : c₂.buffer = none := by rw [hbuffer', hbuffer, hb]
      simp only [Bool.not_true, Bool.false_eq_true, if_false]
      rw [result_bind, result_bind, hfits]
      dsimp only
      cases decide (reply.textSize ≤ c₁.settings.largest) with
      | false => rfl
      | true =>
          simp only [Bool.not_true, Bool.false_eq_true, if_false]
          rw [result_bind, result_bind, result_get]
          dsimp only
          rw [hnone]
          cases form with
          | blocking => rfl
          | async =>
              dsimp only
              rw [writeOne_blocking h now (formFor store .blocking) (formFor store .async)]

theorem itemsOf_eq_nil {inputs replies : List Json} (hlength : inputs.length = replies.length) :
    c.itemsOf now call inputs replies = [] ↔
      (replies.all fun r => c.settings.largest < r.textSize) = true := by
  have hzip : replies = (inputs.zip replies).map Prod.snd :=
    (List.map_snd_zip (Nat.le_of_eq hlength.symm)).symm
  rw [hzip, List.all_map, List.all_eq_true, ← hzip]
  simp only [Cache.itemsOf, List.map_eq_nil_iff, List.filter_eq_nil_iff, Function.comp_apply,
    decide_eq_true_eq, Nat.not_le]

theorem twins_writeBatch (h : store.IgnoresForm) (hb : c.buffer = none) {call : Call}
    {replies : List Json} (hbulk : store.capabilities.bulk = false ∨ store.WritesInOrder ∧
      store.grants now (c.requests store now (.writeBatch .async call replies)).1 c.contents =
        true) :
    Twins (if c.leavesNothing (.writeBatch .async call replies) then [.written 0 .single] else [])
      (result (writeBatch store now .blocking call replies) c)
      (result (writeBatch store now .async call replies) c) := by
  obtain ⟨c₁, hgate, hcontents, hsettings, hbuffer⟩ := result_gate call c
  simp only [writeBatch, Cache.leavesNothing]
  simp only [Cache.requests, Cache.writingBatch] at hbulk
  rw [result_bind, result_bind, hgate]
  dsimp only
  rcases Bool.eq_false_or_eq_true (c.admits call) with hadmits | hadmits
  · simp only [hadmits, Bool.not_true, Bool.false_eq_true, if_false, if_true,
      Bool.true_and] at hbulk ⊢
    cases hinputs : call.inputs? with
    | none => exact Twins.of_eq (result_write_blocking h (hbuffer.trans hb) .async call _)
    | some inputs =>
        rw [hinputs] at hbulk
        dsimp only at hbulk ⊢
        by_cases hlength : inputs.length = replies.length
        · obtain ⟨c₂, hitems, hcontents', hsettings', -⟩ :=
            result_batchItems now call inputs replies c₁
          simp only [hlength, ne_eq, not_true_eq_false, if_false, Option.any_some, decide_true,
            Bool.true_and] at hbulk ⊢
          rw [result_bind, result_bind, hitems]
          dsimp only
          rw [result_bind, result_bind, result_get]
          dsimp only
          rw [Cache.itemsOf_congr hsettings,
            Cache.writeOptions_congr (hsettings'.trans hsettings)]
          rw [← hcontents, ← hcontents'] at hbulk
          have htwins := twins_writeItems h hbulk
          simp only [itemsOf_eq_nil hlength] at htwins
          exact htwins
        · rw [if_pos hlength, if_pos hlength]
          simp only [hlength, decide_false, Bool.false_and, Option.any_some]
          exact Twins.of_eq rfl
  · simp only [hadmits, Bool.not_false, if_true, Bool.false_and, Bool.false_eq_true, if_false]
    exact Twins.of_eq rfl

end Action

namespace Cache

variable {σ : Type} {store : Store σ} {now : Moment} {c d : Cache σ} {o : Operation}

/-- The requests of an operation do what single writes in their order do, none of which fails, if
there is a request to write many items at once among them. -/
def Spreads (store : Store σ) (c : Cache σ) (now : Moment) (o : Operation) : Prop :=
  store.capabilities.bulk = false ∨
    store.WritesInOrder ∧ store.grants now (c.requests store now o).1 c.contents = true

theorem twins_step (h : store.IgnoresForm) (hb : c.buffer = none)
    (hspreads : Spreads store c now o) :
    Action.Twins (if c.leavesNothing o then [.written 0 .single] else [])
      (c.step store now o.blocking) (c.step store now o) := by
  cases o with
  | read form call =>
      have hread := Action.read_blocking h now form call
      exact Action.Twins.of_eq (congrArg (Action.result · c) hread.symm)
  | write form call reply =>
      exact Action.Twins.of_eq (Action.result_write_blocking h hb form call reply)
  | writeBatch form call replies =>
      cases form with
      | blocking => exact Action.Twins.of_eq rfl
      | async => exact Action.twins_writeBatch h hb hspreads
  | flush | ping | delete | disconnect | setSpace | setLifetime => exact Action.Twins.of_eq rfl

theorem fresh_congr (hsettings : c.settings = d.settings) (hcontents : c.contents = d.contents)
    (hbuffer : c.buffer = d.buffer) : c.fresh = d.fresh := by
  rw [fresh, fresh, hsettings, hcontents, hbuffer]

theorem stats_step (store : Store σ) (now : Moment) (o : Operation) (c : Cache σ) :
    (c.step store now o).2.stats = c.stats.plus (c.fresh.step store now o).2.stats := by
  rw [step_eq_fresh]
  rfl

theorem fresh_step_blocking (h : store.IgnoresForm) (hb : c.buffer = none)
    (hspreads : Spreads store c now o) :
    (c.step store now o.blocking).2.fresh = (c.step store now o).2.fresh := by
  apply fresh_congr
  · rw [step_settings, step_settings]
    cases o <;> rfl
  · exact (twins_step h hb hspreads).contents
  · rw [buffer_step_of_none store now _ hb, buffer_step_of_none store now _ hb]

structure Abreast (store : Store σ) (c d : Cache σ) (t : Turn) : Prop where
  answer : HEq (d.step store t.now t.done).1 (c.step store t.now t.operation).1
  fresh : (d.step store t.now t.done).2.fresh = (c.step store t.now t.operation).2.fresh
  stats : (c.step store t.now t.operation).1.isOk = true → d.stats = c.stats →
    (d.step store t.now t.done).2.stats = (c.step store t.now t.operation).2.stats
  told : (c.step store t.now t.operation).1.isOk = true →
    (d.told store t.now t.done).map Event.unlabelled =
      (c.told store t.now t.operation).map Event.unlabelled ++
        if t.swapped && c.leavesNothing t.operation then [.written 0 .single] else []

theorem abreast (h : store.IgnoresForm) (hb : c.buffer = none) (hcd : d.fresh = c.fresh) {t : Turn}
    (hspreads : Spreads store c t.now t.operation) : Abreast store c d t := by
  obtain ⟨swapped, now, o⟩ := t
  dsimp only at hspreads
  have hstats : ∀ o' : Operation, d.stats = c.stats →
      (d.step store now o').2.stats = (c.step store now o').2.stats := by
    intro o' heq
    rw [stats_step, hcd, heq, ← stats_step]
  obtain ⟨hanswer, htold, hfresh⟩ := step_congr store now o hcd
  obtain ⟨hanswer', htold', hfresh'⟩ := step_congr store now o.blocking hcd
  cases swapped with
  | false =>
      refine ⟨heq_of_eq hanswer, hfresh, fun _ => hstats o, fun _ => ?_⟩
      exact (congrArg _ htold).trans (List.append_nil _).symm
  | true =>
      -- what a step adds to statistics and events is what it does to a cache without a past
      have htwins := twins_step h (c := c.fresh) hb hspreads
      have hok : (c.step store now o).1.isOk = true → (c.fresh.step store now o).1.isOk = true := by
        rw [step_answer]
        exact id
      refine ⟨?_, ?_, ?_, ?_⟩
      · exact (heq_of_eq hanswer').trans (twins_step h hb hspreads).answer
      · exact hfresh'.trans (fresh_step_blocking h hb hspreads)
      · intro hanswers heq
        refine (hstats o.blocking heq).trans ?_
        rw [stats_step store now o.blocking c, htwins.stats (hok hanswers)]
        exact (stats_step store now o c).symm
      · intro hanswers
        refine (congrArg _ htold').trans ?_
        rw [told_eq_fresh, told_eq_fresh]
        exact htwins.events (hok hanswers)

theorem run_turns (h : store.IgnoresForm) {ts : List Turn} (hb : c.buffer = none)
    (hcd : d.fresh = c.fresh) (hspreads : c.Along store (Spreads store) (Turn.asMeant ts)) :
    (d.run store (Turn.asDone ts)).fresh = (c.run store (Turn.asMeant ts)).fresh ∧
      (c.Along store (fun c now o => (c.step store now o).1.isOk = true) (Turn.asMeant ts) →
        d.stats = c.stats →
        (d.run store (Turn.asDone ts)).stats = (c.run store (Turn.asMeant ts)).stats) := by
  induction ts generalizing c d with
  | nil => exact ⟨hcd, fun _ heq => heq⟩
  | cons t ts ih =>
      obtain ⟨hfirst, hrest⟩ := along_cons.1 hspreads
      have ht := abreast h hb hcd hfirst
      obtain ⟨hfresh, hstats⟩ := ih (buffer_step_of_none store t.now t.operation hb) ht.fresh hrest
      refine ⟨hfresh, fun hanswers heq => ?_⟩
      obtain ⟨hanswer, hlater⟩ := along_cons.1 hanswers
      exact hstats hlater (ht.stats hanswer heq)

/-- Over a store that does not tell the forms apart, operations may be replaced by their blocking
forms, step by step: without a buffer, and if bulk writes are made in order and nothing fails or the
store has no bulk writes, the answers and what the store holds are the same. Unless the store
crashed, so are the statistics and, but for the way of writing, the events; only the blocking form
of a batch tells also of having written nothing. -/
theorem blocking_alike (h : store.IgnoresForm) {c : Cache σ} (hb : c.buffer = none) {ts : List Turn}
    (hstore : store.capabilities.bulk = false ∨ store.WritesInOrder ∧
      c.Along store (fun c now o => store.grants now (c.requests store now o).1 c.contents = true)
        (Turn.asMeant ts)) :
    ∀ ts₁ t ts₂, ts = ts₁ ++ t :: ts₂ →
      let meant := c.run store (Turn.asMeant ts₁)
      let done := c.run store (Turn.asDone ts₁)
      HEq (done.step store t.now t.done).1 (meant.step store t.now t.operation).1 ∧
        (done.step store t.now t.done).2.contents =
          (meant.step store t.now t.operation).2.contents ∧
        (c.Along store (fun c now o => (c.step store now o).1.isOk = true)
            (Turn.asMeant (ts₁ ++ [t])) →
          (done.step store t.now t.done).2.stats =
            (meant.step store t.now t.operation).2.stats ∧
          (done.told store t.now t.done).map Event.unlabelled =
            (meant.told store t.now t.operation).map Event.unlabelled ++
              if t.swapped && meant.leavesNothing t.operation then [.written 0 .single]
              else []) := by
  have hspreads : c.Along store (Spreads store) (Turn.asMeant ts) := by
    intro os₁ now o os₂ hos
    exact hstore.imp_right fun hinorder => ⟨hinorder.1, hinorder.2 os₁ now o os₂ hos⟩
  rintro ts₁ t ts₂ rfl
  rw [Turn.asMeant, List.map_append, List.map_cons] at hspreads
  obtain ⟨hbefore, hlater⟩ := along_append.1 hspreads
  obtain ⟨hfresh, hstats⟩ := run_turns h hb rfl hbefore
  have ht := abreast h (buffer_run_of_none store _ hb) hfresh (along_cons.1 hlater).1
  have hcontents := congrArg contents ht.fresh
  refine ⟨ht.answer, hcontents, fun hanswers => ?_⟩
  rw [Turn.asMeant, List.map_append, List.map_cons] at hanswers
  obtain ⟨hanswers, hlast⟩ := along_append.1 hanswers
  have hanswer := (along_cons.1 hlast).1
  exact ⟨ht.stats hanswer (hstats hanswers rfl), ht.told hanswer⟩

end Cache

namespace Memory

theorem ignoresForm : store.IgnoresForm := ⟨fun _ _ _ _ => rfl, fun _ _ _ _ => rfl⟩

theorem writeEach_of_putAll {now : Moment} {options : WriteOptions} {items : List Item}
    {m m' : Memory} (husable : m.unusable = false)
    (h : m.putAll now options.lifetime items = (some (), m')) :
    store.writeEach now options items m = (.ok (items.map fun _ => .ok ()), m') := by
  induction items generalizing m with
  | nil =>
      obtain ⟨-, rfl⟩ := Prod.mk.inj h
      rfl
  | cons i is ih =>
      rw [putAll] at h
      cases hslot : m.slot? now i.entry options.lifetime with
      | none =>
          rw [hslot] at h
          cases (Prod.mk.inj h).1
      | some s =>
          rw [hslot] at h
          have hserve : store.serve now (.write .blocking i options) m =
              (.ok (), m.put i.key s) := by
            change m.writeNow now i options = _
            rw [writeNow, hslot]
            dsimp only
            rw [Memory.usable, husable]
            rfl
          rw [Store.writeEach_cons_ok hserve rfl, ih (m := m.put i.key s) husable h]
          rfl

theorem writesInOrder : store.WritesInOrder := by
  intro now means items options m m' h
  cases means with
  | pipeline => cases (Prod.mk.inj h).1
  | batch =>
      change m.writeAllNow now items options = _ at h
      rw [writeAllNow, Memory.usable] at h
      cases husable : m.unusable with
      | true =>
          rw [husable, if_pos rfl] at h
          cases (Prod.mk.inj h).1
      | false =>
          rw [husable, if_neg Bool.false_ne_true] at h
          cases hput : m.putAll now options.lifetime items with
          | mk through m'' =>
              rw [hput] at h
              cases through with
              | none => cases (Prod.mk.inj h).1
              | some u =>
                  obtain ⟨-, rfl⟩ := Prod.mk.inj h
                  exact writeEach_of_putAll husable hput

end Memory

namespace Cache

def swapped : List Turn :=
  [⟨true, ⟨0, 0⟩, .writeBatch .async batched [.string "y", .string "z"]⟩,
    ⟨true, ⟨1, 1⟩, .read .async (Call.keyed "k")⟩]

def oversized : Turn :=
  ⟨true, ⟨2, 2⟩, .writeBatch .async batched [.string "long", .string "long"]⟩

theorem blocking_alike_oversized :
    ∃ c : Cache Memory,
      Cache.new Memory.store { largest := 3 } (Memory.ofCapacity 10) = .ok c ∧
        c.Along Memory.store (fun c now o =>
          Memory.store.grants now (c.requests Memory.store now o).1 c.contents = true)
          (Turn.asMeant (swapped ++ [oversized])) ∧
        let meant := c.run Memory.store (Turn.asMeant swapped)
        let done := c.run Memory.store (Turn.asDone swapped)
        (done.step Memory.store oversized.now oversized.done).2.stats =
            (meant.step Memory.store oversized.now oversized.operation).2.stats ∧
          (done.told Memory.store oversized.now oversized.done).map Event.unlabelled =
            (meant.told Memory.store oversized.now oversized.operation).map Event.unlabelled ++
              [.written 0 .single] := by
  let c : Cache Memory :=
    { settings := { largest := 3 }, contents := Memory.ofCapacity 10, buffer := none }
  have hgrants : c.Along Memory.store (fun c now o =>
      Memory.store.grants now (c.requests Memory.store now o).1 c.contents = true)
      (Turn.asMeant (swapped ++ [oversized])) := by
    decide +kernel
  have hanswers : c.Along Memory.store (fun c now o =>
      (c.step Memory.store now o).1.isOk = true) (Turn.asMeant (swapped ++ [oversized])) := by
    decide +kernel
  have hleaves : (oversized.swapped && (c.run Memory.store (Turn.asMeant swapped)).leavesNothing
      oversized.operation) = true := by
    decide +kernel
  have halike := blocking_alike Memory.ignoresForm (c := c) rfl
    (.inr ⟨Memory.writesInOrder, hgrants⟩) swapped oversized [] rfl
  obtain ⟨hstats, htold⟩ := halike.2.2 hanswers
  rw [if_pos hleaves] at htold
  exact ⟨c, rfl, hgrants, hstats, htold⟩

end Cache

end ReplyCache
