import ReplyCache.Proofs.Cache.Runs
import ReplyCache.Proofs.Cache.Requests

namespace ReplyCache

namespace Stats

def plus (s t : Stats) : Stats where
  hits := s.hits + t.hits
  misses := s.misses + t.misses
  stale := s.stale + t.stale
  sets := s.sets + t.sets
  bypassed := s.bypassed + t.bypassed
  errors := s.errors + t.errors

theorem get_plus (s t : Stats) (k : Counter) : (s.plus t).get k = s.get k + t.get k := by
  cases k <;> rfl

theorem plus_add (s t : Stats) (n : Nat) (k : Counter) :
    s.plus (t.add n k) = (s.plus t).add n k := by
  cases k <;> simp [plus, add, UInt64.add_assoc]

theorem plus_empty (s : Stats) : s.plus {} = s := by
  simp [plus]

end Stats

namespace Cache

variable {σ : Type}

def onto (c : Cache σ) (s : Stats) (es : List Event) : Cache σ :=
  { c with stats := s.plus c.stats, events := es ++ c.events }

def fresh (c : Cache σ) : Cache σ := { c with stats := {}, events := [] }

theorem fresh_onto (c : Cache σ) : c.fresh.onto c.stats c.events = c := by
  simp only [fresh, onto]
  rw [Stats.plus_empty, List.append_nil]

end Cache

namespace Action

variable {σ α β : Type} {store : Store σ} {now : Moment}

def Blind (act : Action σ α) : Prop :=
  ∀ s es c, result act (c.onto s es) = ((result act c).1, (result act c).2.onto s es)

namespace Blind

variable {act : Action σ α}

theorem pure (a : α) : Blind (Pure.pure a : Action σ α) := fun _ _ _ => rfl

theorem bind {f : α → Action σ β} (h : Blind act) (hf : ∀ a, Blind (f a)) :
    Blind (act >>= f) := by
  intro s es c
  rw [result_bind, result_bind, h s es c]
  cases hact : result act c with
  | mk answer c' =>
      cases answer with
      | ok a => exact hf a s es c'
      | error e => rfl

theorem get_bind {f : Cache σ → Action σ β} (heq : ∀ s es c, f (c.onto s es) = f c)
    (hf : ∀ c, Blind (f c)) : Blind (get >>= f) := by
  intro s es c
  rw [result_bind, result_bind, result_get, result_get]
  dsimp only
  rw [heq]
  exact hf c s es c

theorem modify {f : Cache σ → Cache σ} (hf : ∀ s es c, f (c.onto s es) = (f c).onto s es) :
    Blind (modify f) := by
  intro s es c
  rw [result_modify, result_modify, hf]

theorem ite {p : Prop} [Decidable p] {act' : Action σ α} (h : Blind act) (h' : Blind act') :
    Blind (if p then act else act') := by
  split
  · exact h
  · exact h'

end Blind

theorem blind_emit (e : Event) : Blind (emit e : Action σ Unit) := by
  apply Blind.modify
  intro s es c
  simp only [Cache.onto]
  rw [List.append_assoc]

theorem blind_count (k : Counter) (n : Nat) : Blind (count k n : Action σ Unit) := by
  apply Blind.modify
  intro s es c
  simp only [Cache.onto]
  rw [Stats.plus_add]

theorem blind_ask (store : Store σ) (now : Moment) (r : Request) :
    Blind (ask store now r) := by
  intro s es c
  have hcontents : (c.onto s es).contents = c.contents := rfl
  rw [result_ask, result_ask, hcontents]
  cases store.serve now r c.contents with
  | mk answer s' =>
      cases answer with
      | ok a => rfl
      | error f => cases f <;> rfl

theorem blind_mapM {γ : Type} {f : γ → Action σ β} (hf : ∀ x, Blind (f x)) (xs : List γ) :
    Blind (xs.mapM f) := by
  induction xs with
  | nil => exact Blind.pure []
  | cons x xs ih =>
      rw [List.mapM_cons]
      exact (hf x).bind fun y => ih.bind fun ys => Blind.pure (y :: ys)

theorem blind_forM {γ : Type} {f : γ → Action σ PUnit} (hf : ∀ x, Blind (f x)) (xs : List γ) :
    Blind (xs.forM f) := by
  induction xs with
  | nil => exact Blind.pure PUnit.unit
  | cons x xs ih => exact (hf x).bind fun _ => ih

theorem blind_gate (call : Call) : Blind (gate call : Action σ Bool) := by
  refine Blind.get_bind (fun s es c => rfl) fun c => Blind.ite (Blind.pure true) ?_
  exact (blind_count .bypassed 1).bind fun _ => (blind_emit .bypassed).bind fun _ =>
    Blind.pure false

theorem blind_fits (reply : Json) : Blind (fits reply : Action σ Bool) := by
  refine Blind.get_bind (fun s es c => rfl) fun c => Blind.ite ?_ (Blind.pure true)
  exact (blind_emit _).bind fun _ => Blind.pure false

theorem blind_filterFits (es acc : List (Json × Json)) :
    Blind (List.filterAuxM (fun e => fits e.2) es acc : Action σ (List (Json × Json))) := by
  induction es generalizing acc with
  | nil => exact Blind.pure acc
  | cons e es ih => exact (blind_fits e.2).bind fun _ => ih _

theorem blind_batchItems (call : Call) (inputs replies : List Json) :
    Blind (batchItems now call inputs replies : Action σ (List Item)) := by
  have hkept : Blind ((inputs.zip replies).filterM fun e => fits e.2 :
      Action σ (List (Json × Json))) :=
    (blind_filterFits _ []).bind fun _ => Blind.pure _
  exact hkept.bind fun _ => Blind.get_bind (fun s es c => rfl) fun c => Blind.pure _

theorem blind_tell (k : Counter) (e : Event) (a : α) :
    Blind (do count k; emit e; return a : Action σ α) :=
  (blind_count k 1).bind fun _ => (blind_emit e).bind fun _ => Blind.pure a

theorem blind_writeFailed (n : Nat) (f : Fault) : Blind (writeFailed n f : Action σ Unit) :=
  (blind_count .errors 1).bind fun _ => blind_emit _

theorem blind_finishRead (call : Call) (key : Key) (answer : Except Fault (Option Json)) :
    Blind (finishRead now call key answer : Action σ Lookup) := by
  simp only [finishRead]
  cases answer with
  | error f => exact blind_tell .errors _ _
  | ok stored =>
      cases stored with
      | none => exact blind_tell .misses _ _
      | some stored =>
          dsimp only
          cases Freshness.judge stored call.directives.maxAge now.wall with
          | error f => exact blind_tell .errors _ _
          | ok freshness => cases freshness <;> exact blind_tell _ _ _

theorem blind_read (form : Form) (call : Call) : Blind (read store now form call) := by
  refine (blind_gate call).bind fun admitted => Blind.ite ?_ (Blind.pure _)
  refine Blind.get_bind (fun s es c => rfl) fun c => ?_
  exact (blind_ask store now _).bind fun answer => blind_finishRead call _ answer

theorem blind_finishWrite (n : Nat) (strategy : Strategy) (answer : Except Fault Unit) :
    Blind (finishWrite n strategy answer : Action σ Outcome) := by
  cases answer with
  | ok u => exact (blind_count .sets n).bind fun _ => (blind_emit _).bind fun _ => Blind.pure _
  | error f => exact (blind_writeFailed n f).bind fun _ => Blind.pure _

theorem blind_finishWrites (strategy : Strategy) (written failed : Nat) :
    Blind (finishWrites strategy written failed : Action σ Outcome) := by
  refine (blind_count .sets written).bind fun _ => Blind.ite ?_ (Blind.pure _)
  exact (blind_emit _).bind fun _ => Blind.pure _

theorem blind_writeOne (form : Form) (item : Item) (options : WriteOptions) :
    Blind (writeOne store now form item options) :=
  (blind_ask store now _).bind fun answer => blind_finishWrite 1 .single answer

theorem blind_writeEach (options : WriteOptions) (items : List Item) :
    Blind (writeEach store now options items) := by
  induction items with
  | nil => exact Blind.pure _
  | cons i is ih =>
      refine (blind_ask store now (.write .blocking i options)).bind fun answer => ?_
      cases answer with
      | ok u => exact ih.bind fun _ => Blind.pure _
      | error f => exact (blind_writeFailed 1 f).bind fun _ => ih.bind fun _ => Blind.pure _

theorem blind_writeBlocking (items : List Item) (options : WriteOptions) :
    Blind (writeBlocking store now items options) :=
  (blind_writeEach options items).bind fun n => blind_finishWrites .blocking n.1 n.2

theorem blind_writeFannedOut (items : List Item) (options : WriteOptions) :
    Blind (writeFannedOut store now items options) := by
  have hask : ∀ i : Item, Blind (ask store now (.write .async i options)) :=
    fun i => blind_ask store now _
  have hfailed : ∀ e : Nat × Fault, Blind (writeFailed 1 e.2 : Action σ Unit) :=
    fun e => blind_writeFailed 1 e.2
  exact (blind_mapM hask items).bind fun answers => (blind_forM hfailed _).bind fun _ =>
    blind_finishWrites .fanOut _ _

theorem blind_writeItems (items : List Item) (options : WriteOptions) :
    Blind (writeItems store now items options) := by
  refine Blind.ite (Blind.pure _) (Blind.ite (blind_writeBlocking items options) ?_)
  refine Blind.ite ?_ (Blind.ite ?_ (blind_writeFannedOut items options))
  · exact (blind_ask store now (.writeAll .pipeline items options)).bind fun answer =>
      blind_finishWrite items.length .pipeline answer
  · exact (blind_ask store now (.writeAll .batch items options)).bind fun answer =>
      blind_finishWrite items.length .batch answer

theorem blind_writeGroups (so : Outcome) (gs : List (Option Span × List Item)) :
    Blind (writeGroups store now so gs) := by
  induction gs generalizing so with
  | nil => exact Blind.pure so
  | cons g gs ih => exact (blind_writeItems g.2 { lifetime := g.1 }).bind fun _ => ih _

theorem blind_drain : Blind (drain : Action σ (List Pending)) := by
  intro s es c
  rw [result_drain, result_drain]
  rfl

theorem blind_flush : Blind (flush store now) :=
  blind_drain.bind fun _ => blind_writeGroups (.written 0) _

theorem blind_hold (b : Buffer Pending) (p : Pending) : Blind (hold store now b p) := by
  have hpush : Blind (modify fun c => { c with buffer := some (b.push p) } : Action σ PUnit) :=
    Blind.modify fun _ _ _ => rfl
  refine hpush.bind fun _ => Blind.ite blind_flush ?_
  exact (blind_emit _).bind fun _ => Blind.pure _

theorem blind_write (form : Form) (call : Call) (reply : Json) :
    Blind (write store now form call reply) := by
  refine (blind_gate call).bind fun admitted => Blind.ite (Blind.pure _) ?_
  refine (blind_fits reply).bind fun fitting => Blind.ite (Blind.pure _) ?_
  refine Blind.get_bind (fun s es c => rfl) fun c => ?_
  cases hb : c.buffer with
  | none => cases form <;> exact blind_writeOne _ _ _
  | some b =>
      cases form with
      | async => exact blind_hold b _
      | blocking => exact blind_writeOne _ _ _

theorem blind_writeBatch (form : Form) (call : Call) (replies : List Json) :
    Blind (writeBatch store now form call replies) := by
  refine (blind_gate call).bind fun admitted => Blind.ite (Blind.pure _) ?_
  cases call.inputs? with
  | none => exact blind_write form call (.array replies)
  | some inputs =>
      refine Blind.ite ((blind_emit _).bind fun _ => Blind.pure _) ?_
      refine (blind_batchItems call inputs replies).bind fun items => ?_
      refine Blind.get_bind (fun s es c => rfl) fun c => ?_
      cases form with
      | async => exact blind_writeItems items _
      | blocking => exact blind_writeBlocking items _

theorem blind_ping : Blind (ping store now) := by
  refine Blind.ite ((blind_ask store now .ping).bind fun answer => ?_) (Blind.pure _)
  cases answer with
  | ok alive => exact Blind.pure _
  | error f => exact (blind_emit _).bind fun _ => Blind.pure _

theorem blind_delete (keys : List Key) : Blind (delete store now keys) := by
  refine Blind.ite ((blind_ask store now (.delete keys)).bind fun answer => ?_) (Blind.pure _)
  cases answer with
  | ok n => exact Blind.pure _
  | error f => exact (blind_emit _).bind fun _ => Blind.pure _

theorem blind_disconnect : Blind (disconnect store now) := by
  refine blind_flush.bind fun _ => (blind_ask store now .close).bind fun answer => ?_
  cases answer with
  | ok u => exact Blind.pure _
  | error f => exact blind_emit _

theorem blind_perform (store : Store σ) (now : Moment) (o : Operation) :
    Blind (perform store now o) := by
  cases o with
  | read form call => exact blind_read form call
  | write form call reply => exact blind_write form call reply
  | writeBatch form call replies => exact blind_writeBatch form call replies
  | flush => exact blind_flush
  | ping => exact blind_ping
  | delete keys => exact blind_delete keys
  | disconnect => exact blind_disconnect
  | setSpace space => exact Blind.modify fun _ _ _ => rfl
  | setLifetime lifetime => exact Blind.modify fun _ _ _ => rfl

end Action

namespace Cache

variable {σ : Type} (store : Store σ) (now : Moment) (o : Operation) (c : Cache σ)

theorem step_eq_fresh :
    c.step store now o = ((c.fresh.step store now o).1,
      (c.fresh.step store now o).2.onto c.stats c.events) := by
  have hblind := Action.blind_perform store now o c.stats c.events c.fresh
  rw [fresh_onto] at hblind
  exact hblind

theorem step_answer : (c.step store now o).1 = (c.fresh.step store now o).1 := by
  rw [step_eq_fresh]

def told : List Event := (c.step store now o).2.events.drop c.events.length

theorem told_eq_fresh : c.told store now o = (c.fresh.step store now o).2.events := by
  rw [told, step_eq_fresh]
  exact List.drop_left

theorem step_events : (c.step store now o).2.events = c.events ++ c.told store now o := by
  rw [told_eq_fresh, step_eq_fresh]
  rfl

theorem step_stats (k : Counter) : (c.step store now o).2.stats.get k =
    c.stats.get k + (c.fresh.step store now o).2.stats.get k := by
  rw [step_eq_fresh, ← Stats.get_plus]
  rfl

theorem fresh_step : (c.step store now o).2.fresh = (c.fresh.step store now o).2.fresh := by
  rw [step_eq_fresh]
  rfl

variable {c} {d : Cache σ}

/-- Caches that are alike but for their past do the same. -/
theorem step_congr (h : c.fresh = d.fresh) :
    (c.step store now o).1 = (d.step store now o).1 ∧ c.told store now o = d.told store now o ∧
      (c.step store now o).2.fresh = (d.step store now o).2.fresh := by
  refine ⟨?_, ?_, ?_⟩
  · rw [step_answer, h, ← step_answer]
  · rw [told_eq_fresh, told_eq_fresh, h]
  · rw [fresh_step, h, ← fresh_step]

theorem run_events (os : List (Moment × Operation)) (c : Cache σ) :
    (c.run store os).events =
      c.events ++ c.gather store (fun c now o => c.told store now o) os := by
  induction os generalizing c with
  | nil => exact (List.append_nil _).symm
  | cons x os ih =>
      obtain ⟨now, o⟩ := x
      rw [run_cons, ih, step_events, gather, List.append_assoc]

end Cache

end ReplyCache
