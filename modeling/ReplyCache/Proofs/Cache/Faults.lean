import ReplyCache.Proofs.Cache.Contracts
import ReplyCache.Proofs.Cache.Requests
import ReplyCache.Proofs.Freshness

namespace ReplyCache

def Event.fault? : Event → Option Fault
  | .readFailed _ f | .writeFailed _ f => some f
  | .hit _ | .miss _ | .stale .. | .bypassed | .written .. | .buffered .. | .writeSkipped _ => none

def Fault.Only {α : Type} (mild : Fault → Prop) (answer : Except Fault α) : Prop :=
  ∀ f, answer = .error f → mild f

namespace Store

variable {σ : Type}

/-- While the contents are sound, they stay so unless the store crashes, and all faults of the store
are mild. -/
structure Sound (store : Store σ) (good : σ → Prop) (mild : Fault → Prop) : Prop where
  ok : ∀ {now : Moment} {r : Request} {s s' : σ} {a : r.Answer}, good s →
    store.serve now r s = (.ok a, s') → good s'
  fault : ∀ {now : Moment} {r : Request} {s s' : σ} {f : Fault}, good s →
    store.serve now r s = (.error (.fault f), s') → good s' ∧ mild f

end Store

namespace Cache

variable {σ : Type} {good : σ → Prop} {mild : Fault → Prop}

/-- The contents are sound, and no fault was told but mild ones. -/
structure Tells (good : σ → Prop) (mild : Fault → Prop) (c : Cache σ) : Prop where
  contents : good c.contents
  events : ∀ e ∈ c.events, ∀ f, e.fault? = some f → mild f

theorem Tells.emit {c : Cache σ} (hc : c.Tells good mild) {e : Event}
    (he : ∀ f, e.fault? = some f → mild f) :
    Tells good mild { c with events := c.events ++ [e] } := by
  refine ⟨hc.contents, ?_⟩
  intro d hd
  rcases List.mem_append.1 hd with hd | hd
  · exact hc.events d hd
  · obtain rfl := List.mem_singleton.1 hd
    exact he

end Cache

namespace Action

variable {σ α β : Type} {store : Store σ} {now : Moment} {good : σ → Prop} {mild : Fault → Prop}

def Tells (good : σ → Prop) (mild : Fault → Prop) (act : Action σ α) (gives : α → Prop) : Prop :=
  ∀ c a c', c.Tells good mild → result act c = (.ok a, c') → c'.Tells good mild ∧ gives a

namespace Tells

variable {act : Action σ α} {gives : α → Prop} {gives' : β → Prop}

theorem pure {a : α} (h : gives a) : Tells good mild (Pure.pure a : Action σ α) gives :=
  Ensures.pure fun _ hc => ⟨hc, h⟩

theorem bind {f : α → Action σ β} (h : Tells good mild act gives)
    (hf : ∀ a, gives a → Tells good mild (f a) gives') : Tells good mild (act >>= f) gives' :=
  Ensures.bind h fun a => (Ensures.assuming fun ha => hf a ha).of_imp fun _ hc => hc.symm

theorem seq {f : α → Action σ β} (h : Tells good mild act gives)
    (hf : ∀ a, Tells good mild (f a) gives') : Tells good mild (act >>= f) gives' :=
  h.bind fun a _ => hf a

theorem ite {p : Prop} [Decidable p] {act' : Action σ α} (h : Tells good mild act gives)
    (h' : Tells good mild act' gives) : Tells good mild (if p then act else act') gives :=
  Ensures.ite (fun _ => h) fun _ => h'

theorem of_modify {f : Cache σ → Cache σ}
    (h : ∀ c : Cache σ, c.Tells good mild → (f c).Tells good mild) :
    Tells good mild (modify f : Action σ PUnit) fun _ => True :=
  Ensures.modify fun c hc => ⟨h c hc, trivial⟩

end Tells

theorem tells_get : Tells good mild (get : Action σ (Cache σ)) fun _ => True :=
  Ensures.of_result result_get fun _ hc => ⟨hc, trivial⟩

theorem tells_emit {e : Event} (he : ∀ f, e.fault? = some f → mild f) :
    Tells good mild (emit e : Action σ Unit) fun _ => True :=
  Tells.of_modify fun _ hc => hc.emit he

theorem tells_count (k : Counter) (n : Nat) :
    Tells good mild (count k n : Action σ Unit) fun _ => True :=
  Tells.of_modify fun _ hc => ⟨hc.contents, hc.events⟩

theorem tells_quiet {e : Event} (he : e.fault? = none) :
    Tells good mild (emit e : Action σ Unit) fun _ => True := by
  apply tells_emit
  intro f hf
  rw [he] at hf
  cases hf

theorem tells_fault {e : Event} {f : Fault} (he : e.fault? = some f) (hf : mild f) :
    Tells good mild (emit e : Action σ Unit) fun _ => True := by
  apply tells_emit
  intro g hg
  rw [he] at hg
  exact Option.some.inj hg ▸ hf

theorem tells_mapM {γ : Type} {f : γ → Action σ β} {gives : β → Prop}
    (hf : ∀ x, Tells good mild (f x) gives) (xs : List γ) :
    Tells good mild (xs.mapM f) fun ys => ∀ y ∈ ys, gives y := by
  induction xs with
  | nil => exact Tells.pure fun y hy => (List.not_mem_nil hy).elim
  | cons x xs ih =>
      rw [List.mapM_cons]
      apply (hf x).bind
      intro y hy
      apply ih.bind
      intro ys hys
      exact Tells.pure (List.forall_mem_cons.2 ⟨hy, hys⟩)

theorem tells_forM {γ : Type} {f : γ → Action σ PUnit} {xs : List γ}
    (hf : ∀ x ∈ xs, Tells good mild (f x) fun _ => True) :
    Tells good mild (xs.forM f) fun _ => True := by
  induction xs with
  | nil => exact Tells.pure trivial
  | cons x xs ih =>
      obtain ⟨hx, hxs⟩ := List.forall_mem_cons.1 hf
      exact hx.seq fun _ => ih hxs

theorem tells_gate (call : Call) :
    Tells good mild (gate call : Action σ Bool) fun _ => True := by
  apply tells_get.seq
  intro c
  apply Tells.ite
  · exact Tells.pure trivial
  · exact (tells_count .bypassed 1).seq fun _ => (tells_quiet rfl).seq fun _ => Tells.pure trivial

theorem tells_fits (reply : Json) :
    Tells good mild (fits reply : Action σ Bool) fun _ => True := by
  apply tells_get.seq
  intro c
  apply Tells.ite
  · exact (tells_quiet rfl).seq fun _ => Tells.pure trivial
  · exact Tells.pure trivial

theorem tells_filterFits (es acc : List (Json × Json)) :
    Tells good mild (List.filterAuxM (fun e => fits e.2) es acc : Action σ (List (Json × Json)))
      fun _ => True := by
  induction es generalizing acc with
  | nil => exact Tells.pure trivial
  | cons e es ih => exact (tells_fits e.2).seq fun _ => ih _

theorem tells_batchItems (call : Call) (inputs replies : List Json) :
    Tells good mild (batchItems now call inputs replies : Action σ (List Item)) fun _ => True := by
  have hkept : Tells good mild
      ((inputs.zip replies).filterM fun e => fits e.2 : Action σ (List (Json × Json)))
      fun _ => True :=
    (tells_filterFits _ []).seq fun _ => Tells.pure trivial
  exact hkept.seq fun _ => tells_get.seq fun _ => Tells.pure trivial

theorem tells_readFailed {f : Fault} (hf : mild f) (key : Key) :
    Tells good mild (readFailed key f : Action σ Lookup) fun _ => True :=
  (tells_count .errors 1).seq fun _ => (tells_fault rfl hf).seq fun _ => Tells.pure trivial

theorem tells_finishRead (hdecode : ∀ f, f.kind = "decode" → mild f) (call : Call) (key : Key)
    {answer : Except Fault (Option Json)} (hf : Fault.Only mild answer) :
    Tells good mild (finishRead now call key answer : Action σ Lookup) fun _ => True := by
  simp only [finishRead]
  cases answer with
  | error f => exact tells_readFailed (hf f rfl) key
  | ok stored =>
      cases stored with
      | none => exact (tells_count .misses 1).seq fun _ =>
          (tells_quiet rfl).seq fun _ => Tells.pure trivial
      | some stored =>
          dsimp only
          cases hjudge : Freshness.judge stored call.directives.maxAge now.wall with
          | error f => exact tells_readFailed (hdecode f (Freshness.kind_of_judge hjudge)) key
          | ok freshness =>
              cases freshness with
              | stale age => exact (tells_count .stale 1).seq fun _ =>
                  (tells_quiet rfl).seq fun _ => Tells.pure trivial
              | fresh reply => exact (tells_count .hits 1).seq fun _ =>
                  (tells_quiet rfl).seq fun _ => Tells.pure trivial

theorem tells_writeFailed {f : Fault} (hf : mild f) (n : Nat) :
    Tells good mild (writeFailed n f : Action σ Unit) fun _ => True :=
  (tells_count .errors 1).seq fun _ => tells_fault rfl hf

theorem tells_finishWrite (n : Nat) (strategy : Strategy) {answer : Except Fault Unit}
    (hf : Fault.Only mild answer) :
    Tells good mild (finishWrite n strategy answer : Action σ Outcome) fun _ => True := by
  cases answer with
  | ok u => exact (tells_count .sets n).seq fun _ =>
      (tells_quiet rfl).seq fun _ => Tells.pure trivial
  | error f => exact (tells_writeFailed (hf f rfl) n).seq fun _ => Tells.pure trivial

theorem tells_finishWrites (strategy : Strategy) (written failed : Nat) :
    Tells good mild (finishWrites strategy written failed : Action σ Outcome) fun _ => True := by
  refine (tells_count .sets written).seq fun _ => Tells.ite ?_ (Tells.pure trivial)
  exact (tells_quiet rfl).seq fun _ => Tells.pure trivial

theorem tells_drain : Tells good mild (drain : Action σ (List Pending)) fun _ => True :=
  Ensures.of_result result_drain fun _ hc => ⟨⟨hc.contents, hc.events⟩, trivial⟩

section Asking

variable (hstore : store.Sound good mild)
include hstore

theorem tells_ask (r : Request) :
    Tells good mild (ask store now r) (Fault.Only mild) := by
  intro c a c' hc hr
  rw [result_ask] at hr
  cases hserve : store.serve now r c.contents with
  | mk answer s =>
      rw [hserve] at hr
      cases answer with
      | ok b =>
          obtain ⟨hb, rfl⟩ := Prod.mk.inj hr
          obtain rfl := Except.ok.inj hb
          refine ⟨⟨hstore.ok hc.contents hserve, hc.events⟩, ?_⟩
          intro f hf
          cases hf
      | error x =>
          cases x with
          | crash => cases hr
          | fault f =>
              obtain ⟨hb, rfl⟩ := Prod.mk.inj hr
              obtain rfl := Except.ok.inj hb
              obtain ⟨hs, hf⟩ := hstore.fault hc.contents hserve
              refine ⟨⟨hs, hc.events⟩, ?_⟩
              intro g hg
              obtain rfl := Except.error.inj hg
              exact hf

theorem tells_writeOne (form : Form) (item : Item) (options : WriteOptions) :
    Tells good mild (writeOne store now form item options) fun _ => True :=
  (tells_ask hstore (.write form item options)).bind fun _ ha => tells_finishWrite 1 .single ha

theorem tells_writeEach (options : WriteOptions) (items : List Item) :
    Tells good mild (writeEach store now options items) fun _ => True := by
  induction items with
  | nil => exact Tells.pure trivial
  | cons i is ih =>
      apply (tells_ask hstore (.write .blocking i options)).bind
      intro answer ha
      cases answer with
      | ok u => exact ih.seq fun _ => Tells.pure trivial
      | error f =>
          exact (tells_writeFailed (ha f rfl) 1).seq fun _ => ih.seq fun _ => Tells.pure trivial

theorem tells_writeBlocking (items : List Item) (options : WriteOptions) :
    Tells good mild (writeBlocking store now items options) fun _ => True :=
  (tells_writeEach hstore options items).seq fun _ => tells_finishWrites .blocking _ _

theorem tells_writeFannedOut (items : List Item) (options : WriteOptions) :
    Tells good mild (writeFannedOut store now items options) fun _ => True := by
  have hask : ∀ i : Item, Tells good mild (ask store now (.write .async i options))
      (@Fault.Only Unit mild) := fun i => tells_ask hstore (.write .async i options)
  apply (tells_mapM hask items).bind
  intro answers hanswers
  refine (tells_forM fun e he => ?_).seq fun _ => tells_finishWrites .fanOut _ _
  exact tells_writeFailed (hanswers _ (Tally.error_mem_of_mem_failures he) _ rfl) 1

theorem tells_writeItems (items : List Item) (options : WriteOptions) :
    Tells good mild (writeItems store now items options) fun _ => True := by
  refine Tells.ite (Tells.pure trivial) (Tells.ite (tells_writeBlocking hstore items options) ?_)
  refine Tells.ite ?_ (Tells.ite ?_ (tells_writeFannedOut hstore items options))
  · exact (tells_ask hstore (.writeAll .pipeline items options)).bind fun _ ha =>
      tells_finishWrite items.length .pipeline ha
  · exact (tells_ask hstore (.writeAll .batch items options)).bind fun _ ha =>
      tells_finishWrite items.length .batch ha

theorem tells_writeGroups (so : Outcome) (gs : List (Option Span × List Item)) :
    Tells good mild (writeGroups store now so gs) fun _ => True := by
  induction gs generalizing so with
  | nil => exact Tells.pure trivial
  | cons g gs ih => exact (tells_writeItems hstore g.2 { lifetime := g.1 }).seq fun _ => ih _

theorem tells_flush : Tells good mild (flush store now) fun _ => True :=
  tells_drain.seq fun _ => tells_writeGroups hstore (.written 0) _

theorem tells_hold (b : Buffer Pending) (p : Pending) :
    Tells good mild (hold store now b p) fun _ => True := by
  have hpush : Tells good mild
      (modify fun c => { c with buffer := some (b.push p) } : Action σ PUnit) fun _ => True :=
    Tells.of_modify fun _ hc => ⟨hc.contents, hc.events⟩
  refine hpush.seq fun _ => Tells.ite (tells_flush hstore) ?_
  exact (tells_quiet rfl).seq fun _ => Tells.pure trivial

theorem tells_write (form : Form) (call : Call) (reply : Json) :
    Tells good mild (write store now form call reply) fun _ => True := by
  refine (tells_gate call).seq fun admitted => Tells.ite (Tells.pure trivial) ?_
  refine (tells_fits reply).seq fun fitting => Tells.ite (Tells.pure trivial) ?_
  apply tells_get.seq
  intro c
  cases hb : c.buffer with
  | none => cases form <;> exact tells_writeOne hstore _ _ _
  | some b =>
      cases form with
      | async => exact tells_hold hstore b _
      | blocking => exact tells_writeOne hstore _ _ _

theorem tells_writeBatch (form : Form) (call : Call) (replies : List Json) :
    Tells good mild (writeBatch store now form call replies) fun _ => True := by
  refine (tells_gate call).seq fun admitted => Tells.ite (Tells.pure trivial) ?_
  cases hinputs : call.inputs? with
  | none => exact tells_write hstore form call (.array replies)
  | some inputs =>
      refine Tells.ite ((tells_quiet rfl).seq fun _ => Tells.pure trivial) ?_
      refine (tells_batchItems call inputs replies).seq fun items => tells_get.seq fun c => ?_
      cases form with
      | async => exact tells_writeItems hstore items _
      | blocking => exact tells_writeBlocking hstore items _

theorem tells_ping : Tells good mild (ping store now) fun _ => True := by
  refine Tells.ite ((tells_ask hstore .ping).bind fun answer ha => ?_) (Tells.pure trivial)
  cases answer with
  | ok alive => exact Tells.pure trivial
  | error f => exact (tells_fault rfl (ha f rfl)).seq fun _ => Tells.pure trivial

theorem tells_delete (keys : List Key) :
    Tells good mild (delete store now keys) fun _ => True := by
  refine Tells.ite ((tells_ask hstore (.delete keys)).bind fun answer ha => ?_) (Tells.pure trivial)
  cases answer with
  | ok n => exact Tells.pure trivial
  | error f => exact (tells_fault rfl (ha f rfl)).seq fun _ => Tells.pure trivial

theorem tells_disconnect : Tells good mild (disconnect store now) fun _ => True := by
  refine (tells_flush hstore).seq fun _ => (tells_ask hstore .close).bind fun answer ha => ?_
  cases answer with
  | ok u => exact Tells.pure trivial
  | error f => exact tells_fault rfl (ha f rfl)

variable (hdecode : ∀ f, f.kind = "decode" → mild f)
include hdecode

theorem tells_read (form : Form) (call : Call) :
    Tells good mild (read store now form call) fun _ => True := by
  refine (tells_gate call).seq fun admitted => Tells.ite ?_ (Tells.pure trivial)
  refine tells_get.seq fun c => (tells_ask hstore _).bind fun answer ha => ?_
  exact tells_finishRead hdecode call _ ha

theorem tells_perform (o : Operation) :
    Tells good mild (perform store now o) fun _ => True := by
  cases o with
  | read form call => exact tells_read hstore hdecode form call
  | write form call reply => exact tells_write hstore form call reply
  | writeBatch form call replies => exact tells_writeBatch hstore form call replies
  | flush => exact tells_flush hstore
  | ping => exact tells_ping hstore
  | delete keys => exact tells_delete hstore keys
  | disconnect => exact tells_disconnect hstore
  | setSpace space => exact Tells.of_modify fun _ hc => ⟨hc.contents, hc.events⟩
  | setLifetime lifetime => exact Tells.of_modify fun _ hc => ⟨hc.contents, hc.events⟩

end Asking

end Action

end ReplyCache
