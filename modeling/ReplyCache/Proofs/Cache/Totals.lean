import ReplyCache.Proofs.Cache.Ledger
import ReplyCache.Proofs.Cache.Outcomes
import ReplyCache.Proofs.Cache.Sent
import ReplyCache.Store.Rehearsal

namespace ReplyCache

namespace Event

def isSkip : Event → Bool
  | writeSkipped _ => true
  | hit _ | miss _ | stale .. | bypassed | readFailed .. | written .. | buffered ..
  | writeFailed .. => false

end Event

/-- The outcome goes with what was told on the way to it. -/
structure Outcome.Settles (told : List Event) (outcome : Outcome) : Prop where
  ends : (∃ w, outcome = .written w) ∨ ∃ w f, outcome = .failed w f ∧ 1 ≤ f
  written : outcome.isWritten = true ↔ ∀ n g, Event.writeFailed n g ∉ told
  failures : (told.map Event.failures).sum = outcome.counts.2

namespace Cache

variable {σ : Type}

def skips (c : Cache σ) : Nat := c.events.countP Event.isSkip

theorem skips_snoc (c : Cache σ) (e : Event) :
    skips { c with events := c.events ++ [e] } = c.skips + e.isSkip.toNat := by
  simp only [skips, List.countP_append, List.countP_singleton]
  cases e.isSkip <;> rfl

/-- The store does not crash on what an operation asks of it; it may fail as it likes. -/
def Survives (store : Store σ) (c : Cache σ) (now : Moment) (o : Operation) : Prop :=
  (store.serveAll now (c.requests store now o).1 c.contents).1 = true

instance (store : Store σ) (c : Cache σ) (now : Moment) (o : Operation) :
    Decidable (c.Survives store now o) := inferInstanceAs (Decidable (_ = true))

variable {store : Store σ} {now : Moment} {c : Cache σ}

theorem Survives.exists_ok {o : Operation} (h : c.Survives store now o) :
    ∃ a, (c.step store now o).1 = .ok a :=
  Answers.exists_ok ((step_isOk store now o c).trans h)

theorem Concludes.settles {n : Nat} {outcome : Outcome} (h : c.Concludes 0 0 n outcome) :
    outcome.Settles c.events := by
  have hsum : (c.events.map Event.failures).sum = outcome.counts.2 := by
    rw [h.balanced.failures, Nat.zero_add]
  have htold : (∃ n g, .writeFailed n g ∈ c.events) ↔ 0 < outcome.counts.2 := by
    rw [← hsum, List.sum_pos_iff_exists_pos_nat]
    constructor
    · rintro ⟨n, g, hg⟩
      exact ⟨n, List.mem_map.2 ⟨_, hg, rfl⟩, h.balanced.positive n g hg⟩
    · rintro ⟨n, hn, hpos⟩
      obtain ⟨e, he, rfl⟩ := List.mem_map.1 hn
      cases e with
      | writeFailed n g => exact ⟨n, g, he⟩
      | hit | miss | stale | bypassed | readFailed | written | buffered | writeSkipped =>
          cases hpos
  have hfinal := h.final
  cases outcome with
  | written w =>
      refine ⟨.inl ⟨w, rfl⟩, iff_of_true rfl fun n g hg => ?_, hsum⟩
      exact Nat.lt_irrefl 0 (htold.1 ⟨n, g, hg⟩)
  | failed w k =>
      have hpos : 0 < k := Nat.pos_of_ne_zero (of_decide_eq_true hfinal)
      refine ⟨.inr ⟨w, k, rfl, hpos⟩, iff_of_false Bool.false_ne_true fun hnone => ?_, hsum⟩
      obtain ⟨n, g, hg⟩ := htold.2 hpos
      exact hnone n g hg
  | buffered | bypassed | skipped => cases hfinal

/-- A fact that no write of items changes, however it ends. -/
structure Steadfast (P : Cache σ → Prop) : Prop where
  contents : ∀ c s, P c → P { c with contents := s }
  stats : ∀ c s, P c → P { c with stats := s }
  written : ∀ c n strategy, P c → P { c with events := c.events ++ [.written n strategy] }
  failed : ∀ c n f, P c → P { c with events := c.events ++ [.writeFailed n f] }

theorem steadfast_skips (n k : Nat) : Steadfast fun c : Cache σ => n + c.skips = k where
  contents := fun _ _ h => h
  stats := fun _ _ h => h
  written := fun _ _ _ h => by rw [skips_snoc]; exact h
  failed := fun _ _ _ h => by rw [skips_snoc]; exact h

end Cache

namespace Action

variable {σ : Type} {store : Store σ} {now : Moment}

section Steadfast

variable {P : Cache σ → Prop} (hP : Cache.Steadfast P)

include hP

theorem steadfast_ask (r : Request) : Ensures P (ask store now r) fun _ => P :=
  ensures_ask hP.contents store now r

theorem steadfast_writeFailed (n : Nat) (f : Fault) :
    Ensures P (writeFailed n f) fun _ => P :=
  Ensures.of_result (fun _ => rfl) fun _ hc => hP.failed _ n f (hP.stats _ _ hc)

theorem steadfast_finishWrite (n : Nat) (strategy : Strategy) (answer : Except Fault Unit) :
    Ensures P (finishWrite n strategy answer) fun _ => P := by
  cases answer with
  | ok u =>
      exact Ensures.of_result (fun _ => rfl) fun _ hc => hP.written _ n strategy (hP.stats _ _ hc)
  | error f => exact (steadfast_writeFailed hP n f).bind fun _ => Ensures.pure fun _ hc => hc

theorem steadfast_finishWrites (strategy : Strategy) (written failed : Nat) :
    Ensures P (finishWrites strategy written failed) fun _ => P := by
  have hcount : Ensures P (count .sets written) fun _ => P :=
    Ensures.modify fun _ hc => hP.stats _ _ hc
  refine hcount.bind fun _ => Ensures.ite (fun _ => ?_) fun _ => Ensures.pure fun _ hc => hc
  exact Ensures.of_result (fun _ => rfl) fun _ hc => hP.written _ written strategy hc

theorem steadfast_writeEach (options : WriteOptions) (items : List Item) :
    Ensures P (writeEach store now options items) fun _ => P := by
  induction items with
  | nil => exact Ensures.pure fun _ hc => hc
  | cons i is ih =>
      refine (steadfast_ask hP (.write .blocking i options)).bind fun answer => ?_
      cases answer with
      | ok u => exact ih.bind fun n => Ensures.pure fun _ hc => hc
      | error f =>
          exact (steadfast_writeFailed hP 1 f).bind fun _ => ih.bind fun n =>
            Ensures.pure fun _ hc => hc

theorem steadfast_writeBlocking (items : List Item) (options : WriteOptions) :
    Ensures P (writeBlocking store now items options) fun _ => P :=
  (steadfast_writeEach hP options items).bind fun n => steadfast_finishWrites hP .blocking n.1 n.2

theorem steadfast_failures (es : List (Nat × Fault)) :
    Ensures P (es.forM fun e => writeFailed 1 e.2) fun _ => P := by
  induction es with
  | nil => exact Ensures.pure fun _ hc => hc
  | cons e es ih => exact (steadfast_writeFailed hP 1 e.2).bind fun _ => ih

theorem steadfast_writeFannedOut (items : List Item) (options : WriteOptions) :
    Ensures P (writeFannedOut store now items options) fun _ => P := by
  have hask : ∀ i : Item, Ensures P (ask store now (.write .async i options)) fun _ => P :=
    fun i => steadfast_ask hP _
  refine (ensures_mapM hask items).bind fun answers => Ensures.assuming fun _ => ?_
  exact (steadfast_failures hP _).bind fun _ => steadfast_finishWrites hP .fanOut _ _

theorem steadfast_writeItems (items : List Item) (options : WriteOptions) :
    Ensures P (writeItems store now items options) fun _ => P := by
  refine Ensures.ite (fun _ => Ensures.pure fun _ hc => hc) fun _ => ?_
  refine Ensures.ite (fun _ => steadfast_writeBlocking hP items options) fun _ => ?_
  refine Ensures.ite (fun _ => ?_) fun _ => Ensures.ite (fun _ => ?_) fun _ =>
    steadfast_writeFannedOut hP items options
  · exact (steadfast_ask hP _).bind fun answer => steadfast_finishWrite hP _ .pipeline answer
  · exact (steadfast_ask hP _).bind fun answer => steadfast_finishWrite hP _ .batch answer

end Steadfast

variable {call : Call} {inputs replies : List Json}

theorem ensures_fits_skips (reply : Json) (n k : Nat) :
    Ensures (fun c : Cache σ => n + c.skips = k) (fits reply) fun fitting c =>
      n + fitting.toNat + c.skips = k + 1 := by
  apply Ensures.get_bind
  intro c hc
  refine Ensures.ite (fun h => Ensures.of_result (fun _ => rfl) ?_) fun h => Ensures.pure ?_
  · rintro d rfl
    rw [Cache.skips_snoc, ← hc]
    rfl
  · rintro d rfl
    rw [Nat.add_right_comm, hc]
    rfl

theorem ensures_filterFits_skips (es acc : List (Json × Json)) (k : Nat) :
    Ensures (fun c : Cache σ => acc.length + c.skips = k)
      (List.filterAuxM (fun e => fits e.2) es acc)
      fun kept c => kept.length + c.skips = k + es.length := by
  induction es generalizing acc k with
  | nil => exact Ensures.pure fun c hc => hc
  | cons e es ih =>
      refine (ensures_fits_skips e.2 acc.length k).bind fun fitting => ?_
      have hlen : (cond fitting (e :: acc) acc).length = acc.length + fitting.toNat := by
        cases fitting <;> rfl
      rw [← hlen, List.length_cons, Nat.add_comm es.length, ← Nat.add_assoc]
      exact ih _ (k + 1)

theorem ensures_batchItems_skips (hlen : inputs.length = replies.length) :
    Ensures (fun c : Cache σ => c.skips = 0) (batchItems now call inputs replies) fun items c =>
      items.length + c.skips = inputs.length := by
  have hkept : Ensures (fun c : Cache σ => c.skips = 0)
      ((inputs.zip replies).filterM fun e => fits e.2)
      fun kept c => kept.length + c.skips = inputs.length := by
    refine Ensures.bind ((ensures_filterFits_skips _ [] 0).of_imp ?_) fun kept => Ensures.pure ?_
    · intro c hc
      rw [hc]
      rfl
    · intro c hc
      rw [List.length_zip, ← hlen, Nat.min_self, Nat.zero_add] at hc
      rw [List.length_reverse, hc]
  refine hkept.bind fun kept => Ensures.get_bind fun c hc => Ensures.pure ?_
  rintro d rfl
  rw [List.length_map]
  exact hc

theorem ensures_writeBatch_totals (form : Form) (hinputs : call.inputs? = some inputs)
    (hlen : inputs.length = replies.length) :
    Ensures (fun c => c.admits call = true ∧ c.Balanced 0 0 ∧ c.skips = 0)
      (writeBatch store now form call replies) fun outcome c =>
        ∃ n, c.Concludes 0 0 n outcome ∧ n + c.skips = inputs.length := by
  have hgate : Ensures (fun c : Cache σ => c.admits call = true ∧ c.Balanced 0 0 ∧ c.skips = 0)
      (gate call) fun admitted c => admitted = true ∧ c.Balanced 0 0 ∧ c.skips = 0 := by
    rintro c admitted c' ⟨hadmits, hc⟩ hr
    rw [result_gate_of_admits hadmits] at hr
    obtain ⟨hadmitted, rfl⟩ := Prod.mk.inj hr
    exact ⟨(Except.ok.inj hadmitted).symm, hc⟩
  refine hgate.bind fun admitted => Ensures.assuming fun hadmitted => ?_
  subst hadmitted
  refine Ensures.ite (fun h => by cases h) fun _ => ?_
  rw [hinputs]
  refine Ensures.ite (fun h => (h hlen).elim) fun _ => ?_
  refine ((ensures_batchItems call inputs replies).and (ensures_batchItems_skips hlen)).bind
    fun items => ?_
  apply Ensures.get_bind
  intro c hc
  refine Ensures.of_imp (P := fun d => d.Balanced 0 0 ∧ items.length + d.skips = inputs.length) ?_
    fun d hd => hd ▸ hc
  have hskips := Cache.steadfast_skips (σ := σ) items.length inputs.length
  cases form with
  | async =>
      exact ((ensures_writeItems items _).and (steadfast_writeItems hskips items _)).imp
        fun outcome d hd => ⟨items.length, hd⟩
  | blocking =>
      exact ((ensures_writeBlocking items _).and (steadfast_writeBlocking hskips items _)).imp
        fun outcome d hd => ⟨items.length, hd⟩

theorem result_fits_of_le {reply : Json} {c : Cache σ}
    (h : reply.textSize ≤ c.settings.largest) : result (fits reply) c = (.ok true, c) := by
  simp only [fits]
  rw [result_bind, result_get]
  dsimp only
  rw [if_neg (Nat.not_lt.2 h)]
  rfl

theorem result_write_async {reply : Json} {c : Cache σ} {b : Buffer Pending}
    (hb : c.buffer = some b) (h : c.accepts call reply = true) :
    result (write store now .async call reply) c =
      result (hold store now b (c.pendingOf now call reply)) c := by
  simp only [Cache.accepts, Bool.and_eq_true, decide_eq_true_eq] at h
  simp only [write]
  rw [result_bind, result_gate_of_admits h.1]
  dsimp only
  rw [if_neg (by simp), result_bind, result_fits_of_le h.2]
  dsimp only
  rw [if_neg (by simp), result_bind, result_get]
  dsimp only
  rw [hb]
  rfl

theorem result_writeBatch_of_one {form : Form} {c : Cache σ} (hadmits : c.admits call = true)
    (hinputs : call.inputs? = none) :
    result (writeBatch store now form call replies) c =
      result (write store now form call (.array replies)) c := by
  simp only [writeBatch]
  rw [result_bind, result_gate_of_admits hadmits]
  dsimp only
  rw [if_neg (by simp), hinputs]

theorem result_writeBatch_of_mismatched {form : Form} {c : Cache σ}
    (hadmits : c.admits call = true) (hinputs : call.inputs? = some inputs)
    (hlen : inputs.length ≠ replies.length) :
    result (writeBatch store now form call replies) c = (.ok .skipped,
      { c with
        events := c.events ++ [.writeSkipped (mismatched inputs.length replies.length)] }) := by
  simp only [writeBatch]
  rw [result_bind, result_gate_of_admits hadmits]
  dsimp only
  rw [if_neg (by simp), hinputs]
  dsimp only
  rw [if_pos hlen]
  rfl

end Action

namespace Cache

variable {σ : Type} {store : Store σ} {now : Moment} {c : Cache σ} {call : Call}

theorem Concludes.settles_told {o : Operation} {n : Nat} {outcome : Outcome}
    (h : (c.fresh.step store now o).2.Concludes 0 0 n outcome) :
    outcome.Settles (c.told store now o) := by
  rw [told_eq_fresh]
  exact h.settles

theorem submittedOne_eq_singleton {reply : Json} {p : Pending}
    (h : c.submittedOne now call reply = [p]) :
    c.accepts call reply = true ∧ c.pendingOf now call reply = p := by
  simp only [submittedOne] at h
  split at h
  · exact ⟨‹_›, (List.cons.inj h).1⟩
  · cases h

variable {b : Buffer Pending} {p : Pending}

theorem concludes_write {reply : Json} {outcome : Outcome} (hb : c.buffer = some b)
    (hp : c.submittedOne now call reply = [p]) (hfull : (b.push p).isFull = true)
    (ha : (c.step store now (.write .async call reply)).1 = .ok outcome) :
    (c.fresh.step store now (.write .async call reply)).2.Concludes 0 0 (b.push p).size
      outcome := by
  obtain ⟨haccepts, rfl⟩ := submittedOne_eq_singleton hp
  have hfresh : c.fresh.buffer = some b ∧ c.fresh.accepts call reply = true := ⟨hb, haccepts⟩
  have hr : Action.result (Action.write store now .async call reply) c.fresh = _ := ok_fresh ha
  rw [Action.result_write_async hfresh.1 hfresh.2] at hr
  exact Action.ensures_hold_full hfull c.fresh _ _ c.balanced_fresh hr

theorem concludes_waiting {o : Operation} (ho : o.waits = true) (hb : c.buffer = some b)
    (hp : c.submitted now o = [p]) (hfull : (b.push p).isFull = true) {a : o.Answer}
    (ha : (c.step store now o).1 = .ok a) : ∃ outcome, o.outcome? a = some outcome ∧
      (c.fresh.step store now o).2.Concludes 0 0 (b.push p).size outcome := by
  cases o with
  | write form call reply =>
      cases form with
      | async => exact ⟨a, rfl, concludes_write hb hp hfull ha⟩
      | blocking => cases ho
  | writeBatch form call replies =>
      cases form with
      | async =>
          have hinputs : call.inputs? = none := by simpa [Operation.waits] using ho
          have hadmits : c.admits call = true := by
            by_contra hdenied
            simp [submitted, submittedBatch, hdenied] at hp
          have hone : c.submittedOne now call (.array replies) = [p] := by
            rw [submitted, submittedBatch, if_pos hadmits, hinputs] at hp
            exact hp
          have hstep : ∀ d : Cache σ, d.admits call = true →
              d.step store now (.writeBatch .async call replies) =
                d.step store now (.write .async call (.array replies)) :=
            fun d hd => Action.result_writeBatch_of_one hd hinputs
          rw [hstep c hadmits] at ha
          rw [hstep c.fresh hadmits]
          exact ⟨a, rfl, concludes_write hb hone hfull ha⟩
      | blocking => cases ho
  | read | flush | ping | delete | disconnect | setSpace | setLifetime => cases ho

/-- Nothing that was to be written is lost from the counts unless the store crashes. The entries of
a batch were written, failed, or were dropped as too large; the writes that were held back were
written or failed, be they handed over by a flush or by the write that fills the buffer. If nothing
is told to have failed, the outcome says so. A batch with too few or too many replies is told of,
and that is all there is of it. -/
theorem totals_of_writes (store : Store σ) (now : Moment) (c : Cache σ) :
    (∀ form call inputs replies, c.admits call = true → call.inputs? = some inputs →
        inputs.length = replies.length → c.Survives store now (.writeBatch form call replies) →
        ∃ outcome, (c.step store now (.writeBatch form call replies)).1 = .ok outcome ∧
          outcome.Settles (c.told store now (.writeBatch form call replies)) ∧
          outcome.counts.1 + outcome.counts.2 +
            (c.told store now (.writeBatch form call replies)).countP Event.isSkip =
              inputs.length) ∧
      (c.Survives store now .flush →
        ∃ outcome, (c.step store now .flush).1 = .ok outcome ∧
          outcome.Settles (c.told store now .flush) ∧
          outcome.counts.1 + outcome.counts.2 = c.held.length ∧
          (c.step store now .flush).2.held = []) ∧
      (∀ o b p, o.waits = true → c.buffer = some b → c.submitted now o = [p] →
        (b.push p).isFull = true → c.Survives store now o →
        ∃ a outcome, (c.step store now o).1 = .ok a ∧ o.outcome? a = some outcome ∧
          outcome.Settles (c.told store now o) ∧
          outcome.counts.1 + outcome.counts.2 = (b.push p).size) ∧
      ∀ form call inputs replies, c.admits call = true → call.inputs? = some inputs →
        inputs.length ≠ replies.length →
        c.step store now (.writeBatch form call replies) = (.ok .skipped, { c with
          events := c.events ++
            [.writeSkipped (Action.mismatched inputs.length replies.length)] }) ∧
          c.sent store [(now, .writeBatch form call replies)] = [] := by
  refine ⟨?_, ?_, ?_, ?_⟩
  · intro form call inputs replies hadmits hinputs hlen hsurvives
    obtain ⟨outcome, ha⟩ := hsurvives.exists_ok
    obtain ⟨n, hconcludes, hskips⟩ := Action.ensures_writeBatch_totals form hinputs hlen c.fresh
      outcome _ ⟨hadmits, c.balanced_fresh, rfl⟩ (ok_fresh ha)
    refine ⟨outcome, ha, hconcludes.settles_told, ?_⟩
    rw [hconcludes.total, told_eq_fresh]
    exact hskips
  · intro hsurvives
    obtain ⟨outcome, ha⟩ := hsurvives.exists_ok
    have hconcludes := concludes_flush ha
    refine ⟨outcome, ha, hconcludes.settles_told, hconcludes.total, ?_⟩
    rw [held_step]
    exact held_flushing store c
  · intro o b p ho hb hp hfull hsurvives
    obtain ⟨a, ha⟩ := hsurvives.exists_ok
    obtain ⟨outcome, houtcome, hconcludes⟩ := concludes_waiting ho hb hp hfull ha
    exact ⟨a, outcome, ha, houtcome, hconcludes.settles_told, hconcludes.total⟩
  · intro form call inputs replies hadmits hinputs hlen
    have hstep : c.step store now (.writeBatch form call replies) = _ :=
      Action.result_writeBatch_of_mismatched hadmits hinputs hlen
    refine ⟨hstep, ?_⟩
    have hasked : (c.requests store now (.writeBatch form call replies)).1 = [] := by
      rw [requests, writingBatch, if_pos hadmits, hinputs]
      dsimp only
      rw [if_pos hlen]
    obtain ⟨made, hmade, hsent⟩ := sent_step store c [] now (.writeBatch form call replies)
    rw [run, List.foldl_nil, hasked, List.prefix_nil] at hmade
    rw [hmade] at hsent
    exact hsent

theorem totals_of_writes_poisoned :
    let store := Rehearsal.store "rehearsal" { batch := true }
    let c : Cache Rehearsal :=
      { settings := { largest := 4, flushSize := some 2 },
        contents :=
          { name := "rehearsal", memory := Memory.ofCapacity 10, poison := [.string "p"] },
        buffer := some ⟨2, [⟨⟨⟨"k"⟩, ⟨0, .string "p"⟩⟩, none⟩]⟩ }
    let call := Call.asking (.array [.string "x", .string "y", .string "z"])
    (∃ outcome : Outcome, (c.step store ⟨0, 0⟩ (.writeBatch .blocking call
        [.string "a", .string "p", .string "large"])).1 = .ok outcome ∧ outcome.counts = (1, 1)) ∧
      (∃ outcome : Outcome, (c.step store ⟨0, 0⟩ .flush).1 = .ok outcome ∧
        outcome.counts = (0, 1)) ∧
      (∃ outcome : Outcome, (c.step store ⟨0, 0⟩ (.write .async (Call.keyed "j")
        (.string "b"))).1 = .ok outcome ∧ outcome.counts = (0, 2)) ∧
      c.sent store [(⟨0, 0⟩, .writeBatch .async call [.string "a"])] = [] := by
  intro store c call
  obtain ⟨hbatch, hflush, hwaits, hmismatched⟩ := totals_of_writes store ⟨0, 0⟩ c
  -- the failures are told, the rest of the total was written
  have hcounts : ∀ {outcome : Outcome} {told : List Event} {w f : Nat}, outcome.Settles told →
      (told.map Event.failures).sum = f → outcome.counts.1 + outcome.counts.2 = w + f →
      outcome.counts = (w, f) := by
    intro outcome told w f hsettles hsum htotal
    rw [hsettles.failures] at hsum
    exact Prod.ext (by omega) hsum
  refine ⟨?_, ?_, ?_, ?_⟩
  · obtain ⟨outcome, ha, hsettles, htotal⟩ := hbatch .blocking call _
      [.string "a", .string "p", .string "large"] (by decide) rfl rfl (by decide +kernel)
    refine ⟨outcome, ha, hcounts hsettles (by decide +kernel) ?_⟩
    have hskips : (c.told store ⟨0, 0⟩ (.writeBatch .blocking call
        [.string "a", .string "p", .string "large"])).countP Event.isSkip = 1 := by
      decide +kernel
    rw [hskips] at htotal
    exact Nat.succ.inj htotal
  · obtain ⟨outcome, ha, hsettles, htotal, -⟩ := hflush (by decide +kernel)
    exact ⟨outcome, ha, hcounts hsettles (by decide +kernel) htotal⟩
  · obtain ⟨a, outcome, ha, houtcome, hsettles, htotal⟩ := hwaits
      (.write .async (Call.keyed "j") (.string "b")) _ _ rfl rfl rfl (by decide) (by decide +kernel)
    obtain rfl := Option.some.inj houtcome
    exact ⟨a, ha, hcounts hsettles (by decide +kernel) htotal⟩
  · exact (hmismatched .async call _ _ (by decide) rfl (by decide)).2

end Cache

end ReplyCache
