import Mathlib.Algebra.GroupWithZero.Nat
import ReplyCache.Proofs.Cache.Contracts
import ReplyCache.Proofs.Cache.Groups
import ReplyCache.Proofs.Cache.History
import ReplyCache.Proofs.Cache.Reads

namespace ReplyCache

namespace Event

def counter? : Event → Option Counter
  | hit _ => some .hits
  | miss _ => some .misses
  | stale .. => some .stale
  | bypassed => some .bypassed
  | readFailed .. | writeFailed .. => some .errors
  | written .. | buffered .. | writeSkipped _ => none

def failures : Event → Nat
  | writeFailed n _ => n
  | hit _ | miss _ | stale .. | bypassed | readFailed .. | written .. | buffered ..
  | writeSkipped _ => 0

theorem isFault_iff (e : Event) : e.isFault = true ↔ e.counter? = some .errors := by
  cases e <;> simp [isFault, counter?]

end Event

namespace Outcome

def isFinal : Outcome → Bool
  | written _ => true
  | failed _ n => n ≠ 0
  | buffered _ | bypassed | skipped => false

theorem counts_ofCounts (w f : Nat) : (ofCounts w f).counts = (w, f) := by
  simp only [ofCounts]
  split
  · rename_i h
    rw [h]
    rfl
  · rfl

theorem isFinal_ofCounts (w f : Nat) : (ofCounts w f).isFinal = true := by
  simp only [ofCounts]
  split
  · rfl
  · rename_i h
    exact decide_eq_true h

theorem isFinal_merge (a b : Outcome) : (a.merge b).isFinal = true := isFinal_ofCounts _ _

theorem counts_merge (a b : Outcome) :
    (a.merge b).counts = (a.counts.1 + b.counts.1, a.counts.2 + b.counts.2) :=
  counts_ofCounts _ _

/-- An outcome agrees with the policy, and with the number of writes that are held back after it. -/
structure Agrees (admitted : Bool) (pending : Nat) (outcome : Outcome) : Prop where
  bypassed : outcome = .bypassed ↔ admitted = false
  buffered : ∀ n, outcome = .buffered n → n = pending

theorem agrees_of_isFinal {outcome : Outcome} (h : outcome.isFinal = true) (pending : Nat) :
    Agrees true pending outcome := by
  cases outcome with
  | written | failed => exact ⟨by simp, fun n hn => by cases hn⟩
  | buffered | bypassed | skipped => cases h

theorem agrees_bypassed (pending : Nat) : Agrees false pending .bypassed :=
  ⟨by simp, fun n hn => by cases hn⟩

theorem agrees_skipped (pending : Nat) : Agrees true pending .skipped :=
  ⟨by simp, fun n hn => by cases hn⟩

end Outcome

def Lookup.Shows (key : String) : Lookup → Event → Prop
  | hit _, e => e = .hit key
  | miss, e => e = .miss key ∨ (∃ age, e = .stale key age) ∨ ∃ f, e = .readFailed key f
  | bypass, e => e = .bypassed

namespace Cache

variable {σ : Type} {c : Cache σ} {w f : Nat}

/-- The statistics agree with the events, `w` writes are counted, and `f` are told to have
failed. -/
structure Balanced (w f : Nat) (c : Cache σ) : Prop where
  told : ∀ k, k ≠ .sets →
    c.stats.get k = (c.events.countP fun e => e.counter? = some k).toUInt64
  sets : c.stats.get .sets = w.toUInt64
  failures : (c.events.map Event.failures).sum = f
  positive : ∀ n g, .writeFailed n g ∈ c.events → 0 < n

theorem Balanced.of_eq {c' : Cache σ} (h : c.Balanced w f) (hstats : c'.stats = c.stats)
    (hevents : c'.events = c.events) : c'.Balanced w f := by
  constructor
  · rw [hstats, hevents]
    exact h.told
  · rw [hstats]
    exact h.sets
  · rw [hevents]
    exact h.failures
  · rw [hevents]
    exact h.positive

theorem balanced_empty (hstats : c.stats = {}) (hevents : c.events = []) : c.Balanced 0 0 := by
  constructor
  · intro k hk
    rw [hstats, hevents]
    cases k <;> rfl
  · rw [hstats]
    rfl
  · rw [hevents]
    rfl
  · rw [hevents]
    intro n g hg
    cases hg

theorem toUInt64_countP_snoc (es : List Event) (e : Event) (k : Counter) :
    ((es ++ [e]).countP fun e => e.counter? = some k).toUInt64 =
      if e.counter? = some k then (es.countP fun e => e.counter? = some k).toUInt64 + 1
      else (es.countP fun e => e.counter? = some k).toUInt64 := by
  rw [List.countP_append, List.countP_singleton]
  by_cases hk : e.counter? = some k
  · simp [hk, Nat.toUInt64]
  · simp [hk]

theorem Balanced.note (h : c.Balanced w f) {e : Event} {k : Counter} (hk : e.counter? = some k)
    (hpos : ∀ n g, e = .writeFailed n g → 0 < n) :
    Balanced w (f + e.failures)
      { c with stats := c.stats.add 1 k, events := c.events ++ [e] } := by
  have hsets : k ≠ .sets := by
    rintro rfl
    cases e <;> cases hk
  constructor
  · intro j hj
    rw [Stats.get_add, toUInt64_countP_snoc, hk, h.told j hj]
    by_cases hkj : k = j
    · simp [hkj]
    · simp [hkj]
  · dsimp only
    rw [Stats.get_add, if_neg hsets]
    exact h.sets
  · simp [h.failures]
  · intro n g hg
    rcases List.mem_append.1 hg with hg | hg
    · exact h.positive n g hg
    · exact hpos n g (List.mem_singleton.1 hg).symm

theorem Balanced.mention (h : c.Balanced w f) {e : Event} (he : e.counter? = none) :
    Balanced w f { c with events := c.events ++ [e] } := by
  have hfailures : e.failures = 0 := by
    cases e with
    | writeFailed n g => cases he
    | hit | miss | stale | bypassed | readFailed | written | buffered | writeSkipped => rfl
  constructor
  · intro j hj
    dsimp only
    rw [toUInt64_countP_snoc, he, if_neg (by simp)]
    exact h.told j hj
  · exact h.sets
  · simp [h.failures, hfailures]
  · intro n g hg
    rcases List.mem_append.1 hg with hg | hg
    · exact h.positive n g hg
    · obtain rfl := List.mem_singleton.1 hg
      cases he

theorem Balanced.write (h : c.Balanced w f) (n : Nat) :
    Balanced (w + n) f { c with stats := c.stats.add n .sets } := by
  constructor
  · intro j hj
    dsimp only
    rw [Stats.get_add, if_neg (Ne.symm hj)]
    exact h.told j hj
  · dsimp only
    rw [Stats.get_add, if_pos rfl, h.sets]
    simp [Nat.toUInt64]
  · exact h.failures
  · exact h.positive

def Recounts (c : Cache σ) (key : String) (found : Lookup) (d : Cache σ) : Prop :=
  ∃ e k, e.counter? = some k ∧ found.Shows key e ∧ d.stats = c.stats.add 1 k ∧
    d.events = c.events ++ [e]

theorem Recounts.balanced {d : Cache σ} {key : String} {found : Lookup} (h : c.Recounts key found d)
    (hc : c.Balanced w f) : d.Balanced w f := by
  obtain ⟨e, k, hk, hshows, hstats, hevents⟩ := h
  have hread : e.failures = 0 ∧ ∀ n g, e ≠ .writeFailed n g := by
    cases found with
    | hit reply | bypass =>
        obtain rfl := hshows
        exact ⟨rfl, nofun⟩
    | miss =>
        rcases hshows with rfl | ⟨age, rfl⟩ | ⟨g, rfl⟩ <;> exact ⟨rfl, nofun⟩
  have hnoted := hc.note hk fun n g heq => (hread.2 n g heq).elim
  rw [hread.1] at hnoted
  exact hnoted.of_eq hstats hevents

/-- An operation that writes so many entries ended with this outcome. -/
structure Concludes (w f n : Nat) (outcome : Outcome) (c : Cache σ) : Prop where
  final : outcome.isFinal = true
  total : outcome.counts.1 + outcome.counts.2 = n
  balanced : c.Balanced (w + outcome.counts.1) (f + outcome.counts.2)

structure Reports (w f : Nat) (admitted : Bool) (outcome : Outcome) (c : Cache σ) : Prop where
  agrees : outcome.Agrees admitted c.pending
  balanced : c.Balanced (w + outcome.counts.1) (f + outcome.counts.2)

theorem Concludes.reports {n : Nat} {outcome : Outcome} (h : c.Concludes w f n outcome) :
    c.Reports w f true outcome :=
  ⟨Outcome.agrees_of_isFinal h.final c.pending, h.balanced⟩

end Cache

namespace Action

variable {σ : Type} {store : Store σ} {now : Moment} {w f : Nat}

theorem ensures_gate (call : Call) (b : Bool) :
    Ensures (fun c : Cache σ => c.Balanced w f ∧ c.admits call = b) (gate call)
      fun a c => a = b ∧ c.Balanced w f ∧ c.admits call = b := by
  apply Ensures.get_bind
  rintro c ⟨hc, hadmits⟩
  refine Ensures.ite (fun h => Ensures.pure ?_) fun h => Ensures.of_result (fun _ => rfl) ?_
  · rintro d rfl
    exact ⟨h.symm.trans hadmits, hc, hadmits⟩
  · rintro d rfl
    have hdenied : d.admits call = false := by simpa using h
    exact ⟨hdenied.symm.trans hadmits, hc.note (e := .bypassed) (k := .bypassed) rfl nofun, hadmits⟩

theorem ensures_fits (reply : Json) :
    Ensures (Cache.Balanced (σ := σ) w f) (fits reply) fun _ => Cache.Balanced w f := by
  apply Ensures.get_bind
  intro c hc
  refine Ensures.ite (fun h => Ensures.of_result (fun _ => rfl) ?_) fun h => Ensures.pure ?_
  · rintro d rfl
    exact hc.mention rfl
  · rintro d rfl
    exact hc

theorem ensures_filterFits (es acc : List (Json × Json)) :
    Ensures (Cache.Balanced (σ := σ) w f) (List.filterAuxM (fun e => fits e.2) es acc)
      fun _ => Cache.Balanced w f := by
  induction es generalizing acc with
  | nil => exact Ensures.pure fun c hc => hc
  | cons e es ih => exact (ensures_fits e.2).bind fun _ => ih _

theorem ensures_batchItems (call : Call) (inputs replies : List Json) :
    Ensures (Cache.Balanced (σ := σ) w f) (batchItems now call inputs replies)
      fun _ => Cache.Balanced w f := by
  have hkept : Ensures (Cache.Balanced (σ := σ) w f)
      ((inputs.zip replies).filterM fun e => fits e.2) fun _ => Cache.Balanced w f :=
    (ensures_filterFits _ []).bind fun _ => Ensures.pure fun c hc => hc
  refine hkept.bind fun _ => Ensures.get_bind fun c hc => Ensures.pure ?_
  rintro d rfl
  exact hc

theorem ensures_writeFailed {n : Nat} (hn : 0 < n) (g : Fault) :
    Ensures (Cache.Balanced (σ := σ) w f) (writeFailed n g)
      fun _ => Cache.Balanced w (f + n) :=
  Ensures.of_result (fun _ => rfl) fun c hc =>
    hc.note (e := .writeFailed n g) (k := .errors) rfl fun m h heq => by
      obtain ⟨rfl, -⟩ := Event.writeFailed.inj heq
      exact hn

theorem ensures_finishWrite {n : Nat} (hn : 0 < n) (strategy : Strategy)
    (answer : Except Fault Unit) :
    Ensures (Cache.Balanced (σ := σ) w f) (finishWrite n strategy answer)
      (Cache.Concludes w f n) := by
  cases answer with
  | ok u => exact Ensures.of_result (fun _ => rfl) fun c hc => ⟨rfl, rfl, (hc.write n).mention rfl⟩
  | error g =>
      refine (ensures_writeFailed hn g).bind fun _ => Ensures.pure fun c hc => ⟨?_, ?_, hc⟩
      · exact decide_eq_true (Nat.pos_iff_ne_zero.1 hn)
      · exact Nat.zero_add n

theorem ensures_finishWrites (strategy : Strategy) (written failed : Nat) :
    Ensures (Cache.Balanced (σ := σ) w (f + failed)) (finishWrites strategy written failed)
      (Cache.Concludes w f (written + failed)) := by
  have hcount : Ensures (Cache.Balanced (σ := σ) w (f + failed)) (count .sets written)
      fun _ => Cache.Balanced (w + written) (f + failed) :=
    Ensures.modify fun c hc => hc.write written
  refine hcount.bind fun _ => Ensures.ite (fun hfailed => ?_) fun hfailed => ?_
  · subst hfailed
    exact Ensures.of_result (fun _ => rfl) fun c hc => ⟨rfl, rfl, hc.mention rfl⟩
  · exact Ensures.pure fun c hc => ⟨decide_eq_true hfailed, rfl, hc⟩

theorem ensures_asked (store : Store σ) (now : Moment) (r : Request) :
    Ensures (Cache.Balanced w f) (ask store now r) fun _ => Cache.Balanced w f :=
  ensures_ask (fun _ _ hc => hc.of_eq rfl rfl) store now r

theorem ensures_writeOne (form : Form) (item : Item) (options : WriteOptions) :
    Ensures (Cache.Balanced w f) (writeOne store now form item options)
      (Cache.Concludes w f 1) :=
  (ensures_asked store now (.write form item options)).bind fun answer =>
    ensures_finishWrite Nat.one_pos .single answer

theorem ensures_writeEach (options : WriteOptions) (items : List Item) :
    Ensures (Cache.Balanced w f) (writeEach store now options items) fun n c =>
      n.1 + n.2 = items.length ∧ c.Balanced w (f + n.2) := by
  induction items generalizing f with
  | nil => exact Ensures.pure fun c hc => ⟨rfl, hc⟩
  | cons i is ih =>
      refine (ensures_asked store now (.write .blocking i options)).bind fun answer => ?_
      cases answer with
      | ok u =>
          refine ih.bind fun n => Ensures.pure ?_
          rintro c ⟨hlen, hc⟩
          refine ⟨?_, hc⟩
          rw [List.length_cons, ← hlen]
          omega
      | error g =>
          refine (ensures_writeFailed Nat.one_pos g).bind fun _ => ih.bind fun n => Ensures.pure ?_
          rintro c ⟨hlen, hc⟩
          rw [Nat.add_assoc, Nat.add_comm 1] at hc
          exact ⟨congrArg (· + 1) hlen, hc⟩

theorem ensures_writeBlocking (items : List Item) (options : WriteOptions) :
    Ensures (Cache.Balanced w f) (writeBlocking store now items options)
      (Cache.Concludes w f items.length) := by
  refine (ensures_writeEach options items).bind fun n => Ensures.assuming fun hlen => ?_
  rw [← hlen]
  exact ensures_finishWrites .blocking n.1 n.2

theorem ensures_failures (es : List (Nat × Fault)) :
    Ensures (Cache.Balanced (σ := σ) w f) (es.forM fun e => writeFailed 1 e.2)
      fun _ => Cache.Balanced w (f + es.length) := by
  induction es generalizing f with
  | nil => exact Ensures.pure fun c hc => hc
  | cons e es ih =>
      refine (ensures_writeFailed Nat.one_pos e.2).bind fun _ => ih.imp fun _ c hc => ?_
      rw [List.length_cons, Nat.add_comm es.length, ← Nat.add_assoc]
      exact hc

theorem ensures_writeFannedOut (items : List Item) (options : WriteOptions) :
    Ensures (Cache.Balanced w f) (writeFannedOut store now items options)
      (Cache.Concludes w f items.length) := by
  have hask : ∀ i : Item, Ensures (Cache.Balanced w f) (ask store now (.write .async i options))
      fun _ => Cache.Balanced w f := fun i => ensures_asked store now _
  refine (ensures_mapM hask items).bind fun answers => Ensures.assuming fun hlen => ?_
  rw [← hlen, ← Tally.counts_ofResults]
  exact (ensures_failures _).bind fun _ => ensures_finishWrites .fanOut _ _

theorem ensures_writeItems (items : List Item) (options : WriteOptions) :
    Ensures (Cache.Balanced w f) (writeItems store now items options)
      (Cache.Concludes w f items.length) := by
  refine Ensures.ite (fun hnil => Ensures.pure fun c hc => ?_) fun hsome => ?_
  · rw [List.isEmpty_iff.1 hnil]
    exact ⟨rfl, rfl, hc⟩
  · have hlen : 0 < items.length := by simpa [List.length_pos_iff] using hsome
    refine Ensures.ite (fun _ => ensures_writeBlocking items options) fun _ => ?_
    refine Ensures.ite (fun _ => ?_) fun _ => Ensures.ite (fun _ => ?_) fun _ =>
      ensures_writeFannedOut items options
    · exact (ensures_asked store now (.writeAll .pipeline items options)).bind fun answer =>
        ensures_finishWrite hlen .pipeline answer
    · exact (ensures_asked store now (.writeAll .batch items options)).bind fun answer =>
        ensures_finishWrite hlen .batch answer

theorem ensures_writeGroups (gs : List (Option Span × List Item)) {so : Outcome} {n : Nat}
    (hfinal : so.isFinal = true) (htotal : so.counts.1 + so.counts.2 = n) :
    Ensures (Cache.Balanced (w + so.counts.1) (f + so.counts.2)) (writeGroups store now so gs)
      (Cache.Concludes w f (n + (Pending.spread gs).length)) := by
  induction gs generalizing so n with
  | nil => exact Ensures.pure fun c hc => ⟨hfinal, htotal, hc⟩
  | cons g gs ih =>
      have hmerge := Outcome.counts_merge so
      refine (ensures_writeItems g.2 { lifetime := g.1 }).bind fun outcome => ?_
      refine Ensures.of_imp (Ensures.assuming fun hlen => ?_) fun c hc => ⟨hc.total, hc.balanced⟩
      have hsum : (so.merge outcome).counts.1 + (so.merge outcome).counts.2 =
          n + g.2.length := by
        rw [hmerge]
        omega
      have hrest := ih (Outcome.isFinal_merge so outcome) hsum
      rw [hmerge] at hrest
      rw [Pending.spread_cons, List.length_append, List.length_map, ← Nat.add_assoc,
        Nat.add_assoc w, Nat.add_assoc f]
      exact hrest

theorem ensures_flush (n : Nat) :
    Ensures (fun c => c.held.length = n ∧ c.Balanced w f) (flush store now)
      (Cache.Concludes w f n) := by
  have hdrain : Ensures (fun c : Cache σ => c.held.length = n ∧ c.Balanced w f) drain
      fun ps c => (Pending.byLifetime ps).length = n ∧ c.Balanced w f := by
    refine Ensures.of_result result_drain ?_
    rintro c ⟨hheld, hc⟩
    exact ⟨(Pending.perm_byLifetime c.held).length_eq.trans hheld, hc.of_eq rfl rfl⟩
  refine hdrain.bind fun ps => Ensures.assuming fun hlen => ?_
  have hstart : (Outcome.written 0).isFinal = true := rfl
  rw [← hlen, ← Nat.zero_add (Pending.byLifetime ps).length]
  exact ensures_writeGroups (groupByLifetime ps) hstart rfl

theorem ensures_push {b : Buffer Pending} (p : Pending) :
    Ensures (Cache.Balanced (σ := σ) w f) (modify fun c => { c with buffer := some (b.push p) })
      fun _ c => c.buffer = some (b.push p) ∧ c.Balanced w f :=
  Ensures.modify fun _ hc => ⟨rfl, hc.of_eq rfl rfl⟩

theorem ensures_hold_full {b : Buffer Pending} {p : Pending} (hfull : (b.push p).isFull = true) :
    Ensures (Cache.Balanced w f) (hold store now b p) (Cache.Concludes w f (b.push p).size) := by
  refine (ensures_push p).bind fun _ => Ensures.ite (fun _ => ?_) fun h => (h hfull).elim
  refine (ensures_flush (b.push p).size).of_imp ?_
  rintro c ⟨hb, hc⟩
  rw [Cache.held, hb]
  exact ⟨rfl, hc⟩

theorem ensures_hold (b : Buffer Pending) (p : Pending) :
    Ensures (Cache.Balanced w f) (hold store now b p) (Cache.Reports w f true) := by
  by_cases hfull : (b.push p).isFull = true
  · exact (ensures_hold_full hfull).imp fun _ _ hc => hc.reports
  · refine (ensures_push p).bind fun _ => Ensures.ite (fun h => (hfull h).elim) fun _ => ?_
    refine Ensures.of_result (fun _ => rfl) ?_
    rintro c ⟨hb, hc⟩
    refine ⟨⟨by simp, ?_⟩, hc.mention rfl⟩
    intro n hn
    rw [Cache.pending, hb]
    exact (Outcome.buffered.inj hn).symm

theorem ensures_write (form : Form) (call : Call) (reply : Json) (b : Bool) :
    Ensures (fun c => c.Balanced w f ∧ c.admits call = b) (write store now form call reply)
      (Cache.Reports w f b) := by
  refine (ensures_gate call b).bind fun admitted => Ensures.assuming fun hb => ?_
  refine Ensures.ite (fun hdenied => Ensures.pure fun c hc => ?_) fun hadmitted => ?_
  · obtain rfl : b = false := by simpa [hb] using hdenied
    exact ⟨Outcome.agrees_bypassed c.pending, hc.1⟩
  · obtain rfl : b = true := by simpa [hb] using hadmitted
    refine Ensures.of_imp ?_ fun c hc => hc.1
    refine (ensures_fits reply).bind fun fitting => ?_
    refine Ensures.ite (fun _ => Ensures.pure fun c hc => ?_) fun _ => ?_
    · exact ⟨Outcome.agrees_skipped c.pending, hc⟩
    · apply Ensures.get_bind
      intro c hc
      refine Ensures.of_imp (P := Cache.Balanced w f) ?_ fun d hd => hd ▸ hc
      have hone : ∀ form item options, Ensures (Cache.Balanced w f)
          (writeOne store now form item options) (Cache.Reports w f true) :=
        fun form item options => (ensures_writeOne form item options).imp fun _ _ h => h.reports
      cases hbuffer : c.buffer with
      | none => cases form <;> exact hone _ _ _
      | some buffer =>
          cases form with
          | async => exact ensures_hold buffer _
          | blocking => exact hone _ _ _

theorem ensures_writeBatch (form : Form) (call : Call) (replies : List Json) (b : Bool) :
    Ensures (fun c => c.Balanced w f ∧ c.admits call = b)
      (writeBatch store now form call replies) (Cache.Reports w f b) := by
  refine (ensures_gate call b).bind fun admitted => Ensures.assuming fun hb => ?_
  refine Ensures.ite (fun hdenied => Ensures.pure fun c hc => ?_) fun hadmitted => ?_
  · obtain rfl : b = false := by simpa [hb] using hdenied
    exact ⟨Outcome.agrees_bypassed c.pending, hc.1⟩
  · obtain rfl : b = true := by simpa [hb] using hadmitted
    cases call.inputs? with
    | none => exact ensures_write form call (.array replies) true
    | some inputs =>
        refine Ensures.of_imp ?_ fun c hc => hc.1
        refine Ensures.ite (fun _ => Ensures.of_result (fun _ => rfl) fun c hc => ?_) fun _ => ?_
        · exact ⟨Outcome.agrees_skipped c.pending, hc.mention rfl⟩
        · refine (ensures_batchItems call inputs replies).bind fun items => ?_
          apply Ensures.get_bind
          intro c hc
          refine Ensures.of_imp (P := Cache.Balanced w f) ?_ fun d hd => hd ▸ hc
          cases form with
          | async => exact (ensures_writeItems items _).imp fun _ _ h => h.reports
          | blocking => exact (ensures_writeBlocking items _).imp fun _ _ h => h.reports

/-- A read ends with one event, which is counted, and with the answer that goes with it. -/
theorem finishRead_eq (now : Moment) (call : Call) (key : Key)
    (answer : Except Fault (Option Json)) :
    ∃ k e found, (finishRead now call key answer : Action σ Lookup) =
        (do count k; emit e; return found) ∧
      e.counter? = some k ∧ found.Shows key.text e ∧ found ≠ .bypass := by
  have hfailed : ∀ g, ∃ k e found, (readFailed key g : Action σ Lookup) =
        (do count k; emit e; return found) ∧
      e.counter? = some k ∧ found.Shows key.text e ∧ found ≠ .bypass := fun g =>
    ⟨.errors, .readFailed key.text g, .miss, rfl, rfl, .inr (.inr ⟨g, rfl⟩), Lookup.noConfusion⟩
  simp only [finishRead]
  cases answer with
  | error g => exact hfailed g
  | ok stored =>
      cases stored with
      | none => exact ⟨.misses, .miss key.text, .miss, rfl, rfl, .inl rfl, Lookup.noConfusion⟩
      | some stored =>
          dsimp only
          cases Freshness.judge stored call.directives.maxAge now.wall with
          | error g => exact hfailed g
          | ok freshness =>
              cases freshness with
              | stale age => exact ⟨.stale, .stale key.text age, .miss, rfl, rfl,
                  .inr (.inl ⟨age, rfl⟩), Lookup.noConfusion⟩
              | fresh reply =>
                  exact ⟨.hits, .hit key.text, .hit reply, rfl, rfl, rfl, Lookup.noConfusion⟩

theorem ensures_finishRead (c : Cache σ) (call : Call) (key : Key)
    (answer : Except Fault (Option Json)) :
    Ensures (fun d => d.stats = c.stats ∧ d.events = c.events) (finishRead now call key answer)
      fun found d => c.Recounts key.text found d ∧ found ≠ .bypass := by
  obtain ⟨k, e, found, heq, hk, hshows, hfound⟩ := finishRead_eq (σ := σ) now call key answer
  rw [heq]
  refine Ensures.of_result (fun _ => rfl) ?_
  rintro d ⟨hstats, hevents⟩
  refine ⟨⟨e, k, hk, hshows, ?_, ?_⟩, hfound⟩
  · rw [← hstats]
  · rw [← hevents]

theorem ensures_read (form : Form) (call : Call) (c : Cache σ) :
    Ensures (· = c) (read store now form call) fun found d =>
      c.Recounts (c.key call).text found d ∧ (found = .bypass ↔ c.admits call = false) := by
  intro c' found d hc hr
  subst hc
  cases hadmits : c'.admits call with
  | false =>
      simp only [read] at hr
      rw [result_bind, result_gate_of_denied hadmits] at hr
      obtain ⟨hfound, rfl⟩ := Prod.mk.inj hr
      obtain rfl := Except.ok.inj hfound
      exact ⟨⟨.bypassed, .bypassed, rfl, rfl, rfl, rfl⟩, iff_of_true rfl rfl⟩
  | true =>
      have hread : ∀ answer s, result (finishRead now call (c'.key call) answer)
          { c' with contents := s } = (.ok found, d) →
            c'.Recounts (c'.key call).text found d ∧ (found = .bypass ↔ true = false) := by
        intro answer s hr
        obtain ⟨hd, hfound⟩ := ensures_finishRead c' call (c'.key call) answer
          { c' with contents := s } found d ⟨rfl, rfl⟩ hr
        exact ⟨hd, iff_of_false hfound Bool.noConfusion⟩
      rw [result_read hadmits] at hr
      split at hr
      · exact hread _ _ hr
      · exact hread _ _ hr
      · cases hr

end Action

def Operation.outcome? : (o : Operation) → o.Answer → Option Outcome
  | .write .., outcome | .writeBatch .., outcome | .flush, outcome => some outcome
  | .read .., _ | .ping, _ | .delete _, _ | .disconnect, _ | .setSpace _, _ | .setLifetime _, _ =>
    none

namespace Cache

variable {σ : Type} {store : Store σ} {now : Moment} {c : Cache σ} {call : Call}

theorem ok_fresh {o : Operation} {a : o.Answer} (ha : (c.step store now o).1 = .ok a) :
    Action.result (Action.perform store now o) c.fresh =
      (.ok a, (c.fresh.step store now o).2) := by
  rw [step_answer] at ha
  exact Prod.ext ha rfl

theorem balanced_fresh (c : Cache σ) : c.fresh.Balanced 0 0 := balanced_empty rfl rfl

theorem reports_write {form : Form} {reply : Json} {outcome : Outcome}
    (ha : (c.step store now (.write form call reply)).1 = .ok outcome) :
    (c.fresh.step store now (.write form call reply)).2.Reports 0 0 (c.admits call) outcome :=
  Action.ensures_write form call reply _ _ _ _ ⟨c.balanced_fresh, rfl⟩ (ok_fresh ha)

theorem reports_writeBatch {form : Form} {replies : List Json} {outcome : Outcome}
    (ha : (c.step store now (.writeBatch form call replies)).1 = .ok outcome) :
    (c.fresh.step store now (.writeBatch form call replies)).2.Reports 0 0 (c.admits call)
      outcome :=
  Action.ensures_writeBatch form call replies _ _ _ _ ⟨c.balanced_fresh, rfl⟩ (ok_fresh ha)

theorem concludes_flush {outcome : Outcome} (ha : (c.step store now .flush).1 = .ok outcome) :
    (c.fresh.step store now .flush).2.Concludes 0 0 c.held.length outcome :=
  Action.ensures_flush _ c.fresh _ _ ⟨rfl, c.balanced_fresh⟩ (ok_fresh ha)

theorem recounts_read {form : Form} {found : Lookup}
    (ha : (c.step store now (.read form call)).1 = .ok found) :
    c.Recounts (c.key call).text found (c.step store now (.read form call)).2 ∧
      (found = .bypass ↔ c.admits call = false) :=
  Action.ensures_read form call c _ _ _ rfl (Prod.ext ha rfl)

theorem pending_of_buffered {o : Operation} {a : o.Answer} {n : Nat}
    (ha : (c.step store now o).1 = .ok a) (h : o.outcome? a = some (.buffered n)) :
    (c.step store now o).2.pending = n := by
  have hpending : (c.step store now o).2.pending = (c.fresh.step store now o).2.pending := by
    rw [step_eq_fresh]
    rfl
  rw [hpending]
  cases o with
  | write form call reply =>
      exact ((reports_write ha).agrees.buffered n (Option.some.inj h)).symm
  | writeBatch form call replies =>
      exact ((reports_writeBatch ha).agrees.buffered n (Option.some.inj h)).symm
  | flush =>
      have hfinal := (concludes_flush ha).final
      rw [Option.some.inj h] at hfinal
      cases hfinal
  | read | ping | delete | disconnect | setSpace | setLifetime => cases h

end Cache

end ReplyCache
