import ReplyCache.Proofs.Cache.Contexts
import ReplyCache.Proofs.Cache.Safety
import ReplyCache.Proofs.Cache.Standing
import ReplyCache.Proofs.Store.Expiry

namespace ReplyCache

namespace Call

def Asks (call : Call) (span : Span) : Prop :=
  ∃ members v x, call.get? directivesName = some (.object members) ∧
    Members.get? Directives.lifetimeName members = some v ∧ v.float? = some x ∧
    Span.ofSeconds? x = some span

theorem lifetime_eq_some {call : Call} {span : Span} :
    call.directives.lifetime = some span ↔ call.Asks span := by
  simp only [directives, Asks]
  constructor
  · intro h
    cases hv : call.get? directivesName with
    | none =>
        rw [hv] at h
        cases h
    | some v =>
        rw [hv] at h
        cases v with
        | object members =>
            obtain ⟨x, hx, hspan⟩ := Option.bind_eq_some_iff.1 h
            obtain ⟨w, hw, hfloat⟩ := Option.bind_eq_some_iff.1 hx
            exact ⟨members, w, x, rfl, hw, hfloat, hspan⟩
        | null | bool | number | string | array => cases h
  · rintro ⟨members, v, x, hget, hmember, hfloat, hspan⟩
    rw [hget]
    simp [Directives.ofJson, Directives.ofMembers, hmember, hfloat, hspan]

/-- The lifetime that the call asks for, or else the one that is set. -/
structure Resolves (call : Call) (given lifetime : Option Span) : Prop where
  asked : ∀ span, call.Asks span → lifetime = some span
  unasked : (¬∃ span, call.Asks span) → lifetime = given

theorem resolves_directives (call : Call) (given : Option Span) :
    call.Resolves given (call.directives.lifetime.or given) := by
  constructor
  · intro span hspan
    rw [lifetime_eq_some.2 hspan]
    rfl
  · intro hnone
    cases hlifetime : call.directives.lifetime with
    | none => rfl
    | some span => exact (hnone ⟨span, lifetime_eq_some.1 hlifetime⟩).elim

end Call

namespace Cache

section Origins

variable {σ : Type} {store : Store σ} {c : Cache σ} {now : Moment} {o : Operation} {p : Pending}

def inForce (given : Option Span) (os : List (Moment × Operation)) : Option Span :=
  os.foldl (fun given x => (x.2.settle { lifetime := given }).lifetime) given

theorem lifetime_run (store : Store σ) (os : List (Moment × Operation)) (c : Cache σ) :
    (c.run store os).settings.lifetime = inForce c.settings.lifetime os := by
  induction os generalizing c with
  | nil => rfl
  | cons x os ih =>
      rw [run_cons, ih, step_settings]
      obtain ⟨now, o⟩ := x
      cases o <;> rfl

theorem lifetime_of_submitted (h : p ∈ c.submitted now o) :
    ∃ call, o.call? = some call ∧ call.Resolves c.settings.lifetime p.lifetime := by
  have hone : ∀ {call reply}, p ∈ c.submittedOne now call reply →
      call.Resolves c.settings.lifetime p.lifetime := by
    intro call reply h
    simp only [submittedOne] at h
    split at h
    · obtain rfl := List.mem_singleton.1 h
      exact call.resolves_directives _
    · cases h
  cases o with
  | write form call reply => exact ⟨call, rfl, hone h⟩
  | writeBatch form call replies =>
      refine ⟨call, rfl, ?_⟩
      simp only [submitted, submittedBatch] at h
      split at h
      · split at h
        · exact hone h
        · split at h
          · cases h
          · obtain ⟨i, -, rfl⟩ := List.mem_map.1 h
            exact call.resolves_directives _
      · cases h
  | read | flush | ping | delete | disconnect | setSpace | setLifetime => cases h

theorem origin_of_held {os : List (Moment × Operation)} (hc : c.held = [])
    (hp : p ∈ (c.run store os).held) :
    ∃ os₁ now o os₂, os = os₁ ++ (now, o) :: os₂ ∧ p ∈ (c.run store os₁).submitted now o := by
  induction os using List.reverseRecOn with
  | nil =>
      rw [run, List.foldl_nil, hc] at hp
      cases hp
  | append_singleton os x ih =>
      obtain ⟨now, o⟩ := x
      rw [run_snoc] at hp
      rcases mem_held_step store now o _ hp with hp | hp
      · exact ⟨os, now, o, [], rfl, hp⟩
      · obtain ⟨os₁, now', o', os₂, rfl, hsubmitted⟩ := ih hp
        exact ⟨os₁, now', o', os₂ ++ [(now, o)], by simp, hsubmitted⟩

theorem origin_of_sent {os : List (Moment × Operation)} (hc : c.held = []) {i : Nat} {r : Request}
    (hr : (c.sent store os)[i]? = some r) (hp : p ∈ r.writes) :
    ∃ os₁ now o os₂, os = os₁ ++ (now, o) :: os₂ ∧ (c.sent store os₁).length ≤ i ∧
      p ∈ (c.run store os₁).submitted now o := by
  obtain ⟨os₁, now, o, os₂, rfl, hle, -, hmem⟩ := sent_position hr
  rcases mem_writes_requests store now o _ (List.mem_flatMap.2 ⟨r, hmem, hp⟩) with hp | hp
  · exact ⟨os₁, now, o, os₂, rfl, hle, hp⟩
  · obtain ⟨os₁', now', o', os₂', rfl, hsubmitted⟩ := origin_of_held hc hp
    refine ⟨os₁', now', o', os₂' ++ (now, o) :: os₂, by simp, ?_, hsubmitted⟩
    exact Nat.le_trans (length_sent_le store c os₁' _) hle

end Origins

variable {n : Nat} {own : Option Span} {c : Cache Memory} {now : Moment} {o : Operation} {k : Key}

def Evicts (k : Key) (c : Cache Memory) (now : Moment) (o : Operation) : Prop :=
  (c.contents.find? k ≠ none ∨ Pending.lastOf k (c.handed Memory.store now o) ≠ none) ∧
    (c.step Memory.store now o).2.contents.find? k = none ∧
    (c.step Memory.store now o).2.contents.Full

instance (k : Key) (c : Cache Memory) (now : Moment) (o : Operation) :
    Decidable (Evicts k c now o) := inferInstanceAs (Decidable (_ ∧ _ ∧ _))

def Untouched (k : Key) (c : Cache Memory) (now : Moment) (o : Operation) : Prop :=
  Pending.lastOf k (c.handed Memory.store now o) = none ∧ k ∉ o.erased

instance (k : Key) (c : Cache Memory) (now : Moment) (o : Operation) :
    Decidable (Untouched k c now o) := inferInstanceAs (Decidable (_ ∧ _))

theorem isWrite_or_close {σ : Type} (store : Store σ) (now : Moment) {o : Operation}
    (ho : o.asks = false) (c : Cache σ) :
    ∀ r ∈ (c.requests store now o).1, r.isWrite = true ∨ r = .close := by
  intro r hr
  rcases requests_cases store now o c with
    hands | ⟨b, p, -, -, hasked⟩ | ⟨-, last, hlast, hasked⟩ | ⟨hasks, -⟩
  · exact .inl (hands.writing r hr).1
  · rw [hasked, Store.holding] at hr
    split at hr
    · exact .inl (Store.writing_draining _ r hr).1
    · cases hr
  · rw [hasked] at hr
    rcases List.mem_append.1 hr with hr | hr
    · exact .inl (Store.writing_draining _ r hr).1
    · exact .inr (hlast r hr)
  · rw [ho] at hasks
    cases hasks

/-- What an operation leaves under a key that it does not delete: what it writes there, or else what
was there. A record may be evicted by a write or found expired by a read. -/
theorem find?_step (hintact : c.contents.Intact n own) (htidy : c.contents.Tidy)
    (hok : Answers Memory.store c now o) (hk : k ∉ o.erased) :
    (c.step Memory.store now o).2.contents.Retains k
        (Memory.written now own k (c.handed Memory.store now o) (c.contents.find? k)) ∨
      Pending.lastOf k (c.handed Memory.store now o) = none ∧
        (c.step Memory.store now o).2.contents.find? k = none ∧
        ∃ s, c.contents.find? k = some s ∧ s.isExpired now = true := by
  -- all operations but reads, pings and deletions write, and may close the store
  have hwriting : o.asks = false → (c.step Memory.store now o).2.contents.Retains k
      (Memory.written now own k (c.handed Memory.store now o) (c.contents.find? k)) := by
    intro ho
    rw [Answers, step_isOk] at hok
    rw [step_contents]
    exact Memory.Retains.serveAll (.inl rfl) htidy hintact (isWrite_or_close Memory.store now ho c)
      (offers_requests Memory.store now o c) hok
  cases o with
  | read form call =>
      simp only [handed, step_contents, requests]
      cases c.admits call with
      | false => exact .inl (.inl rfl)
      | true =>
          rw [if_pos rfl, Store.serveAll_singleton]
          simp only [Memory.store, Memory.serve, Memory.readNow, Memory.usable_eq hintact.usable]
          rcases htidy.find?_read now (c.key call) k with hsame | hexpired
          · exact .inl (.inl hsame)
          · exact .inr ⟨rfl, hexpired⟩
  | delete keys =>
      have hasked : (c.requests Memory.store now (.delete keys)).1 = [.delete keys] := rfl
      simp only [handed, step_contents]
      rw [hasked, Store.serveAll_singleton]
      simp only [Memory.store, Memory.serve, Memory.deleteNow, Memory.usable_eq hintact.usable]
      exact .inl (.inl (Memory.find?_dropAll c.contents hk))
  | ping => exact .inl (.inl rfl)
  | write | writeBatch | flush | disconnect | setSpace | setLifetime =>
      exact .inl (hwriting rfl)

/-- A memory that was never crashed, in a cache that was never told that it is unavailable. -/
structure Sane (n : Nat) (own : Option Span) (c : Cache Memory) : Prop where
  healthy : c.Healthy n own
  tidy : c.contents.Tidy

theorem Sane.step (h : c.Sane n own) (hok : Answers Memory.store c now o) :
    (c.step Memory.store now o).2.Sane n own := by
  refine ⟨h.healthy.step hok, ?_⟩
  rw [step_contents]
  exact h.tidy.serveAll now _

theorem Sane.run (h : c.Sane n own) {os : List (Moment × Operation)}
    (hans : Along Memory.store (Answers Memory.store) c os) :
    (c.run Memory.store os).Sane n own := by
  induction os generalizing c with
  | nil => exact h
  | cons x os ih =>
      obtain ⟨now, o⟩ := x
      obtain ⟨hfirst, hrest⟩ := along_cons.1 hans
      exact ih (h.step hfirst) hrest

theorem sane_of_new {settings : Settings}
    (hc : Cache.new Memory.store settings (Memory.ofCapacity n own) = .ok c) :
    c.Sane (max n 1) own := by
  obtain ⟨-, -, hcontents, -⟩ := new_eq_ok hc
  exact ⟨healthy_of_new hc, hcontents ▸ Memory.tidy_ofCapacity n own⟩

theorem Sane.find?_handed (h : c.Sane n own) (hok : Answers Memory.store c now o) {p : Pending}
    (hp : Pending.lastOf k (c.handed Memory.store now o) = some p) (hstays : ¬ Evicts k c now o) :
    (c.step Memory.store now o).2.contents.find? k = some (Memory.slotOf now own p) := by
  have hk : k ∉ o.erased := by
    intro hk
    cases o with
    | delete keys => cases hp
    | read | write | writeBatch | flush | ping | disconnect | setSpace | setLifetime => cases hk
  rcases find?_step h.healthy.contents h.tidy hok hk with (hfind | ⟨hnone, hfull⟩) | ⟨hnone, -⟩
  · rw [hfind, Memory.written, hp]
    rfl
  · refine (hstays ⟨.inr ?_, hnone, hfull⟩).elim
    rw [hp]
    exact Option.some_ne_none p
  · rw [hp] at hnone
    cases hnone

theorem Sane.find?_untouched (h : c.Sane n own) (hok : Answers Memory.store c now o)
    (huntouched : Untouched k c now o) (hstays : ¬ Evicts k c now o) {s : Slot} {now' : Moment}
    (hle : now.steady ≤ now'.steady)
    (hs : c.contents.find? k = some s ∨ c.contents.find? k = none ∧ s.isExpired now' = true) :
    (c.step Memory.store now o).2.contents.find? k = some s ∨
      (c.step Memory.store now o).2.contents.find? k = none ∧ s.isExpired now' = true := by
  obtain ⟨hnone, hk⟩ := huntouched
  have hstep := find?_step h.healthy.contents h.tidy hok hk
  rw [Memory.written, hnone] at hstep
  rcases hstep with (hfind | ⟨hgone, hfull⟩) | ⟨-, hgone, t, ht, hexpired⟩
  · exact hs.imp hfind.trans fun hs => ⟨hfind.trans hs.1, hs.2⟩
  · rcases hs with hs | hs
    · refine (hstays ⟨.inl ?_, hgone, hfull⟩).elim
      rw [hs]
      exact Option.some_ne_none s
    · exact .inr ⟨hgone, hs.2⟩
  · rcases hs with hs | hs
    · -- what was found expired is so at any later time
      obtain rfl := Option.some.inj (hs.symm.trans ht)
      exact .inr ⟨hgone, Memory.isExpired_of_le hexpired hle⟩
    · exact .inr ⟨hgone, hs.2⟩

theorem Sane.find?_since (h : c.Sane n own) {os : List (Moment × Operation)} {s : Slot}
    {now' : Moment} (hans : Along Memory.store (Answers Memory.store) c os)
    (huntouched : Along Memory.store (Untouched k) c os)
    (hstays : Along Memory.store (fun c now o => ¬ Evicts k c now o) c os)
    (htimes : ∀ x ∈ os, x.1.steady ≤ now'.steady)
    (hs : c.contents.find? k = some s ∨ c.contents.find? k = none ∧ s.isExpired now' = true) :
    (c.run Memory.store os).contents.find? k = some s ∨
      (c.run Memory.store os).contents.find? k = none ∧ s.isExpired now' = true := by
  induction os generalizing c with
  | nil => exact hs
  | cons x os ih =>
      obtain ⟨now, o⟩ := x
      obtain ⟨hok, hans'⟩ := along_cons.1 hans
      obtain ⟨huntouched, huntouched'⟩ := along_cons.1 huntouched
      obtain ⟨hstay, hstays'⟩ := along_cons.1 hstays
      obtain ⟨hle, htimes'⟩ := List.forall_mem_cons.1 htimes
      exact ih (h.step hok) hans' huntouched' hstays' htimes'
        (h.find?_untouched hok huntouched hstay hle hs)

/-- Whatever way a write takes to the store, its lifetime is the one that its call asks for, or else
the one that was set when the call was made. A memory serves what it was last handed of a key until
that lifetime is over, or its own if there is none, as long as the key is not written, deleted or
evicted. -/
theorem lifetimes_kept {σ : Type} {store : Store σ} {c : Cache σ} {settings : Settings} {s : σ}
    (hc : Cache.new store settings s = .ok c) (os : List (Moment × Operation)) :
    (∀ i r, (c.sent store os)[i]? = some r → ∀ p ∈ r.writes,
      ∃ os₁ now o os₂ call, os = os₁ ++ (now, o) :: os₂ ∧ (c.sent store os₁).length ≤ i ∧
        o.call? = some call ∧ p ∈ (c.run store os₁).submitted now o ∧
        call.Resolves (inForce settings.lifetime os₁) p.lifetime) ∧
      ∀ n own settings' (d : Cache Memory),
        Cache.new Memory.store settings' (Memory.ofCapacity n own) = .ok d →
        ∀ os₁ now o os₂, Along Memory.store (Answers Memory.store) d (os₁ ++ (now, o) :: os₂) →
        ∀ k p, Pending.lastOf k ((d.run Memory.store os₁).handed Memory.store now o) = some p →
          Along Memory.store (fun d now o => ¬ Evicts k d now o) (d.run Memory.store os₁)
            ((now, o) :: os₂) →
          Along Memory.store (Untouched k) (d.run Memory.store (os₁ ++ [(now, o)])) os₂ →
          ∀ now', (∀ x ∈ os₂, x.1.steady ≤ now'.steady) → ∀ form context,
            (Memory.store.serve now' (.read form k context)
                (d.run Memory.store (os₁ ++ (now, o) :: os₂)).contents).1 =
              .ok (if (p.lifetime.or own).all fun span =>
                  decide (now'.steady < now.steady + span.nanoseconds)
                then some p.item.entry.toJson else none) := by
  obtain ⟨-, hsettings, -, -⟩ := new_eq_ok hc
  constructor
  · intro i r hr p hp
    obtain ⟨os₁, now, o, os₂, hos, hle, hsubmitted⟩ := origin_of_sent (held_of_new hc) hr hp
    obtain ⟨call, hcall, hresolves⟩ := lifetime_of_submitted hsubmitted
    rw [lifetime_run, hsettings] at hresolves
    exact ⟨os₁, now, o, os₂, call, hos, hle, hcall, hsubmitted, hresolves⟩
  · intro n own settings' d hd os₁ now o os₂ hans k p hp hstays huntouched now' htimes form context
    obtain ⟨hans₁, hans'⟩ := along_append.1 hans
    obtain ⟨hok, hans₂⟩ := along_cons.1 hans'
    obtain ⟨hstay, hstays'⟩ := along_cons.1 hstays
    have hmet := (sane_of_new hd).run hans₁
    have hwritten := hmet.find?_handed hok hp hstay
    have hnext := hmet.step hok
    rw [run_snoc] at huntouched
    have hkept := hnext.find?_since hans₂ huntouched hstays' htimes (.inl hwritten)
    have hlast := hnext.run hans₂
    rw [run_append, run_cons]
    refine (Memory.serve_read hlast.healthy.contents form k context).trans (congrArg Except.ok ?_)
    rcases hkept with hfind | ⟨hnone, hexpired⟩
    · rw [hfind, Option.bind_some, Memory.isExpired_slotOf]
      cases (p.lifetime.or own).all fun span =>
        decide (now'.steady < now.steady + span.nanoseconds) <;> rfl
    · rw [Memory.isExpired_slotOf, Bool.not_eq_true'] at hexpired
      rw [hnone, hexpired]
      rfl

def hour : Span := ⟨3600000000000, by decide⟩

def lowered : List (Moment × Operation) :=
  [(⟨0, 0⟩, .write .async (Call.keyed "k") (.string "a")), (⟨1, 1⟩, .setLifetime none)]

theorem lifetimes_kept_lowered :
    let settings : Settings := { lifetime := some hour, flushSize := some 10 }
    let p : Pending := ⟨⟨⟨"k"⟩, ⟨0, .string "a"⟩⟩, some hour⟩
    ∃ c : Cache Memory, Cache.new Memory.store settings (Memory.ofCapacity 10) = .ok c ∧
      let os := lowered ++ (⟨2, 2⟩, .flush) :: [(⟨3, 3⟩, .read .async (Call.keyed "k"))]
      let served := fun now =>
        (Memory.store.serve now (.read .async ⟨"k"⟩ {}) (c.run Memory.store os).contents).1
      (c.sent Memory.store os)[0]? = some (.writeAll .batch [p.item] { lifetime := some hour }) ∧
        (∃ os₁ now o os₂ call, os = os₁ ++ (now, o) :: os₂ ∧
          (c.sent Memory.store os₁).length ≤ 0 ∧ o.call? = some call ∧
          p ∈ (c.run Memory.store os₁).submitted now o ∧
          call.Resolves (inForce (some hour) os₁) p.lifetime) ∧
        served ⟨4, 3600000000001⟩ = .ok (some p.item.entry.toJson) ∧
        served ⟨5, 3600000000002⟩ = .ok none := by
  intro settings p
  let c : Cache Memory := { settings, contents := Memory.ofCapacity 10, buffer := some ⟨10, []⟩ }
  have hc : Cache.new Memory.store settings (Memory.ofCapacity 10) = .ok c := rfl
  obtain ⟨hsent, hkept⟩ := lifetimes_kept hc
    (lowered ++ (⟨2, 2⟩, .flush) :: [(⟨3, 3⟩, .read .async (Call.keyed "k"))])
  have hserved := hkept 10 none settings c hc lowered ⟨2, 2⟩ .flush
    [(⟨3, 3⟩, .read .async (Call.keyed "k"))] (by decide +kernel) ⟨"k"⟩ p (by decide +kernel)
    (by decide +kernel) (by decide +kernel)
  have hfirst : (c.sent Memory.store
      (lowered ++ (⟨2, 2⟩, .flush) :: [(⟨3, 3⟩, .read .async (Call.keyed "k"))]))[0]? =
        some (.writeAll .batch [p.item] { lifetime := some hour }) := by
    decide +kernel
  refine ⟨c, hc, hfirst, ?_, ?_, ?_⟩
  · exact hsent 0 _ hfirst p (List.mem_singleton.2 rfl)
  · exact hserved ⟨4, 3600000000001⟩ (by decide +kernel) .async {}
  · exact hserved ⟨5, 3600000000002⟩ (by decide +kernel) .async {}

end Cache

end ReplyCache
