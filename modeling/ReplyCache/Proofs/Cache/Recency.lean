import ReplyCache.Proofs.Cache.Ledger
import ReplyCache.Proofs.Store.Memory

namespace ReplyCache

namespace Cache

variable {σ : Type} {store : Store σ} {Holds : σ → Shelf → Prop} {good : Moment → Prop}
  {takes : Pending → Prop} {l : Option Span} {n : Nat}

def OnlyWrites (o : Operation) : Prop := o.writesReplies = true ∨ o = .flush

instance (o : Operation) : Decidable (OnlyWrites o) := inferInstanceAs (Decidable (_ ∨ _))

theorem settle_of_onlyWrites {o : Operation} (h : OnlyWrites o) (s : Settings) :
    o.settle s = s := by
  cases o with
  | setSpace space | setLifetime lifetime =>
      rcases h with h | h <;> cases h
  | read | write | writeBatch | flush | ping | delete | disconnect => rfl

/-- The buffer takes `n` writes, and the store takes what is in it, all of one lifetime. -/
structure Buffered (n : Nat) (l : Option Span) (takes : Pending → Prop) (c : Cache σ) : Prop where
  buffer : c.buffer = some ⟨n, c.held⟩
  takes : ∀ p ∈ c.held, takes p
  lifetime : ∀ p ∈ c.held, p.lifetime = l

theorem buffered_of_buffer {c : Cache σ} {ps : List Pending} (hb : c.buffer = some ⟨n, ps⟩)
    (ht : ∀ p ∈ ps, takes p) (hl : ∀ p ∈ ps, p.lifetime = l) :
    Buffered n l takes c ∧ c.held = ps := by
  have hheld : c.held = ps := held_eq hb
  exact ⟨⟨hheld ▸ hb, hheld ▸ ht, hheld ▸ hl⟩, hheld⟩

theorem buffered_of_empty {c : Cache σ} (hb : c.buffer = some ⟨n, []⟩) :
    Buffered n l takes c ∧ c.held = [] :=
  buffered_of_buffer hb (fun _ hp => (List.not_mem_nil hp).elim)
    fun _ hp => (List.not_mem_nil hp).elim

/-- What the store will hold once nothing is held back any more. -/
def settled (c : Cache σ) (sh : Shelf) : Shelf := sh.putAll c.held

def counts (c : Cache σ) (o : Operation) (k : Key) (w : Pending) : Pending :=
  if o.waits then w else (Pending.lastOf k c.held).getD w

theorem counts_of_waits {o : Operation} (h : o.waits = true) (c : Cache σ) (k : Key)
    (w : Pending) : c.counts o k w = w := by
  rw [counts, if_pos h]

theorem counts_of_not_waits {o : Operation} (h : o.waits = false) (c : Cache σ) (k : Key)
    (w : Pending) : c.counts o k w = (Pending.lastOf k c.held).getD w := by
  rw [counts, h, if_neg Bool.false_ne_true]

def settledBy (c : Cache σ) (now : Moment) (o : Operation) (sh : Shelf) (k : Key) :
    Option Pending :=
  match Pending.lastOf k (c.submitted now o) with
  | none => c.settled sh k
  | some w => some (c.counts o k w)

theorem settledBy_of_waits {now : Moment} {o : Operation} (h : o.waits = true) (c : Cache σ)
    (sh : Shelf) (k : Key) :
    c.settledBy now o sh k = sh.putAll (c.held ++ c.submitted now o) k := by
  rw [settledBy, Shelf.putAll_append, Shelf.putAll_apply]
  cases Pending.lastOf k (c.submitted now o) with
  | none => rfl
  | some w =>
      dsimp only
      rw [counts_of_waits h, Option.some_or]

theorem settledBy_of_not_waits {now : Moment} {o : Operation} (h : o.waits = false) (c : Cache σ)
    (sh : Shelf) (k : Key) :
    c.settledBy now o sh k = sh.putAll (c.submitted now o ++ c.held) k := by
  rw [settledBy, Shelf.putAll_append, Shelf.putAll_apply, Shelf.putAll_apply]
  cases Pending.lastOf k (c.submitted now o) with
  | none => rw [settled, Shelf.putAll_apply, Option.none_or]
  | some w =>
      dsimp only
      rw [counts_of_not_waits h]
      cases Pending.lastOf k c.held <;> rfl

theorem settled_waiting (hk : store.Keeps Holds good takes) {now : Moment} (hnow : good now)
    {o : Operation} (hwaits : o.waits = true) {c : Cache σ} (hc : Buffered n l takes c) {sh : Shelf}
    (hs : Holds c.contents sh) (ht : ∀ p ∈ c.submitted now o, takes p ∧ p.lifetime = l) :
    ∃ sh', Holds (c.step store now o).2.contents sh' ∧
      Buffered n l takes (c.step store now o).2 ∧
      ∀ k, (c.step store now o).2.settled sh' k = sh.putAll (c.held ++ c.submitted now o) k := by
  have hall : ∀ p ∈ c.held ++ c.submitted now o, takes p ∧ p.lifetime = l := by
    intro p hp
    rcases List.mem_append.1 hp with hp | hp
    · exact ⟨hc.takes p hp, hc.lifetime p hp⟩
    · exact ht p hp
  rcases holds_waiting hk hnow hwaits hc.buffer hs fun p hp => (hall p hp).1 with
    ⟨hnone, hbuffer, hs'⟩ | ⟨p, hone, hstep⟩
  · obtain ⟨hc', hheld⟩ := buffered_of_buffer hbuffer hc.takes hc.lifetime
    refine ⟨sh, hs', hc', fun k => ?_⟩
    rw [settled, hheld, hnone, List.append_nil]
  · rw [hone] at hall ⊢
    split at hstep
    · obtain ⟨hbuffer, hs'⟩ := hstep
      rw [Pending.byLifetime_eq_self fun q hq => (hall q hq).2] at hs'
      obtain ⟨hc', hheld⟩ := buffered_of_empty hbuffer
      refine ⟨_, hs', hc', fun k => ?_⟩
      rw [settled, hheld]
      rfl
    · obtain ⟨hbuffer, hs'⟩ := hstep
      obtain ⟨hc', hheld⟩ := buffered_of_buffer hbuffer (fun q hq => (hall q hq).1)
        (fun q hq => (hall q hq).2)
      refine ⟨sh, hs', hc', fun k => ?_⟩
      rw [settled, hheld]

theorem settled_handed (hk : store.Keeps Holds good takes) {now : Moment} (hnow : good now)
    {o : Operation} (ho : o.writesReplies = true) (hwaits : o.waits = false) {c : Cache σ}
    (hc : Buffered n l takes c) {sh : Shelf} (hs : Holds c.contents sh)
    (ht : ∀ p ∈ c.submitted now o, takes p) :
    ∃ sh', Holds (c.step store now o).2.contents sh' ∧
      Buffered n l takes (c.step store now o).2 ∧
      ∀ k, (c.step store now o).2.settled sh' k = sh.putAll (c.submitted now o ++ c.held) k := by
  obtain ⟨hs', hbuffer⟩ := holds_handed hk hnow ho (.inl hwaits) hs ht
  obtain ⟨hc', hheld⟩ := buffered_of_buffer (hbuffer.trans hc.buffer) hc.takes hc.lifetime
  refine ⟨_, hs', hc', fun k => ?_⟩
  rw [settled, hheld, Shelf.putAll_append]

theorem settled_flush (hk : store.Keeps Holds good takes) {now : Moment} (hnow : good now)
    {c : Cache σ} (hc : Buffered n l takes c) {sh : Shelf} (hs : Holds c.contents sh) :
    ∃ sh', Holds (c.step store now .flush).2.contents sh' ∧
      Buffered n l takes (c.step store now .flush).2 ∧
      ∀ k, (c.step store now .flush).2.settled sh' k = c.settled sh k := by
  have hs' := holds_flush hk hnow hs hc.takes
  rw [Pending.byLifetime_eq_self hc.lifetime] at hs'
  have hbuffer : (c.step store now .flush).2.buffer = some ⟨n, []⟩ := by
    rw [step_buffer, requests, flushing, hc.buffer]
    rfl
  obtain ⟨hc', hheld⟩ := buffered_of_empty hbuffer
  refine ⟨_, hs', hc', fun k => ?_⟩
  rw [settled, hheld]
  rfl

theorem settled_step (hk : store.Keeps Holds good takes) {now : Moment} (hnow : good now)
    {o : Operation} (ho : OnlyWrites o) {c : Cache σ} (hc : Buffered n l takes c) {sh : Shelf}
    (hs : Holds c.contents sh) (ht : ∀ p ∈ c.submitted now o, takes p ∧ p.lifetime = l) :
    ∃ sh', Holds (c.step store now o).2.contents sh' ∧
      Buffered n l takes (c.step store now o).2 ∧
      ∀ k, (c.step store now o).2.settled sh' k = c.settledBy now o sh k := by
  rcases ho with ho | rfl
  · cases hwaits : o.waits with
    | true =>
        simp only [settledBy_of_waits hwaits]
        exact settled_waiting hk hnow hwaits hc hs ht
    | false =>
        simp only [settledBy_of_not_waits hwaits]
        exact settled_handed hk hnow ho hwaits hc hs fun p hp => (ht p hp).1
  · exact settled_flush hk hnow hc hs

theorem settled_run (hk : store.Keeps Holds good takes) (os : List (Moment × Operation))
    (hgood : ∀ x ∈ os, good x.1) (hos : ∀ x ∈ os, OnlyWrites x.2) {c : Cache σ}
    (hc : Buffered n l takes c) {sh : Shelf} (hs : Holds c.contents sh)
    (ht : ∀ x ∈ os, ∀ p ∈ c.submitted x.1 x.2, takes p ∧ p.lifetime = l) :
    ∃ sh', Holds (c.run store os).contents sh' ∧ Buffered n l takes (c.run store os) ∧
      ∀ k, ((∀ x ∈ os, Pending.lastOf k (c.submitted x.1 x.2) = none) →
          (c.run store os).settled sh' k = c.settled sh k) ∧
        ∀ os₁ now o os₂ w, os = os₁ ++ (now, o) :: os₂ →
          Pending.lastOf k (c.submitted now o) = some w →
          (∀ x ∈ os₂, Pending.lastOf k (c.submitted x.1 x.2) = none) →
          (c.run store os).settled sh' k = some ((c.run store os₁).counts o k w) := by
  induction os generalizing c sh with
  | nil =>
      refine ⟨sh, hs, hc, fun k => ⟨fun _ => rfl, fun os₁ now o os₂ w heq => ?_⟩⟩
      simp at heq
  | cons x os ih =>
      obtain ⟨now, o⟩ := x
      obtain ⟨hnow, hgood'⟩ := List.forall_mem_cons.1 hgood
      obtain ⟨ho, hos'⟩ := List.forall_mem_cons.1 hos
      obtain ⟨hto, ht'⟩ := List.forall_mem_cons.1 ht
      obtain ⟨sh₁, hs₁, hc₁, hstep⟩ := settled_step hk hnow ho hc hs hto
      have hsettings : (c.step store now o).2.settings = c.settings := by
        rw [step_settings, settle_of_onlyWrites ho]
      simp only [← submitted_congr hsettings] at ht'
      obtain ⟨sh₂, hs₂, hc₂, hrun⟩ := ih hgood' hos' hc₁ hs₁ ht'
      simp only [submitted_congr hsettings] at hrun
      refine ⟨sh₂, hs₂, hc₂, fun k => ⟨fun hnone => ?_, fun os₁ now' o' os₂ w heq hw hlater => ?_⟩⟩
      · obtain ⟨hfirst, hrest⟩ := List.forall_mem_cons.1 hnone
        rw [run_cons, (hrun k).1 hrest, hstep, settledBy, hfirst]
      · cases os₁ with
        | nil =>
            obtain ⟨hx, rfl⟩ := List.cons.inj heq
            obtain ⟨rfl, rfl⟩ := Prod.mk.inj hx
            rw [run_cons, (hrun k).1 hlater, hstep, settledBy, hw]
            rfl
        | cons y os₁ =>
            obtain ⟨rfl, hos₂⟩ := List.cons.inj heq
            rw [run_cons, run_cons]
            exact (hrun k).2 os₁ now' o' os₂ w hos₂ hw hlater

theorem held_eq_nil {c : Cache σ} (hc : Buffered n l takes c) (h : c.pending = 0) :
    c.held = [] := by
  rw [pending, hc.buffer] at h
  exact List.length_eq_zero_iff.1 h

/-- Once nothing is held back the store has of each key the write that came last, unless that was
handed over while others of the key were held back: then it has the last of those. -/
theorem last_write_or_held (hk : store.Keeps Holds good takes)
    (hbulk : store.capabilities.bulk = true) {settings : Settings}
    (hn : settings.flushSize = some n) {s : σ} {sh : Shelf} (hs : Holds s sh) {c : Cache σ}
    (hc : Cache.new store settings s = .ok c) {os : List (Moment × Operation)}
    (hgood : ∀ x ∈ os, good x.1) (hos : ∀ x ∈ os, OnlyWrites x.2)
    (ht : ∀ x ∈ os, ∀ p ∈ c.submitted x.1 x.2, takes p ∧ p.lifetime = l)
    (hpending : (c.run store os).pending = 0) :
    ∃ sh', Holds (c.run store os).contents sh' ∧
      ∀ k, ((∀ x ∈ os, Pending.lastOf k (c.submitted x.1 x.2) = none) → sh' k = sh k) ∧
        ∀ os₁ now o os₂ w, os = os₁ ++ (now, o) :: os₂ →
          Pending.lastOf k (c.submitted now o) = some w →
          (∀ x ∈ os₂, Pending.lastOf k (c.submitted x.1 x.2) = none) →
          sh' k = some ((c.run store os₁).counts o k w) := by
  obtain ⟨hbuffered, hheld⟩ := buffered_of_empty (buffer_of_new hc hbulk hn)
  obtain ⟨-, -, hcontents, -⟩ := new_eq_ok hc
  obtain ⟨sh', hs', hc', hrun⟩ := settled_run hk os hgood hos hbuffered (hcontents ▸ hs) ht
  have hafter : (c.run store os).settled sh' = sh' := by
    rw [settled, held_eq_nil hc' hpending]
    rfl
  have hbefore : c.settled sh = sh := by
    rw [settled, hheld]
    rfl
  rw [hafter, hbefore] at hrun
  exact ⟨sh', hs', hrun⟩

def overtaking : List (Moment × Operation) :=
  [(⟨0, 0⟩, .write .async (Call.keyed "k") (.string "old")),
    (⟨1, 1⟩, .write .blocking (Call.keyed "k") (.string "new")), (⟨2, 2⟩, .flush)]

theorem last_write_or_held_overtaking :
    ∃ c : Cache Memory,
      Cache.new Memory.store { flushSize := some 10 } (Memory.ofCapacity 10) = .ok c ∧
      ∃ sh', Memory.Holds [⟨"k"⟩] none (c.run Memory.store overtaking).contents sh' ∧
        ∀ k, ((∀ x ∈ overtaking, Pending.lastOf k (c.submitted x.1 x.2) = none) → sh' k = none) ∧
          ∀ os₁ now o os₂ w, overtaking = os₁ ++ (now, o) :: os₂ →
            Pending.lastOf k (c.submitted now o) = some w →
            (∀ x ∈ os₂, Pending.lastOf k (c.submitted x.1 x.2) = none) →
            sh' k = some ((c.run Memory.store os₁).counts o k w) := by
  have hsize : ({ flushSize := some 10 } : Settings).flushSize = some 10 := rfl
  refine ⟨_, rfl, last_write_or_held (l := none) (Memory.keeps [⟨"k"⟩] none 10) rfl hsize
    (Memory.holds_ofCapacity (n := 10) (by decide) none) rfl (by decide)
    (by decide) (by decide +kernel) (by decide +kernel)⟩

/-- The older write undoes the one that was handed over at once. -/
theorem not_last_write :
    ¬ ∀ (c : Cache Memory) (os : List (Moment × Operation)),
      Cache.new Memory.store { flushSize := some 10 } (Memory.ofCapacity 10) = .ok c →
      (∀ x ∈ os, OnlyWrites x.2) →
      (∀ x ∈ os, ∀ p ∈ c.submitted x.1 x.2, p.lifetime = none) →
      (c.run Memory.store os).pending = 0 →
      ∀ os₁ now o os₂ k w, os = os₁ ++ (now, o) :: os₂ →
        Pending.lastOf k (c.submitted now o) = some w →
        (∀ x ∈ os₂, Pending.lastOf k (c.submitted x.1 x.2) = none) →
        ((c.run Memory.store os).contents.find? k).map Slot.record = some w.item.entry.toJson := by
  intro hall
  have h := hall _ overtaking rfl (by decide) (by decide +kernel) (by decide +kernel)
    [(⟨0, 0⟩, .write .async (Call.keyed "k") (.string "old"))] ⟨1, 1⟩
    (.write .blocking (Call.keyed "k") (.string "new")) [(⟨2, 2⟩, .flush)] ⟨"k"⟩
    ⟨⟨⟨"k"⟩, ⟨1, .string "new"⟩⟩, none⟩ rfl (by decide +kernel) (by decide +kernel)
  revert h
  decide +kernel

end Cache

end ReplyCache
