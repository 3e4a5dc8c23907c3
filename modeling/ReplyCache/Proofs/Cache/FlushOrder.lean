import ReplyCache.Proofs.Cache.Ledger
import ReplyCache.Proofs.Store.Memory

namespace ReplyCache

namespace Pending

/-- Writes as they are flushed together: as many as the buffer takes, and the rest in the end. -/
def blocks (n : Nat) (waiting : List Pending) : List Pending → List (List Pending)
  | [] => [waiting]
  | p :: ps =>
    if n ≤ (waiting ++ [p]).length then (waiting ++ [p]) :: blocks n [] ps
    else blocks n (waiting ++ [p]) ps

/-- In the block that has the last write of a key, no write of the key lives longer. -/
def InOrder (k : Key) (bs : List (List Pending)) : Prop :=
  ∀ bs₁ b bs₂ w, bs = bs₁ ++ b :: bs₂ → lastOf k bs₂.flatten = none → lastOf k b = some w →
    ∀ p ∈ b, p.item.key = k → Span.compareOption p.lifetime w.lifetime ≠ .gt

theorem flatten_blocks (n : Nat) (waiting ps : List Pending) :
    (blocks n waiting ps).flatten = waiting ++ ps := by
  induction ps generalizing waiting with
  | nil => simp [blocks]
  | cons p ps ih =>
      simp only [blocks]
      split
      · rw [List.flatten_cons, ih, List.nil_append, List.append_assoc, List.singleton_append]
      · rw [ih, List.append_assoc, List.singleton_append]

theorem lastOf_byLifetime_eq_none {k : Key} {ps : List Pending} :
    lastOf k (byLifetime ps) = none ↔ lastOf k ps = none := by
  rw [lastOf_eq_none, lastOf_eq_none]
  exact forall_congr' fun p => imp_congr_left mem_byLifetime

theorem lastOf_flatMap_eq_none {k : Key} {bs : List (List Pending)} :
    lastOf k (bs.flatMap byLifetime) = none ↔ lastOf k bs.flatten = none := by
  induction bs with
  | nil => simp
  | cons b bs ih =>
      rw [List.flatMap_cons, List.flatten_cons, lastOf_append, lastOf_append, Option.or_eq_none_iff,
        Option.or_eq_none_iff, ih, lastOf_byLifetime_eq_none]

theorem inOrder_cons_of_some {k : Key} {b : List Pending} {bs : List (List Pending)}
    (h : lastOf k bs.flatten ≠ none) : InOrder k (b :: bs) ↔ InOrder k bs := by
  constructor
  · intro hin bs₁ d bs₂ w heq
    exact hin (b :: bs₁) d bs₂ w (by rw [heq]; rfl)
  · intro hin bs₁ d bs₂ w heq hnone
    cases bs₁ with
    | nil =>
        obtain ⟨-, rfl⟩ := List.cons.inj heq
        exact (h hnone).elim
    | cons e bs₁ => exact hin bs₁ d bs₂ w (List.cons.inj heq).2 hnone

theorem lastOf_block_eq_none {k : Key} {bs : List (List Pending)}
    (h : lastOf k bs.flatten = none) {b : List Pending} (hb : b ∈ bs) : lastOf k b = none := by
  rw [lastOf_eq_none] at h ⊢
  exact fun p hp => h p (List.mem_flatten.2 ⟨b, hb, hp⟩)

theorem inOrder_cons_of_none {k : Key} {b : List Pending} {bs : List (List Pending)}
    (h : lastOf k bs.flatten = none) :
    InOrder k (b :: bs) ↔ ∀ w, lastOf k b = some w →
      ∀ p ∈ b, p.item.key = k → Span.rank p.lifetime ≤ Span.rank w.lifetime := by
  constructor
  · intro hin w hw p hp hk
    exact Span.compareOption_ne_gt.1 (hin [] b bs w rfl h hw p hp hk)
  · intro hmax bs₁ d bs₂ w heq _ hw p hp hk
    cases bs₁ with
    | nil =>
        obtain ⟨rfl, -⟩ := List.cons.inj heq
        exact Span.compareOption_ne_gt.2 (hmax w hw p hp hk)
    | cons e bs₁ =>
        have hd : d ∈ bs := by
          rw [(List.cons.inj heq).2]
          simp
        rw [lastOf_block_eq_none h hd] at hw
        cases hw

theorem lastOf_flatMap_iff (k : Key) (bs : List (List Pending)) :
    lastOf k (bs.flatMap byLifetime) = lastOf k bs.flatten ↔ InOrder k bs := by
  induction bs with
  | nil =>
      refine ⟨fun _ bs₁ b bs₂ w heq => ?_, fun _ => rfl⟩
      simp at heq
  | cons b bs ih =>
      rw [List.flatMap_cons, List.flatten_cons, lastOf_append, lastOf_append]
      by_cases hnone : lastOf k bs.flatten = none
      · rw [inOrder_cons_of_none hnone, hnone, lastOf_flatMap_eq_none.2 hnone, Option.none_or,
          Option.none_or]
        cases hb : lastOf k b with
        | none => simp [lastOf_byLifetime_eq_none.2 hb]
        | some w =>
            rw [lastOf_byLifetime hb]
            exact ⟨fun h v hv => Option.some.inj hv ▸ h, fun h => h w rfl⟩
      · rw [inOrder_cons_of_some hnone, ← ih]
        obtain ⟨v, hv⟩ := Option.ne_none_iff_exists'.1 hnone
        obtain ⟨v', hv'⟩ := Option.ne_none_iff_exists'.1 fun h =>
          hnone (lastOf_flatMap_eq_none.1 h)
        rw [hv, hv', Option.some_or, Option.some_or]

end Pending

namespace Shelf

theorem putAll_eq_iff (sh : Shelf) (k : Key) (bs : List (List Pending)) :
    sh.putAll (bs.flatMap Pending.byLifetime) k = sh.putAll bs.flatten k ↔
      Pending.InOrder k bs := by
  rw [putAll_apply, putAll_apply, ← Pending.lastOf_flatMap_iff]
  by_cases hnone : Pending.lastOf k bs.flatten = none
  · rw [hnone, Pending.lastOf_flatMap_eq_none.2 hnone]
    simp
  · obtain ⟨v, hv⟩ := Option.ne_none_iff_exists'.1 hnone
    obtain ⟨v', hv'⟩ := Option.ne_none_iff_exists'.1 fun h =>
      hnone (Pending.lastOf_flatMap_eq_none.1 h)
    rw [hv, hv', Option.some_or, Option.some_or]

end Shelf

structure Submission where
  now : Moment
  call : Call
  reply : Json

def Submission.operation (x : Submission) : Moment × Operation :=
  (x.now, .write .async x.call x.reply)

namespace Cache

variable {σ : Type} {store : Store σ} {Holds : σ → Shelf → Prop} {good : Moment → Prop}
  {takes : Pending → Prop}

def submissions (c : Cache σ) (xs : List Submission) : List Pending :=
  xs.flatMap fun x => c.submittedOne x.now x.call x.reply

theorem submissions_congr {c c' : Cache σ} (h : c'.settings = c.settings) (xs : List Submission) :
    c'.submissions xs = c.submissions xs := by
  simp only [submissions]
  simp only [submittedOne_congr h]

theorem settings_step_write (store : Store σ) (x : Submission) (c : Cache σ) :
    (c.step store x.now (.write .async x.call x.reply)).2.settings = c.settings :=
  step_settings store x.now _ c

/-- With a buffer: the store holds the blocks that the buffer makes of the writes, each in the order
of lifetimes. -/
theorem holds_run_flush (hk : store.Keeps Holds good takes) {last : Moment} (hlast : good last)
    (xs : List Submission) (hgood : ∀ x ∈ xs, good x.now) {c : Cache σ} {b : Buffer Pending}
    (hb : c.buffer = some b) {sh : Shelf} (hs : Holds c.contents sh)
    (ht : ∀ p ∈ b.items ++ c.submissions xs, takes p) :
    Holds (c.run store (xs.map Submission.operation ++ [(last, .flush)])).contents
      (sh.putAll ((Pending.blocks b.threshold b.items (c.submissions xs)).flatMap
        Pending.byLifetime)) := by
  induction xs generalizing c b sh with
  | nil =>
      have hflush := holds_flush hk hlast hs (by
        rw [held_eq hb]
        simpa [submissions] using ht)
      rw [held_eq hb] at hflush
      simpa [submissions, Pending.blocks, run] using hflush
  | cons x xs ih =>
      have hgood' := fun y hy => hgood y (List.mem_cons_of_mem _ hy)
      have hsettings := settings_step_write store x c
      have hsplit : c.submissions (x :: xs) =
          c.submittedOne x.now x.call x.reply ++ c.submissions xs := rfl
      rw [hsplit, ← List.append_assoc] at ht
      have hwaits : (Operation.write .async x.call x.reply).waits = true := rfl
      have hstep := holds_waiting hk (hgood x List.mem_cons_self) hwaits hb hs fun p hp =>
        ht p (List.mem_append_left _ hp)
      rw [hsplit, List.map_cons, List.cons_append, Submission.operation, run_cons]
      rcases hstep with ⟨hnone, hbuffer, hs'⟩ | ⟨p, hone, hstep⟩
      · have hnone' : c.submittedOne x.now x.call x.reply = [] := hnone
        rw [hnone', List.append_nil] at ht
        rw [hnone', List.nil_append, ← submissions_congr hsettings]
        apply ih hgood' hbuffer hs'
        rwa [submissions_congr hsettings]
      · have hone' : c.submittedOne x.now x.call x.reply = [p] := hone
        rw [hone'] at ht
        rw [hone', List.singleton_append, Pending.blocks, ← submissions_congr hsettings]
        split at hstep
        · rename_i hfull
          rw [if_pos hfull, List.flatMap_cons, Shelf.putAll_append]
          refine ih hgood' hstep.1 hstep.2 fun q hq => ht q (List.mem_append_right _ ?_)
          rwa [submissions_congr hsettings] at hq
        · rename_i hfull
          rw [if_neg hfull]
          apply ih hgood' hstep.1 hstep.2
          rwa [submissions_congr hsettings]

theorem holds_run_direct (hk : store.Keeps Holds good takes) (xs : List Submission)
    (hgood : ∀ x ∈ xs, good x.now) {c : Cache σ} (hb : c.buffer = none) {sh : Shelf}
    (hs : Holds c.contents sh) (ht : ∀ p ∈ c.submissions xs, takes p) :
    Holds (c.run store (xs.map Submission.operation)).contents (sh.putAll (c.submissions xs)) := by
  induction xs generalizing c sh with
  | nil => exact hs
  | cons x xs ih =>
      have hsettings := settings_step_write store x c
      have hsplit : c.submissions (x :: xs) =
          c.submittedOne x.now x.call x.reply ++ c.submissions xs := rfl
      rw [hsplit] at ht
      have hwrites : (Operation.write .async x.call x.reply).writesReplies = true := rfl
      obtain ⟨hs', hbuffer⟩ := holds_handed hk (hgood x List.mem_cons_self) hwrites (.inr hb) hs
        fun p hp => ht p (List.mem_append_left _ hp)
      rw [hsplit, Shelf.putAll_append, List.map_cons, Submission.operation, run_cons,
        ← submissions_congr hsettings]
      refine ih (fun y hy => hgood y (List.mem_cons_of_mem _ hy)) (hbuffer.trans hb) hs'
        fun p hp => ?_
      rw [submissions_congr hsettings] at hp
      exact ht p (List.mem_append_right _ hp)

/-- Replies that are written through a buffer and flushed, and the same replies written directly:
the contents agree at a key exactly where the last write of the key is not outlived by another one
in its block. -/
theorem flush_eq_direct_iff (hk : store.Keeps Holds good takes)
    (hbulk : store.capabilities.bulk = true) {settings : Settings} {n : Nat}
    (hn : settings.flushSize = some n) {s : σ} {sh : Shelf} (hs : Holds s sh) {c d : Cache σ}
    (hc : Cache.new store settings s = .ok c)
    (hd : Cache.new store { settings with flushSize := none } s = .ok d)
    {xs : List Submission} (hgood : ∀ x ∈ xs, good x.now) {last : Moment} (hlast : good last)
    (htakes : ∀ p ∈ c.submissions xs, takes p) :
    let flushed := sh.putAll
      ((Pending.blocks n [] (c.submissions xs)).flatMap Pending.byLifetime)
    let direct := sh.putAll (c.submissions xs)
    Holds (c.run store (xs.map Submission.operation ++ [(last, .flush)])).contents flushed ∧
      Holds (d.run store (xs.map Submission.operation)).contents direct ∧
      ∀ k, flushed k = direct k ↔ Pending.InOrder k (Pending.blocks n [] (c.submissions xs)) := by
  have hbuffer := buffer_of_new hc hbulk hn
  obtain ⟨-, hsettings, hcontents, -⟩ := new_eq_ok hc
  obtain ⟨-, hsettings', hcontents', hbuffer'⟩ := new_eq_ok hd
  refine ⟨?_, ?_, fun k => ?_⟩
  · apply holds_run_flush hk hlast xs hgood hbuffer (hcontents ▸ hs)
    rwa [List.nil_append]
  · have hsame : d.submissions xs = c.submissions xs := by
      unfold submissions submittedOne accepts pendingOf itemOf key scheme admits writeOptions
      rw [hsettings, hsettings']
      rfl
    rw [← hsame]
    refine holds_run_direct hk xs hgood ?_ (hcontents' ▸ hs) (hsame ▸ htakes)
    rw [hbuffer']
    split <;> rfl
  · rw [← Shelf.putAll_eq_iff sh, Pending.flatten_blocks, List.nil_append]

def twice : List Submission :=
  let call := Call.keyed "k"
  let hour := Json.object [(Directives.lifetimeName, Json.ofInt 3600)]
  [⟨⟨0, 0⟩, call.insert Call.directivesName hour, .string "old"⟩, ⟨⟨1, 1⟩, call, .string "new"⟩]

theorem flush_eq_direct_iff_twice :
    ∃ c d : Cache Memory,
      Cache.new Memory.store { flushSize := some 10 } (Memory.ofCapacity 10) = .ok c ∧
      Cache.new Memory.store {} (Memory.ofCapacity 10) = .ok d ∧
      let flushed := Shelf.putAll (fun _ => none)
        ((Pending.blocks 10 [] (c.submissions twice)).flatMap Pending.byLifetime)
      let direct := Shelf.putAll (fun _ => none) (c.submissions twice)
      Memory.Holds [⟨"k"⟩] none
          (c.run Memory.store (twice.map Submission.operation ++ [(⟨2, 2⟩, .flush)])).contents
          flushed ∧
        Memory.Holds [⟨"k"⟩] none (d.run Memory.store (twice.map Submission.operation)).contents
          direct ∧
        ∀ k, flushed k = direct k ↔
          Pending.InOrder k (Pending.blocks 10 [] (c.submissions twice)) := by
  have hsize : ({ flushSize := some 10 } : Settings).flushSize = some 10 := rfl
  refine ⟨_, _, rfl, rfl, flush_eq_direct_iff (Memory.keeps [⟨"k"⟩] none 10) rfl hsize
    (Memory.holds_ofCapacity (n := 10) (by decide) none) rfl rfl (by decide) (by decide) ?_⟩
  decide +kernel

example (c : Cache Memory)
    (h : Cache.new Memory.store { flushSize := some 10 } (Memory.ofCapacity 10) = .ok c) :
    ((c.run Memory.store (twice.map Submission.operation ++ [(⟨2, 2⟩, .flush)])).contents.find?
      ⟨"k"⟩).map Slot.record = some (Entry.toJson ⟨0, .string "old"⟩) := by
  obtain rfl := Except.ok.inj h
  decide +kernel

end Cache

end ReplyCache
