import ReplyCache.Proofs.Cache.Ledger
import ReplyCache.Proofs.Cache.Reads
import ReplyCache.Proofs.Store.Recall

namespace ReplyCache

def Operation.erased : Operation → List Key
  | .delete keys => keys
  | .read .. | .write .. | .writeBatch .. | .flush | .ping | .disconnect | .setSpace _
  | .setLifetime _ => []

theorem Operation.erased_eq_nil {o : Operation} (h : o.writesReplies = true) : o.erased = [] := by
  cases o with
  | delete keys => cases h
  | read | write | writeBatch | flush | ping | disconnect | setSpace | setLifetime => rfl

namespace Cache

section Standing

variable {σ : Type} {store : Store σ} {c : Cache σ} {now : Moment} {o : Operation} {sh : Shelf}

def revised (c : Cache σ) (now : Moment) (o : Operation) (sh : Shelf) : Shelf :=
  (sh.putAll (c.submitted now o)).without o.erased

def standing (store : Store σ) : Cache σ → Shelf → List (Moment × Operation) → Shelf
  | _, sh, [] => sh
  | c, sh, (now, o) :: os => standing store (c.step store now o).2 (c.revised now o sh) os

theorem revised_of_writes (h : o.writesReplies = true) (c : Cache σ) (now : Moment) (sh : Shelf) :
    c.revised now o sh = sh.putAll (c.submitted now o) := by
  rw [revised, Operation.erased_eq_nil h, Shelf.without_nil]

theorem revised_of_quiet (h : o.writesReplies = false) (c : Cache σ) (now : Moment) (sh : Shelf) :
    c.revised now o sh = sh.without o.erased := by
  rw [revised, submitted_eq_nil h]
  rfl

theorem revised_eq_some {k : Key} {w : Pending} :
    c.revised now o sh k = some w ↔ Pending.lastOf k (c.submitted now o) = some w ∨
      (Pending.lastOf k (c.submitted now o) = none ∧ k ∉ o.erased) ∧ sh k = some w := by
  cases ho : o.writesReplies with
  | true =>
      rw [revised_of_writes ho, Shelf.putAll_apply, Option.or_eq_some_iff,
        Operation.erased_eq_nil ho]
      simp
  | false =>
      rw [revised_of_quiet ho, submitted_eq_nil ho, Shelf.without]
      by_cases hk : k ∈ o.erased <;> simp [hk, Pending.lastOf]

theorem standing_eq_some_iff {os : List (Moment × Operation)} {k : Key} {w : Pending} :
    c.standing store sh os k = some w ↔
      (∃ os₁ now o os₂, os = os₁ ++ (now, o) :: os₂ ∧
        Pending.lastOf k ((c.run store os₁).submitted now o) = some w ∧
        Along store (fun c now o => Pending.lastOf k (c.submitted now o) = none ∧ k ∉ o.erased)
          (c.run store (os₁ ++ [(now, o)])) os₂) ∨
      Along store (fun c now o => Pending.lastOf k (c.submitted now o) = none ∧ k ∉ o.erased) c os ∧
        sh k = some w := by
  induction os generalizing c sh with
  | nil => simp [standing, along_nil]
  | cons x os ih =>
      obtain ⟨now, o⟩ := x
      rw [standing, ih, revised_eq_some, along_cons]
      constructor
      · rintro (⟨os₁, now', o', os₂, rfl, hlast, hsince⟩ | ⟨hsince, hlast | ⟨hspared, hsh⟩⟩)
        · exact .inl ⟨(now, o) :: os₁, now', o', os₂, rfl, hlast, hsince⟩
        · exact .inl ⟨[], now, o, os, rfl, hlast, hsince⟩
        · exact .inr ⟨⟨hspared, hsince⟩, hsh⟩
      · rintro (⟨os₁, now', o', os₂, heq, hlast, hsince⟩ | ⟨⟨hspared, hsince⟩, hsh⟩)
        · cases os₁ with
          | nil =>
              obtain ⟨hx, rfl⟩ := List.cons.inj heq
              obtain ⟨rfl, rfl⟩ := Prod.mk.inj hx
              exact .inr ⟨hsince, .inl hlast⟩
          | cons x os₁ =>
              obtain ⟨rfl, rfl⟩ := List.cons.inj heq
              exact .inl ⟨os₁, now', o', os₂, rfl, hlast, hsince⟩
        · exact .inr ⟨hsince, .inr ⟨hspared, hsh⟩⟩

theorem standing_within {ks : List Key} {os os₁ : List (Moment × Operation)}
    (hsh : ∀ k, sh k ≠ none → k ∈ ks)
    (hks : Along store (fun c now o => ∀ p ∈ c.submitted now o, p.item.key ∈ ks) c os)
    (hpre : os₁ <+: os) : (c.standing store sh os₁).Within ks.length := by
  refine ⟨ks, Nat.le_refl _, ?_⟩
  induction os₁ generalizing c sh os with
  | nil => exact hsh
  | cons x os₁ ih =>
      obtain ⟨os, rfl⟩ := hpre
      obtain ⟨now, o⟩ := x
      obtain ⟨hfirst, hrest⟩ := along_cons.1 hks
      refine ih ?_ hrest (List.prefix_append os₁ os)
      intro k hk
      obtain ⟨w, hw⟩ := Option.ne_none_iff_exists'.1 hk
      rcases revised_eq_some.1 hw with hlast | ⟨-, hw⟩
      · obtain ⟨hmem, rfl⟩ := Pending.key_of_lastOf hlast
        exact hfirst w hmem
      · exact hsh k (by rw [hw]; exact Option.some_ne_none w)

theorem timestamp_of_submitted {p : Pending} (h : p ∈ c.submitted now o) :
    p.item.entry.timestamp = now.wall := by
  have hone : ∀ {call reply}, p ∈ c.submittedOne now call reply →
      p.item.entry.timestamp = now.wall := by
    intro call reply h
    simp only [submittedOne] at h
    split at h
    · obtain rfl := List.mem_singleton.1 h
      rfl
    · cases h
  cases o with
  | write form call reply => exact hone h
  | writeBatch form call replies =>
      simp only [submitted, submittedBatch] at h
      split at h
      · split at h
        · exact hone h
        · split at h
          · cases h
          · obtain ⟨i, hi, rfl⟩ := List.mem_map.1 h
            obtain ⟨e, -, rfl⟩ := List.mem_map.1 hi
            rfl
      · cases h
  | read | flush | ping | delete | disconnect | setSpace | setLifetime => cases h

end Standing

variable {n : Nat} {c : Cache Memory} {sh : Shelf}

/-- Nothing is held back, and the memory has what stands. -/
structure Stands (n : Nat) (c : Cache Memory) (sh : Shelf) : Prop where
  buffer : c.buffer = none
  intact : c.contents.Intact n none
  lasts : ∃ ks, Memory.Lasts ks c.contents sh
  finite : sh.All fun p => p.item.entry.timestamp.isFinite = true

variable {now : Moment} {o : Operation}

theorem Stands.intact_step (h : Stands n c sh)
    (huntimed : ∀ p ∈ c.submitted now o, p.lifetime = none) :
    (c.step Memory.store now o).2.contents.Intact n none := by
  rw [step_contents]
  refine (h.intact.serveAll (offers_requests Memory.store now o c) fun p hp => ?_).2
  rcases mem_writes_requests Memory.store now o c hp with hp | hp
  · exact Memory.shows_untimed (huntimed p hp)
  · rw [held_of_none h.buffer] at hp
    cases hp

theorem Stands.lasts_writes (h : Stands n c sh) (ho : o.writesReplies = true)
    (huntimed : ∀ p ∈ c.submitted now o, p.lifetime = none)
    (hroom : (sh.putAll (c.submitted now o)).Within n) :
    ∃ ks, Memory.Lasts ks (c.step Memory.store now o).2.contents
      (sh.putAll (c.submitted now o)) := by
  obtain ⟨ks, hlen, hcover⟩ := hroom
  obtain ⟨ks', hlasts⟩ := h.lasts
  refine ⟨ks, (holds_handed (Memory.keeps_untimed ks) trivial ho (.inr h.buffer) ?_ ?_).1⟩
  · refine ⟨hlasts.holds.cover (h.intact.capacity ▸ hlen) fun k hk => hcover k ?_, hlasts.untimed⟩
    intro hnone
    exact hk (Shelf.putAll_eq_none.1 hnone).2
  · intro p hp
    refine ⟨hcover _ fun hnone => ?_, huntimed p hp⟩
    exact (Shelf.putAll_eq_none.1 hnone).1 p hp rfl

theorem Stands.lasts_quiet (h : Stands n c sh) (now : Moment) (ho : o.writesReplies = false) :
    ∃ ks, Memory.Lasts ks (c.step Memory.store now o).2.contents (sh.without o.erased) := by
  obtain ⟨ks, hlasts⟩ := h.lasts
  refine ⟨ks, ?_⟩
  have hquiet : (c.flushing Memory.store).1 = [] := by
    rw [flushing, held_of_none h.buffer]
    rfl
  rw [step_contents]
  cases o with
  | write | writeBatch => cases ho
  | read form call =>
      rw [Operation.erased, Shelf.without_nil]
      simp only [requests]
      split
      · obtain ⟨m, hserve, hm⟩ := Memory.recalls ks hlasts
        rw [Store.serveAll, hserve]
        exact hm
      · exact hlasts
  | delete keys =>
      obtain ⟨count, m, hserve, hm⟩ := hlasts.delete now keys
      change Memory.Lasts ks (Memory.store.serveAll now [.delete keys] c.contents).2 _
      rw [Store.serveAll, hserve]
      exact hm
  | flush =>
      rw [Operation.erased, Shelf.without_nil, requests, hquiet]
      exact hlasts
  | disconnect =>
      rw [Operation.erased, Shelf.without_nil, requests, hquiet]
      exact hlasts
  | ping | setSpace | setLifetime =>
      rw [Operation.erased, Shelf.without_nil]
      exact hlasts

theorem Stands.step (h : Stands n c sh) (hnow : now.wall.isFinite = true)
    (huntimed : ∀ p ∈ c.submitted now o, p.lifetime = none)
    (hroom : (c.revised now o sh).Within n) :
    Stands n (c.step Memory.store now o).2 (c.revised now o sh) := by
  refine ⟨buffer_step_of_none _ now o h.buffer, h.intact_step huntimed, ?_, ?_⟩
  · cases ho : o.writesReplies with
    | true =>
        rw [revised_of_writes ho] at hroom ⊢
        exact h.lasts_writes ho huntimed hroom
    | false =>
        rw [revised_of_quiet ho]
        exact h.lasts_quiet now ho
  · refine (h.finite.putAll fun p hp => ?_).without o.erased
    rw [timestamp_of_submitted hp]
    exact hnow

theorem Stands.run (h : Stands n c sh) {os : List (Moment × Operation)}
    (htimes : ∀ x ∈ os, x.1.wall.isFinite = true)
    (huntimed : Along Memory.store (fun c now o => ∀ p ∈ c.submitted now o, p.lifetime = none) c os)
    (hroom : ∀ os₁, os₁ <+: os → (c.standing Memory.store sh os₁).Within n) :
    Stands n (c.run Memory.store os) (c.standing Memory.store sh os) := by
  induction os generalizing c sh with
  | nil => exact h
  | cons x os ih =>
      obtain ⟨now, o⟩ := x
      obtain ⟨hnow, htimes'⟩ := List.forall_mem_cons.1 htimes
      obtain ⟨hfirst, hrest⟩ := along_cons.1 huntimed
      have hstep : Stands n (c.step Memory.store now o).2 (c.revised now o sh) :=
        h.step hnow hfirst (hroom [(now, o)] ⟨os, rfl⟩)
      refine ih hstep htimes' hrest fun os₁ hpre => ?_
      exact hroom ((now, o) :: os₁) (List.cons_prefix_cons.2 ⟨rfl, hpre⟩)

theorem stands_of_new {settings : Settings}
    (hc : Cache.new Memory.store settings (Memory.ofCapacity n) = .ok c)
    (hflush : settings.flushSize = none) : Stands (max n 1) c fun _ => none := by
  obtain ⟨-, -, hcontents, hbuffer⟩ := new_eq_ok hc
  refine ⟨?_, ?_, ⟨[], ?_, Shelf.all_empty _⟩, Shelf.all_empty _⟩
  · rw [hbuffer, hflush]
    split <;> rfl
  · rw [hcontents]
    exact Memory.intact_ofCapacity n none
  · rw [hcontents]
    exact Memory.holds_ofCapacity (Nat.zero_le n) none

/-- Without a buffer, without lifetimes and with room for all that stands, a read hits exactly with
what stands under its key, unless that is `null`. It misses if nothing stands there. The wall clock
shows a number at all times. -/
theorem read_standing {settings : Settings}
    (hc : Cache.new Memory.store settings (Memory.ofCapacity n) = .ok c)
    (hflush : settings.flushSize = none) {os : List (Moment × Operation)}
    (htimes : ∀ x ∈ os, x.1.wall.isFinite = true)
    (huntimed : Along Memory.store (fun c now o => ∀ p ∈ c.submitted now o, p.lifetime = none) c os)
    (hroom : ∀ os₁, os₁ <+: os →
      (c.standing Memory.store (fun _ => none) os₁).Within (max n 1))
    (now : Moment) (form : Form) {call : Call}
    (hadmits : (c.run Memory.store os).admits call = true)
    (hage : call.directives.maxAge = none) :
    let before := c.run Memory.store os
    let read := before.step Memory.store now (.read form call)
    let stands := c.standing Memory.store (fun _ => none) os (before.key call)
    (∀ r, read.1 = .ok (.hit r) ↔ ∃ w, stands = some w ∧ w.item.entry.reply = r ∧ r ≠ .null) ∧
      (stands = none → read.1 = .ok .miss ∧
        read.2.events = before.events ++ [.miss (before.key call).text]) ∧
      ∀ w, stands = some w → w.item.entry.reply = .null → read.1 = .ok .miss ∧
        ∃ f : Fault, f.kind = "decode" ∧
          read.2.events = before.events ++ [.readFailed (before.key call).text f] := by
  have hstands := (stands_of_new hc hflush).run htimes huntimed hroom
  obtain ⟨ks, hlasts⟩ := hstands.lasts
  intro before read stands
  cases hw : stands with
  | none =>
      have hmiss := read_nothing (Memory.recalls ks) hlasts now form hadmits hw
      have hanswer : read.1 = .ok .miss := hmiss.1
      refine ⟨fun r => ?_, fun _ => hmiss, fun w h => by cases h⟩
      rw [hanswer]
      simp
  | some w =>
      have hfinite := hstands.finite _ w hw
      refine ⟨fun r => ?_, fun h => (by cases h), fun v hv hnull => ?_⟩
      · rw [hit_iff_reply (Memory.recalls ks) hlasts now form hadmits hage hw hfinite r]
        simp
      · obtain rfl := Option.some.inj hv
        have hread := read_write (Memory.recalls ks) hlasts now form hadmits hage hw hfinite
        rw [hnull] at hread
        exact ⟨hread.1, Freshness.noReply, rfl, hread.2⟩

def replaced : List (Moment × Operation) :=
  let listed := Call.asking (.array [.string "a", .string "b"])
  [(⟨0, 0⟩, .write .async (Call.keyed "k") (.string "old")),
    (⟨1, 1⟩, .write .blocking (Call.keyed "j") (.string "gone")),
    (⟨2, 2⟩, .setSpace (some "n")),
    (⟨3, 3⟩, .writeBatch .async listed [.string "reply", .null]),
    (⟨4, 4⟩, .delete [⟨"j"⟩]),
    (⟨5, 5⟩, .write .blocking (Call.keyed "k") (.string "[1, 2]"))]

def replacedKeys : List Key :=
  let scheme : Scheme := { space := some "n" }
  [⟨"k"⟩, ⟨"j"⟩, scheme.key (Call.asking (.string "a")), scheme.key (Call.asking (.string "b"))]

theorem read_standing_replaced :
    ∃ c : Cache Memory, Cache.new Memory.store {} (Memory.ofCapacity 4) = .ok c ∧
      let before := c.run Memory.store replaced
      let read := fun call => (before.step Memory.store ⟨6, 6⟩ (.read .async call)).1
      read (Call.keyed "k") = .ok (.hit (.string "[1, 2]")) ∧
        read (Call.keyed "j") = .ok .miss ∧
        read (Call.asking (.string "a")) = .ok (.hit (.string "reply")) ∧
        read (Call.asking (.string "b")) = .ok .miss := by
  let c : Cache Memory := { settings := {}, contents := Memory.ofCapacity 4, buffer := none }
  have hkeys : Along Memory.store
      (fun c now o => ∀ p ∈ c.submitted now o, p.item.key ∈ replacedKeys) c replaced := by
    decide +kernel
  have hread := @read_standing 4 c {} rfl rfl replaced (by decide +kernel) (by decide +kernel)
    (fun os₁ hpre => standing_within (fun k hk => absurd rfl hk) hkeys hpre) ⟨6, 6⟩ .async
  refine ⟨c, rfl, ?_, ?_, ?_, ?_⟩
  · exact ((hread (by decide +kernel) (by decide +kernel)).1 _).2
      ⟨⟨⟨⟨"k"⟩, ⟨5, .string "[1, 2]"⟩⟩, none⟩, by decide +kernel, rfl, Json.noConfusion⟩
  · exact ((hread (by decide +kernel) (by decide +kernel)).2.1 (by decide +kernel)).1
  · exact ((hread (by decide +kernel) (by decide +kernel)).1 _).2
      ⟨⟨⟨replacedKeys[2], ⟨3, .string "reply"⟩⟩, none⟩, by decide +kernel, rfl, Json.noConfusion⟩
  · exact ((hread (by decide +kernel) (by decide +kernel)).2.2
      ⟨⟨replacedKeys[3], ⟨3, .null⟩⟩, none⟩ (by decide +kernel) rfl).1

end Cache

end ReplyCache
