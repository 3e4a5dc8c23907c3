import Mathlib.Data.Fintype.EquivFin
import Mathlib.Data.List.Nodup
import ReplyCache.Proofs.Cache.Ledger
import ReplyCache.Store.Memory

namespace ReplyCache

/-- What is done with a buffer at once: a caller pushes its item, it drains the buffer as it was
told to, or the buffer is drained without that. -/
inductive Move (ι : Type u) (α : Type v) where
  | push (caller : ι) (item : α)
  | drain (caller : ι)
  | flush

namespace Move

variable {ι : Type u} {α : Type v}

def pushed? : Move ι α → Option (ι × α)
  | push i a => some (i, a)
  | drain _ | flush => none

end Move

structure Traffic (ι : Type u) (α : Type v) where
  buffer : Buffer α
  pushed : List (ι × α) := []
  /-- The callers that were told to drain the buffer and have not done so yet. -/
  due : List ι := []
  drained : List (List α) := []

namespace Traffic

variable {ι : Type u} {α : Type v} {β : Type w} {t t' : Traffic ι α} {n : Nat}

def ofBuffer (b : Buffer α) : Traffic ι α := { buffer := b }

def callers (t : Traffic ι α) : List ι := t.pushed.map Prod.fst

def push (t : Traffic ι α) (i : ι) (a : α) : Traffic ι α :=
  let b := t.buffer.push a
  { t with
    buffer := b, pushed := t.pushed ++ [(i, a)], due := if b.isFull then i :: t.due else t.due }

def drain (t : Traffic ι α) (due : List ι) : Traffic ι α :=
  { t with buffer := t.buffer.drain.2, due, drained := t.drained ++ [t.buffer.drain.1] }

/-- A caller pushes one item and drains the buffer only if it is told to. -/
def move? [DecidableEq ι] (t : Traffic ι α) : Move ι α → Option (Traffic ι α)
  | .push i a => if i ∈ t.callers then none else some (t.push i a)
  | .drain i => if i ∈ t.due then some (t.drain (t.due.erase i)) else none
  | .flush => some (t.drain t.due)

def run? [DecidableEq ι] (ms : List (Move ι α)) (t : Traffic ι α) : Option (Traffic ι α) :=
  ms.foldlM move? t

/-- The parts are what the drains gave and the rest is what is held back, with the callers. -/
structure Parted (t : Traffic ι α) (parts : List (List (ι × α))) (rest : List (ι × α)) :
    Prop where
  drained : t.drained = parts.map (List.map Prod.snd)
  items : t.buffer.items = rest.map Prod.snd
  pushed : parts.flatten ++ rest = t.pushed

/-- As many items as make the buffer full are there only if a drain is outstanding, and for each
item more there is another one. -/
structure Orderly (n : Nat) (t : Traffic ι α) : Prop where
  pos : 0 < n
  threshold : t.buffer.threshold = n
  size_lt : t.buffer.size < n + t.due.length
  nodup : t.callers.Nodup
  due : ∀ i ∈ t.due, i ∈ t.callers
  parted : ∃ parts rest, t.Parted parts rest

theorem orderly_ofBuffer (hn : 0 < n) : (ofBuffer ⟨n, []⟩ : Traffic ι α).Orderly n where
  pos := hn
  threshold := rfl
  size_lt := hn
  nodup := List.nodup_nil
  due := fun _ hi => (List.not_mem_nil hi).elim
  parted := ⟨[], [], rfl, rfl, rfl⟩

theorem Orderly.push (h : t.Orderly n) {i : ι} (hi : i ∉ t.callers) (a : α) :
    (t.push i a).Orderly n where
  pos := h.pos
  threshold := h.threshold
  size_lt := by
    have hsize : (t.push i a).buffer.size = t.buffer.size + 1 := List.length_append
    have hlt := h.size_lt
    rw [hsize]
    by_cases hfull : (t.buffer.push a).isFull = true
    · -- one item more, and one drain more
      rw [Traffic.push, if_pos hfull, List.length_cons]
      omega
    · have hroom : ¬ n ≤ t.buffer.size + 1 := by
        intro hle
        rw [← h.threshold, ← hsize] at hle
        exact hfull (decide_eq_true hle)
      omega
  nodup := by
    rw [callers, Traffic.push, List.map_append]
    exact List.nodup_append.2 ⟨h.nodup, List.nodup_singleton i, by
      intro j hj k hk
      obtain rfl := List.mem_singleton.1 hk
      rintro rfl
      exact hi hj⟩
  due := by
    intro j hj
    rw [callers, Traffic.push, List.map_append, List.mem_append]
    simp only [Traffic.push] at hj
    split at hj
    · rcases List.mem_cons.1 hj with rfl | hj
      · exact .inr (List.mem_singleton.2 rfl)
      · exact .inl (h.due j hj)
    · exact .inl (h.due j hj)
  parted := by
    obtain ⟨parts, rest, hdrained, hitems, hpushed⟩ := h.parted
    refine ⟨parts, rest ++ [(i, a)], hdrained, ?_, ?_⟩
    · rw [List.map_append, ← hitems]
      rfl
    · rw [← List.append_assoc, hpushed]
      rfl

theorem Orderly.drain (h : t.Orderly n) {due : List ι} (hdue : ∀ i ∈ due, i ∈ t.due) :
    (t.drain due).Orderly n where
  pos := h.pos
  threshold := h.threshold
  size_lt := Nat.add_pos_left h.pos _
  nodup := h.nodup
  due := fun i hi => h.due i (hdue i hi)
  parted := by
    obtain ⟨parts, rest, hdrained, hitems, hpushed⟩ := h.parted
    refine ⟨parts ++ [rest], [], ?_, rfl, ?_⟩
    · rw [List.map_append, ← hdrained, List.map_singleton, ← hitems]
      rfl
    · rw [List.append_nil, List.flatten_append, List.flatten_singleton]
      exact hpushed

variable [DecidableEq ι]

theorem move?_cases {m : Move ι α} (h : t.move? m = some t') :
    (∃ i a, m = .push i a ∧ i ∉ t.callers ∧ t' = t.push i a) ∨
      m.pushed? = none ∧ ∃ due, (∀ i ∈ due, i ∈ t.due) ∧ t' = t.drain due := by
  cases m with
  | push i a =>
      simp only [move?] at h
      split at h
      · cases h
      · exact .inl ⟨i, a, rfl, ‹_›, (Option.some.inj h).symm⟩
  | drain i =>
      simp only [move?] at h
      split at h
      · exact .inr ⟨rfl, _, fun j hj => List.mem_of_mem_erase hj, (Option.some.inj h).symm⟩
      · cases h
  | flush => exact .inr ⟨rfl, _, fun i hi => hi, (Option.some.inj h).symm⟩

theorem Orderly.move? (h : t.Orderly n) {m : Move ι α} (hm : t.move? m = some t') :
    t'.Orderly n := by
  rcases move?_cases hm with ⟨i, a, -, hi, rfl⟩ | ⟨-, due, hdue, rfl⟩
  · exact h.push hi a
  · exact h.drain hdue

theorem run?_cons {m : Move ι α} {ms : List (Move ι α)} :
    t.run? (m :: ms) = some t' ↔ ∃ u, t.move? m = some u ∧ u.run? ms = some t' := by
  rw [run?, List.foldlM_cons]
  exact Option.bind_eq_some_iff

theorem Orderly.run? (h : t.Orderly n) {ms : List (Move ι α)} (hms : t.run? ms = some t') :
    t'.Orderly n := by
  induction ms generalizing t with
  | nil =>
      obtain rfl := Option.some.inj hms
      exact h
  | cons m ms ih =>
      obtain ⟨u, hm, hrest⟩ := run?_cons.1 hms
      exact ih (h.move? hm) hrest

theorem pushed_run? {ms : List (Move ι α)} (hms : t.run? ms = some t') :
    t'.pushed = t.pushed ++ ms.filterMap Move.pushed? := by
  induction ms generalizing t with
  | nil =>
      obtain rfl := Option.some.inj hms
      exact (List.append_nil _).symm
  | cons m ms ih =>
      obtain ⟨u, hm, hrest⟩ := run?_cons.1 hms
      rw [ih hrest]
      rcases move?_cases hm with ⟨i, a, rfl, -, rfl⟩ | ⟨hnone, due, -, rfl⟩
      · exact List.append_assoc _ _ _
      · rw [List.filterMap_cons_none hnone]
        rfl

theorem run?_append (ms ms' : List (Move ι α)) (t : Traffic ι α) :
    t.run? (ms ++ ms') = (t.run? ms).bind fun u => u.run? ms' := List.foldlM_append

theorem existsUnique_part {parts : List (List β)} (h : parts.flatten.Nodup) {x : β}
    (hx : x ∈ parts.flatten) : ∃! k : Nat, ∃ part, parts[k]? = some part ∧ x ∈ part := by
  obtain ⟨-, hdisjoint⟩ := List.nodup_flatten.1 h
  have hsame : ∀ (j k : Nat) (part part' : List β), parts[j]? = some part →
      parts[k]? = some part' → x ∈ part → x ∈ part' → ¬ j < k := by
    intro j k part part' hj hk hxj hxk hlt
    obtain ⟨hj', rfl⟩ := List.getElem?_eq_some_iff.1 hj
    obtain ⟨hk', rfl⟩ := List.getElem?_eq_some_iff.1 hk
    exact List.pairwise_iff_getElem.1 hdisjoint j k hj' hk' hlt hxj hxk
  obtain ⟨part, hpart, hxpart⟩ := List.mem_flatten.1 hx
  obtain ⟨k, hk⟩ := List.mem_iff_getElem?.1 hpart
  refine ⟨k, ⟨part, hk, hxpart⟩, ?_⟩
  rintro j ⟨part', hj, hxpart'⟩
  have hjk := hsame j k part' part hj hk hxpart' hxpart
  have hkj := hsame k j part part' hk hj hxpart hxpart'
  omega

/-- However callers interleave their moves, each write that was pushed is in what one of the drains
gave or is held back, but not in two of these; put together in the order of the drains they are the
writes in the order of the pushes; and if all callers have come to an end the buffer is not full. -/
theorem writes_accounted_for {σ : Type} {store : Store σ} {settings : Settings} {s : σ}
    {c : Cache σ} {b : Buffer Pending} {n : Nat} (hc : Cache.new store settings s = .ok c)
    (hb : c.buffer = some b) (hn : settings.flushSize = some n) (ms : List (Move ι Pending))
    {t : Traffic ι Pending} (hms : (ofBuffer b).run? ms = some t) :
    t.pushed = ms.filterMap Move.pushed? ∧
      (∃ parts rest, t.Parted parts rest ∧
        ∀ e ∈ t.pushed, ∃! k : Nat, ∃ part, (parts ++ [rest])[k]? = some part ∧ e ∈ part) ∧
      t.drained.flatten ++ t.buffer.items = t.pushed.map Prod.snd ∧
      ((∀ i ∈ t.callers, i ∉ t.due) → t.buffer.size < n) := by
  have hempty : b = ⟨n, []⟩ := by
    cases hbulk : store.capabilities.bulk with
    | true => exact Option.some.inj (hb.symm.trans (Cache.buffer_of_new hc hbulk hn))
    | false => cases hb.symm.trans (Cache.buffer_of_new_eq_none hc (.inr hbulk))
  subst hempty
  have horderly := (orderly_ofBuffer (Cache.flushSize_pos hc hn)).run? hms
  obtain ⟨parts, rest, hparted⟩ := horderly.parted
  have hflatten : (parts ++ [rest]).flatten = t.pushed := by
    rw [List.flatten_append, List.flatten_singleton, hparted.pushed]
  refine ⟨pushed_run? hms, ⟨parts, rest, hparted, ?_⟩, ?_, ?_⟩
  · intro e he
    rw [← hflatten] at he
    apply existsUnique_part _ he
    rw [hflatten]
    exact List.Nodup.of_map Prod.fst horderly.nodup
  · rw [hparted.drained, hparted.items, ← hparted.pushed, List.map_append, List.map_flatten]
  · intro hdone
    have hnone : t.due = [] :=
      List.eq_nil_iff_forall_not_mem.2 fun i hi => hdone i (horderly.due i hi) hi
    have hlt := horderly.size_lt
    rw [hnone] at hlt
    exact hlt

def racing : List (Move Nat Pending) :=
  let write (k : String) : Pending := ⟨⟨⟨k⟩, ⟨0, .null⟩⟩, none⟩
  [.push 0 (write "a"), .push 1 (write "b"), .push 2 (write "c"), .drain 2, .push 3 (write "d"),
    .drain 1, .push 4 (write "e")]

theorem writes_accounted_for_racing : ∃ (c : Cache Memory) (t : Traffic Nat Pending),
    Cache.new Memory.store { flushSize := some 2 } (Memory.ofCapacity 10) = .ok c ∧
      c.buffer = some (Buffer.ofThreshold 2) ∧
      (ofBuffer (Buffer.ofThreshold 2)).run? racing = some t ∧
      t.drained.map List.length = [3, 1] ∧
      t.drained.flatten ++ t.buffer.items = t.pushed.map Prod.snd ∧
      (∀ i ∈ t.callers, i ∉ t.due) ∧ t.buffer.size < 2 := by
  refine ⟨_, _, rfl, rfl, rfl, rfl, ?_⟩
  have hnew : Cache.new Memory.store { flushSize := some 2 } (Memory.ofCapacity 10) = .ok _ := rfl
  obtain ⟨-, -, hinorder, hroom⟩ := writes_accounted_for hnew rfl rfl racing rfl
  have hdone : ∀ i ∈ [0, 1, 2, 3, 4], i ∉ ([] : List Nat) := fun _ _ => List.not_mem_nil
  exact ⟨hinorder, hdone, hroom hdone⟩

variable {σ : Type} {c : Cache σ} {t : Traffic ι Pending}

/-- An operation of the cache moves its buffer as one caller does that nobody interrupts. -/
theorem exists_moves_of_step [Infinite ι] (hb : c.buffer = some t.buffer) (store : Store σ)
    (now : Moment) (o : Operation) : ∃ ms t', t.run? ms = some t' ∧
      (c.step store now o).2.buffer = some t'.buffer ∧ t'.due = t.due := by
  rw [Cache.step_buffer]
  rcases Cache.requests_cases store now o c with
    hands | ⟨b, p, hb', -, hasked⟩ | ⟨-, last, -, hasked⟩ | ⟨-, -, rs, hasked, -⟩
  · exact ⟨[], t, rfl, hands.buffer.trans hb, rfl⟩
  · obtain rfl := Option.some.inj (hb.symm.trans hb')
    obtain ⟨i, hi⟩ := Infinite.exists_notMem_finset t.callers.toFinset
    rw [List.mem_toFinset] at hi
    have hpush : t.move? (.push i p) = some (t.push i p) := if_neg hi
    rw [hasked, Store.holding]
    by_cases hfull : (t.buffer.push p).isFull = true
    · have hdue : (t.push i p).due = i :: t.due := if_pos hfull
      have hdrain : (t.push i p).move? (.drain i) = some ((t.push i p).drain t.due) := by
        rw [move?, hdue, if_pos List.mem_cons_self, List.erase_cons_head]
      refine ⟨[.push i p, .drain i], (t.push i p).drain t.due, ?_, ?_, rfl⟩
      · exact run?_cons.2 ⟨_, hpush, run?_cons.2 ⟨_, hdrain, rfl⟩⟩
      · rw [if_pos hfull]
        rfl
    · refine ⟨[.push i p], _, run?_cons.2 ⟨_, hpush, rfl⟩, ?_, if_neg hfull⟩
      rw [if_neg hfull]
      rfl
  · refine ⟨[.flush], t.drain t.due, rfl, ?_, rfl⟩
    rw [hasked]
    exact congrArg (Option.map fun b => b.drain.2) hb
  · refine ⟨[], t, rfl, ?_, rfl⟩
    rw [hasked]
    exact hb

theorem exists_moves_of_run [Infinite ι] (hb : c.buffer = some t.buffer) (store : Store σ)
    (os : List (Moment × Operation)) : ∃ ms t', t.run? ms = some t' ∧
      (c.run store os).buffer = some t'.buffer ∧ t'.due = t.due := by
  induction os generalizing c t with
  | nil => exact ⟨[], t, rfl, hb, rfl⟩
  | cons x os ih =>
      obtain ⟨ms, u, hms, hbuffer, hdue⟩ := exists_moves_of_step hb store x.1 x.2
      obtain ⟨ms', t', hms', hbuffer', hdue'⟩ := ih hbuffer
      refine ⟨ms ++ ms', t', ?_, hbuffer', hdue'.trans hdue⟩
      rw [run?_append, hms]
      exact hms'

end Traffic

end ReplyCache
