import ReplyCache.Proofs.Store.Memory

namespace ReplyCache

namespace Memory

structure Intact (n : Nat) (own : Option Span) (m : Memory) : Prop where
  usable : m.unusable = false
  capacity : m.capacity = n
  lifetime : m.lifetime = own

variable {n : Nat} {own : Option Span} {m : Memory} {now : Moment} {r : Request}

theorem intact_ofCapacity (n : Nat) (own : Option Span) : Intact (max n 1) own (ofCapacity n own) :=
  ⟨rfl, rfl, rfl⟩

theorem Intact.of_slots (h : Intact n own m) (slots : List (Key × Slot)) :
    Intact n own { m with slots := slots } := ⟨h.usable, h.capacity, h.lifetime⟩

theorem Intact.read (h : Intact n own m) (now : Moment) (k : Key) :
    Intact n own (m.read now k).2 := by
  simp only [Memory.read]
  split
  · exact h
  · split
    · exact h.of_slots _
    · exact h.of_slots _

theorem Intact.dropAll (h : Intact n own m) (ks : List Key) : Intact n own (m.dropAll ks).2 := by
  induction ks generalizing m with
  | nil => exact h
  | cons k ks ih => exact ih (h.of_slots (m.others k))

theorem slot?_eq_none (hown : m.lifetime = own) {p : Pending} (hp : ¬ Shows now.steady own p) :
    m.slot? now p.item.entry p.lifetime = none := by
  simp only [slot?]
  rw [hown]
  simp only [Shows] at hp
  cases hspan : p.lifetime.or own with
  | none =>
      rw [hspan] at hp
      exact (hp rfl).elim
  | some span =>
      rw [hspan] at hp
      have hlate : ¬ now.steady + span.nanoseconds < Moment.latest := by simpa using hp
      simp only [Moment.after?, if_neg hlate]
      rfl

theorem Intact.putAll (h : Intact n own m) {lifetime : Option Span} {items : List Item}
    (hshows : ∀ i ∈ items, Shows now.steady own ⟨i, lifetime⟩) :
    ∃ m', m.putAll now lifetime items = (some (), m') ∧ Intact n own m' := by
  induction items generalizing m with
  | nil => exact ⟨m, rfl, h⟩
  | cons i is ih =>
      obtain ⟨hi, his⟩ := List.forall_mem_cons.1 hshows
      obtain ⟨s, hs⟩ := slot_isSome h.lifetime (Nat.le_refl _) hi
      obtain ⟨m', hput, hm'⟩ := ih (h.of_slots _) his
      refine ⟨m', ?_, hm'⟩
      simp only [Memory.putAll]
      dsimp only at hs
      rw [hs]
      exact hput

theorem putAll_eq_none (hown : m.lifetime = own) {lifetime : Option Span} {items : List Item}
    (hlate : ∃ i ∈ items, ¬ Shows now.steady own ⟨i, lifetime⟩) :
    (m.putAll now lifetime items).1 = none := by
  induction items generalizing m with
  | nil =>
      obtain ⟨i, hi, -⟩ := hlate
      cases hi
  | cons i is ih =>
      simp only [Memory.putAll]
      cases hs : m.slot? now i.entry lifetime with
      | none => rfl
      | some s =>
          obtain ⟨j, hj, hshows⟩ := hlate
          rcases List.mem_cons.1 hj with rfl | hj
          · have hnone : m.slot? now j.entry lifetime = none := slot?_eq_none hown hshows
            rw [hs] at hnone
            cases hnone
          · exact ih hown ⟨j, hj, hshows⟩

theorem usable_eq {α : Type} (h : m.unusable = false) (f : Memory → Answered α × Memory) :
    m.usable f = f m := by
  rw [usable, h, if_neg Bool.false_ne_true]

/-- A memory that was never crashed answers what it offers, if the clock can show the end of all
records. -/
theorem Intact.serve (h : Intact n own m) (hoffers : store.capabilities.offers r = true)
    (hshows : ∀ p ∈ r.writes, Shows now.steady own p) :
    ∃ a m', Memory.serve now r m = (.ok a, m') ∧ Intact n own m' := by
  cases r with
  | read form k context =>
      refine ⟨(m.read now k).1, (m.read now k).2, ?_, h.read now k⟩
      simp only [Memory.serve, readNow, usable_eq h.usable]
  | write form i o =>
      have hi : Shows now.steady own ⟨i, o.lifetime⟩ := hshows _ List.mem_cons_self
      obtain ⟨s, hs⟩ := slot_isSome h.lifetime (Nat.le_refl _) hi
      refine ⟨(), m.put i.key s, ?_, h.of_slots _⟩
      dsimp only at hs
      simp only [Memory.serve, writeNow, hs]
      exact usable_eq h.usable _
  | writeAll means items o =>
      cases means with
      | pipeline => cases hoffers
      | batch =>
          obtain ⟨m', hput, hm'⟩ := h.putAll fun i hi => hshows _ (List.mem_map.2 ⟨i, hi, rfl⟩)
          refine ⟨(), m', ?_, hm'⟩
          simp only [Memory.serve, writeAllNow, usable_eq h.usable, hput]
  | delete ks =>
      refine ⟨(m.dropAll ks).1, (m.dropAll ks).2, ?_, h.dropAll ks⟩
      simp only [Memory.serve, deleteNow, usable_eq h.usable]
  | ping | close => exact ⟨_, _, rfl, h⟩

theorem Intact.crash (h : Intact n own m) (hoffers : store.capabilities.offers r = true)
    {p : Pending} (hp : p ∈ r.writes) (hlate : ¬ Shows now.steady own p) :
    ∃ m', Memory.serve now r m = (.error .crash, m') := by
  cases r with
  | read form k context | delete ks | ping | close => cases hp
  | write form i o =>
      obtain rfl := List.mem_singleton.1 hp
      have hnone : m.slot? now i.entry o.lifetime = none := slot?_eq_none h.lifetime hlate
      refine ⟨m, ?_⟩
      simp only [Memory.serve, writeNow, hnone]
      rfl
  | writeAll means items o =>
      cases means with
      | pipeline => cases hoffers
      | batch =>
          obtain ⟨i, hi, rfl⟩ := List.mem_map.1 hp
          have hnone := putAll_eq_none h.lifetime ⟨i, hi, hlate⟩
          simp only [Memory.serve, writeAllNow, usable_eq h.usable]
          cases hput : m.putAll now o.lifetime items with
          | mk done m' =>
              rw [hput] at hnone
              obtain rfl : done = none := hnone
              exact ⟨_, rfl⟩

/-- A crash within a batch leaves the memory unusable. -/
theorem Intact.unusable_writeAll (h : Intact n own m) {items : List Item} {o : WriteOptions}
    (hlate : ∃ i ∈ items, ¬ Shows now.steady own ⟨i, o.lifetime⟩) :
    (Memory.serve now (.writeAll .batch items o) m).2.unusable = true := by
  have hnone := putAll_eq_none h.lifetime hlate
  simp only [Memory.serve, writeAllNow, usable_eq h.usable]
  cases hput : m.putAll now o.lifetime items with
  | mk done m' =>
      rw [hput] at hnone
      obtain rfl : done = none := hnone
      rfl

theorem usable_of_unusable {α : Type} (h : m.unusable = true) (f : Memory → Answered α × Memory) :
    m.usable f = (Answered.fault poisoned, m) := by
  rw [usable, h, if_pos rfl]

theorem serve_of_unusable (h : m.unusable = true) (now : Moment) (r : Request) :
    (Memory.serve now r m).2 = m := by
  cases r with
  | read form k context => simp only [Memory.serve, readNow, usable_of_unusable h]
  | write form i o =>
      simp only [Memory.serve, writeNow]
      split
      · rfl
      · rw [usable_of_unusable h]
  | writeAll means items o =>
      cases means with
      | batch => simp only [Memory.serve, writeAllNow, usable_of_unusable h]
      | pipeline => rfl
  | delete ks => simp only [Memory.serve, deleteNow, usable_of_unusable h]
  | ping | close => rfl

theorem serveAll_of_unusable (h : m.unusable = true) (now : Moment) (rs : List Request) :
    (store.serveAll now rs m).2 = m := by
  induction rs with
  | nil => rfl
  | cons r rs ih =>
      have hserve : (store.serve now r m).2 = m := serve_of_unusable h now r
      simp only [Store.serveAll]
      cases hr : store.serve now r m with
      | mk answer m' =>
          rw [hr] at hserve
          obtain rfl : m' = m := hserve
          cases answer with
          | ok a => exact ih
          | error f =>
              cases f with
              | fault f => exact ih
              | crash => rfl

theorem Shows.of_le {horizon horizon' : Nat} (h : horizon' ≤ horizon) {p : Pending}
    (hp : Shows horizon own p) : Shows horizon' own p := by
  simp only [Shows] at hp ⊢
  cases hspan : p.lifetime.or own with
  | none => rfl
  | some span =>
      rw [hspan] at hp
      have hlt : horizon + span.nanoseconds < Moment.latest := of_decide_eq_true hp
      exact decide_eq_true (Nat.lt_of_le_of_lt (Nat.add_le_add_right h _) hlt)

theorem Intact.serveAll {rs : List Request} (h : Intact n own m)
    (hoffers : ∀ r ∈ rs, store.capabilities.offers r = true)
    (hshows : ∀ p ∈ rs.flatMap Request.writes, Shows now.steady own p) :
    (store.serveAll now rs m).1 = true ∧ Intact n own (store.serveAll now rs m).2 := by
  induction rs generalizing m with
  | nil => exact ⟨rfl, h⟩
  | cons r rs ih =>
      obtain ⟨hr, hrs⟩ := List.forall_mem_cons.1 hoffers
      rw [List.flatMap_cons] at hshows
      obtain ⟨hshow, hshows'⟩ := List.forall_mem_append.1 hshows
      obtain ⟨a, m', hserve, hm'⟩ := h.serve hr hshow
      have hserve' : store.serve now r m = (.ok a, m') := hserve
      rw [Store.serveAll, hserve']
      exact ih hm' hrs hshows'

theorem Intact.shows_of_serveAll {rs : List Request} (h : Intact n own m)
    (hoffers : ∀ r ∈ rs, store.capabilities.offers r = true)
    (hok : (store.serveAll now rs m).1 = true) :
    ∀ p ∈ rs.flatMap Request.writes, Shows now.steady own p := by
  induction rs generalizing m with
  | nil =>
      intro p hp
      cases hp
  | cons r rs ih =>
      obtain ⟨hr, hrs⟩ := List.forall_mem_cons.1 hoffers
      have hshow : ∀ p ∈ r.writes, Shows now.steady own p := by
        intro p hp
        by_contra hlate
        obtain ⟨m', hserve⟩ := h.crash hr hp hlate
        have hserve' : store.serve now r m = (.error .crash, m') := hserve
        rw [Store.serveAll, hserve'] at hok
        cases hok
      obtain ⟨a, m', hserve, hm'⟩ := h.serve hr hshow
      have hserve' : store.serve now r m = (.ok a, m') := hserve
      rw [Store.serveAll, hserve'] at hok
      rw [List.flatMap_cons]
      exact List.forall_mem_append.2 ⟨hshow, ih hm' hrs hok⟩

end Memory

end ReplyCache
