import Mathlib.Data.List.Perm.Subperm
import ReplyCache.Proofs.Store.Shelf
import ReplyCache.Store.Memory

namespace ReplyCache

namespace Memory

def keys (m : Memory) : List Key := m.slots.map (·.1)

/-- A record with this lifetime expires at a time that the clock can show, if it is written up to
the time `horizon`. -/
def Shows (horizon : Nat) (own : Option Span) (p : Pending) : Prop :=
  ((p.lifetime.or own).all fun span => decide (horizon + span.nanoseconds < Moment.latest)) = true

instance (horizon : Nat) (own : Option Span) (p : Pending) : Decidable (Shows horizon own p) :=
  inferInstanceAs (Decidable (_ = true))

/-- The memory has the writes of a shelf, and room for all of the keys `ks`. -/
structure Holds (ks : List Key) (own : Option Span) (m : Memory) (sh : Shelf) : Prop where
  usable : m.unusable = false
  lifetime : m.lifetime = own
  room : ks.length ≤ m.capacity
  nodup : m.keys.Nodup
  mem : ∀ k ∈ m.keys, k ∈ ks
  find_none : ∀ k, sh k = none → m.find? k = none
  find_some : ∀ k p, sh k = some p →
    ∃ now s, m.slot? now p.item.entry p.lifetime = some s ∧ m.find? k = some s

theorem slot_isSome {m : Memory} {own : Option Span} (hown : m.lifetime = own) {horizon : Nat}
    {now : Moment} (hnow : now.steady ≤ horizon) {p : Pending} (hp : Shows horizon own p) :
    ∃ s, m.slot? now p.item.entry p.lifetime = some s := by
  simp only [slot?]
  rw [hown]
  simp only [Shows] at hp
  cases hspan : p.lifetime.or own with
  | none => exact ⟨_, rfl⟩
  | some span =>
      rw [hspan] at hp
      have hlt : now.steady + span.nanoseconds < Moment.latest :=
        Nat.lt_of_le_of_lt (Nat.add_le_add_right hnow _) (of_decide_eq_true hp)
      refine ⟨⟨p.item.entry.toJson, some (now.steady + span.nanoseconds)⟩, ?_⟩
      simp only [Moment.after?, if_pos hlt]
      rfl

theorem nodup_others {m : Memory} (h : m.keys.Nodup) (k : Key) :
    ((m.others k).map (·.1)).Nodup :=
  h.sublist (List.Sublist.map _ List.filter_sublist)

theorem mem_others {m : Memory} {j k : Key} (h : j ∈ (m.others k).map (·.1)) :
    j ∈ m.keys ∧ j ≠ k := by
  obtain ⟨e, he, rfl⟩ := List.mem_map.1 h
  obtain ⟨hmem, hne⟩ := List.mem_filter.1 he
  exact ⟨List.mem_map.2 ⟨e, hmem, rfl⟩, by simpa using hne⟩

theorem length_others {m : Memory} {ks : List Key} (hnodup : m.keys.Nodup)
    (hmem : ∀ k ∈ m.keys, k ∈ ks) {k : Key} (hk : k ∈ ks) :
    (m.others k).length ≤ ks.length - 1 := by
  have hsub : (m.others k).map (·.1) ⊆ ks.erase k := by
    intro j hj
    obtain ⟨hj, hne⟩ := mem_others hj
    exact (List.mem_erase_of_ne hne).2 (hmem j hj)
  have hle := ((nodup_others hnodup k).subperm hsub).length_le
  rwa [List.length_map, List.length_erase_of_mem hk] at hle

theorem find?_others {m : Memory} {j k : Key} (h : j ≠ k) :
    ((m.others k).find? fun e => e.1 = j).map (·.2) = m.find? j := by
  simp only [others, find?]
  rw [List.find?_filter]
  congr 2
  funext e
  by_cases he : e.1 = j <;> simp [he, h]

theorem find?_put {m : Memory} {k : Key} (hroom : (m.others k).length ≤ m.capacity - 1) (s : Slot)
    (j : Key) : (m.put k s).find? j = if k = j then some s else m.find? j := by
  simp only [put]
  rw [List.take_of_length_le hroom]
  by_cases hj : k = j
  · simp [find?, hj]
  · have hothers : ((m.others k).find? fun e => e.1 = j).map (·.2) = m.find? j :=
      find?_others (Ne.symm hj)
    rw [if_neg hj, ← hothers, find?, List.find?_cons_of_neg (by simpa using hj)]

theorem keys_put {m : Memory} {k : Key} (hroom : (m.others k).length ≤ m.capacity - 1) (s : Slot) :
    (m.put k s).keys = k :: (m.others k).map (·.1) := by
  simp only [keys, Memory.put]
  rw [List.take_of_length_le hroom]
  rfl

theorem nodup_put {m : Memory} (h : m.keys.Nodup) {k : Key}
    (hroom : (m.others k).length ≤ m.capacity - 1) (s : Slot) : (m.put k s).keys.Nodup := by
  rw [keys_put hroom]
  exact List.nodup_cons.2 ⟨fun hmem => (mem_others hmem).2 rfl, nodup_others h k⟩

theorem Holds.room_others {ks : List Key} {own : Option Span} {m : Memory} {sh : Shelf}
    (h : Holds ks own m sh) {k : Key} (hk : k ∈ ks) : (m.others k).length ≤ m.capacity - 1 :=
  Nat.le_trans (length_others h.nodup h.mem hk) (Nat.sub_le_sub_right h.room 1)

theorem Holds.put {ks : List Key} {own : Option Span} {m : Memory} {sh : Shelf}
    (h : Holds ks own m sh) {p : Pending} (hp : p.item.key ∈ ks) {now : Moment} {s : Slot}
    (hs : m.slot? now p.item.entry p.lifetime = some s) :
    Holds ks own (m.put p.item.key s) (sh.put p) := by
  have hroom := h.room_others hp
  refine ⟨h.usable, h.lifetime, h.room, nodup_put h.nodup hroom s, ?_, ?_, ?_⟩
  · rw [keys_put hroom]
    intro k hk
    rcases List.mem_cons.1 hk with rfl | hk
    · exact hp
    · exact h.mem k (mem_others hk).1
  · intro k hnone
    rw [find?_put hroom]
    simp only [Shelf.put] at hnone
    split at hnone
    · cases hnone
    · rename_i hne
      rw [if_neg hne]
      exact h.find_none k hnone
  · intro k q hsome
    rw [find?_put hroom]
    simp only [Shelf.put] at hsome
    split at hsome
    · rename_i heq
      obtain rfl := Option.some.inj hsome
      exact ⟨now, s, hs, if_pos heq⟩
    · rename_i hne
      rw [if_neg hne]
      exact h.find_some k q hsome

theorem Holds.putAll {ks : List Key} {own : Option Span} {horizon : Nat} {now : Moment}
    (hnow : now.steady ≤ horizon) {lifetime : Option Span} (items : List Item) {m : Memory}
    {sh : Shelf} (h : Holds ks own m sh)
    (hitems : ∀ i ∈ items, i.key ∈ ks ∧ Shows horizon own ⟨i, lifetime⟩) :
    ∃ m', m.putAll now lifetime items = (some (), m') ∧
      Holds ks own m' (sh.putAll (items.map fun i => ⟨i, lifetime⟩)) := by
  induction items generalizing m sh with
  | nil => exact ⟨m, rfl, h⟩
  | cons i is ih =>
      obtain ⟨hkey, hshows⟩ := hitems i List.mem_cons_self
      obtain ⟨s, hs⟩ := slot_isSome h.lifetime hnow hshows
      obtain ⟨m', hput, hm'⟩ := ih (h.put hkey hs) fun j hj => hitems j (List.mem_cons_of_mem _ hj)
      refine ⟨m', ?_, hm'⟩
      simp only [Memory.putAll]
      dsimp only at hs
      rw [hs]
      exact hput

theorem keeps (ks : List Key) (own : Option Span) (horizon : Nat) :
    store.Keeps (Holds ks own) (fun now => now.steady ≤ horizon)
      (fun p => p.item.key ∈ ks ∧ Shows horizon own p) where
  serve := by
    intro now r m sh hwrite hoffers hm hnow ht
    cases r with
    | write form i o =>
        obtain ⟨hkey, hshows⟩ := ht ⟨i, o.lifetime⟩ (List.mem_singleton.2 rfl)
        obtain ⟨s, hs⟩ := slot_isSome hm.lifetime hnow hshows
        refine ⟨(), m.put i.key s, ?_, hm.put (p := ⟨i, o.lifetime⟩) hkey hs⟩
        change m.writeNow now i o = _
        dsimp only at hs
        simp only [writeNow, hs, usable, hm.usable, Bool.false_eq_true, if_false]
    | writeAll means items o =>
        cases means with
        | batch =>
            obtain ⟨m', hput, hm'⟩ := hm.putAll hnow items fun i hi =>
              ht ⟨i, o.lifetime⟩ (List.mem_map.2 ⟨i, hi, rfl⟩)
            refine ⟨(), m', ?_, hm'⟩
            change m.writeAllNow now items o = _
            simp only [writeAllNow, usable, hm.usable, Bool.false_eq_true, if_false, hput]
        | pipeline => cases hoffers
    | read | delete | ping | close => cases hwrite

theorem holds_ofCapacity {ks : List Key} {n : Nat} (h : ks.length ≤ n) (own : Option Span) :
    Holds ks own (ofCapacity n own) fun _ => none where
  usable := rfl
  lifetime := rfl
  room := Nat.le_trans h (Nat.le_max_left n 1)
  nodup := List.nodup_nil
  mem := fun _ hk => (List.not_mem_nil hk).elim
  find_none := fun _ _ => rfl
  find_some := fun _ _ hp => by cases hp

theorem mem_keys_put {m : Memory} {j k : Key} {s : Slot} (h : j ∈ (m.put k s).keys) :
    j = k ∨ j ∈ m.keys := by
  obtain ⟨e, he, rfl⟩ := List.mem_map.1 h
  rcases List.mem_cons.1 he with rfl | he
  · exact .inl rfl
  · exact .inr (mem_others (List.mem_map.2 ⟨e, List.mem_of_mem_take he, rfl⟩)).1

theorem mem_keys_of_find? {m : Memory} {k : Key} {s : Slot} (h : m.find? k = some s) :
    k ∈ m.keys := by
  obtain ⟨e, he, -⟩ := Option.map_eq_some_iff.1 h
  have hkey : e.1 = k := by simpa using List.find?_some he
  exact List.mem_map.2 ⟨e, List.mem_of_find?_eq_some he, hkey⟩

theorem find?_eq_none {m : Memory} {k : Key} (h : k ∉ m.keys) : m.find? k = none := by
  cases hfind : m.find? k with
  | none => rfl
  | some s => exact (h (mem_keys_of_find? hfind)).elim

theorem mem_keys_read {m : Memory} {now : Moment} {j k : Key} (h : j ∈ (m.read now k).2.keys) :
    j ∈ m.keys := by
  simp only [read] at h
  cases hfind : m.find? k with
  | none =>
      rw [hfind] at h
      exact h
  | some s =>
      rw [hfind] at h
      dsimp only at h
      split at h
      · exact (mem_others h).1
      · rcases mem_keys_put h with rfl | h
        · exact mem_keys_of_find? hfind
        · exact h

theorem mem_keys_putAll {now : Moment} {lifetime : Option Span} (items : List Item) {m : Memory}
    {j : Key} (h : j ∈ (m.putAll now lifetime items).2.keys) :
    j ∈ m.keys ∨ ∃ i ∈ items, i.key = j := by
  induction items generalizing m with
  | nil => exact .inl h
  | cons i is ih =>
      simp only [putAll] at h
      split at h
      · rcases ih h with h | ⟨d, hd, rfl⟩
        · rcases mem_keys_put h with rfl | h
          · exact .inr ⟨i, List.mem_cons_self, rfl⟩
          · exact .inl h
        · exact .inr ⟨d, List.mem_cons_of_mem _ hd, rfl⟩
      · exact .inl h

theorem mem_keys_dropAll (ks : List Key) {m : Memory} {j : Key}
    (h : j ∈ (m.dropAll ks).2.keys) : j ∈ m.keys ∧ j ∉ ks := by
  induction ks generalizing m with
  | nil => exact ⟨h, List.not_mem_nil⟩
  | cons k ks ih =>
      obtain ⟨hdrop, hks⟩ := ih (m := m.drop k) h
      obtain ⟨hmem, hne⟩ := mem_others hdrop
      exact ⟨hmem, List.not_mem_cons_of_ne_of_not_mem hne hks⟩

theorem mem_keys_usable {α : Type} {f : Memory → Answered α × Memory} {m : Memory} {j : Key}
    (h : j ∈ (m.usable f).2.keys) : j ∈ m.keys ∨ j ∈ (f m).2.keys := by
  simp only [usable] at h
  split at h
  · exact .inl h
  · exact .inr h

theorem mem_keys_serve {now : Moment} {r : Request} {m : Memory} {j : Key}
    (h : j ∈ (serve now r m).2.keys) : j ∈ m.keys ∨ ∃ p ∈ r.writes, p.item.key = j := by
  cases r with
  | read form k context =>
      rcases mem_keys_usable h with h | h
      · exact .inl h
      · exact .inl (mem_keys_read h)
  | write form i o =>
      simp only [serve, writeNow] at h
      split at h
      · exact .inl h
      · rcases mem_keys_usable h with h | h
        · exact .inl h
        · rcases mem_keys_put h with rfl | h
          · exact .inr ⟨_, List.mem_singleton.2 rfl, rfl⟩
          · exact .inl h
  | writeAll means items o =>
      cases means with
      | pipeline => exact .inl h
      | batch =>
          rcases mem_keys_usable h with h | h
          · exact .inl h
          · have hput : j ∈ (m.putAll now o.lifetime items).2.keys := by
              cases hall : m.putAll now o.lifetime items with
              | mk done m' =>
                  rw [hall] at h
                  cases done <;> exact h
            rcases mem_keys_putAll items hput with h | ⟨i, hi, rfl⟩
            · exact .inl h
            · exact .inr ⟨_, List.mem_map.2 ⟨i, hi, rfl⟩, rfl⟩
  | delete ks =>
      rcases mem_keys_usable h with h | h
      · exact .inl h
      · exact .inl (mem_keys_dropAll ks h).1
  | ping | close => exact .inl h

theorem find?_drop (m : Memory) (j k : Key) :
    (m.drop k).find? j = if j = k then none else m.find? j := by
  split
  · rename_i heq
    exact find?_eq_none fun hmem => (mem_others hmem).2 heq
  · rename_i hne
    exact find?_others hne

theorem find?_touch {m : Memory} {k : Key} {s : Slot} (hroom : (m.others k).length ≤ m.capacity - 1)
    (hs : m.find? k = some s) (j : Key) : (m.put k s).find? j = m.find? j := by
  rw [find?_put hroom]
  split
  · rename_i heq
    rw [← heq, hs]
  · rfl

theorem forgets : store.Forgets fun k m => k ∉ m.keys where
  delete := by
    intro now ks m m' n hserve k hk hmem
    change m.deleteNow ks = _ at hserve
    simp only [deleteNow, usable] at hserve
    split at hserve
    · cases hserve
    · obtain ⟨-, rfl⟩ := Prod.mk.inj hserve
      exact (mem_keys_dropAll ks hmem).2 hk
  serve := by
    intro now r m k hm hr hmem
    rcases mem_keys_serve hmem with h | ⟨p, hp, hkey⟩
    · exact hm h
    · exact hr p hp hkey
  read := by
    intro now form k context m v hm hread
    change (m.readNow now k).1 = _ at hread
    simp only [readNow, usable] at hread
    split at hread
    · cases hread
    · have hnone : m.read now k = (none, m) := by
        simp only [Memory.read, find?_eq_none hm]
      dsimp only at hread
      rw [hnone] at hread
      cases hread

end Memory

end ReplyCache
