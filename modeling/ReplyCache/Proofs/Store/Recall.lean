import ReplyCache.Proofs.Store.Clock

namespace ReplyCache

namespace Memory

/-- The memory has the writes of a shelf, none of which expires. -/
structure Lasts (ks : List Key) (m : Memory) (sh : Shelf) : Prop where
  holds : Holds ks none m sh
  untimed : sh.All fun p => p.lifetime = none

variable {ks : List Key} {own : Option Span} {m : Memory} {sh : Shelf}

theorem find?_ne_none {k : Key} (h : k ∈ m.keys) : m.find? k ≠ none := by
  obtain ⟨e, he, rfl⟩ := List.mem_map.1 h
  intro hnone
  have hfind := Option.map_eq_none_iff.1 hnone
  exact List.find?_eq_none.1 hfind e he (decide_eq_true rfl)

theorem Holds.cover (h : Holds ks own m sh) {ks' : List Key} (hroom : ks'.length ≤ m.capacity)
    (hcover : ∀ k, sh k ≠ none → k ∈ ks') : Holds ks' own m sh where
  usable := h.usable
  lifetime := h.lifetime
  room := hroom
  nodup := h.nodup
  mem := fun k hk => hcover k fun hnone => find?_ne_none hk (h.find_none k hnone)
  find_none := h.find_none
  find_some := h.find_some

theorem Holds.touch (h : Holds ks own m sh) {k : Key} {s : Slot} (hs : m.find? k = some s) :
    Holds ks own (m.put k s) sh := by
  have hk : k ∈ m.keys := mem_keys_of_find? hs
  have hroom := h.room_others (h.mem k hk)
  have hfind := find?_touch hroom hs
  refine ⟨h.usable, h.lifetime, h.room, nodup_put h.nodup hroom s, ?_, fun j hj => ?_,
    fun j p hp => ?_⟩
  · intro j hj
    rcases mem_keys_put hj with rfl | hj
    · exact h.mem j hk
    · exact h.mem j hj
  · rw [hfind]
    exact h.find_none j hj
  · obtain ⟨now, s', hslot, hs'⟩ := h.find_some j p hp
    exact ⟨now, s', hslot, (hfind j).trans hs'⟩

theorem Holds.drop (h : Holds ks own m sh) (k : Key) :
    Holds ks own (m.drop k) (sh.without [k]) := by
  refine ⟨h.usable, h.lifetime, h.room, nodup_others h.nodup k, ?_, fun j hj => ?_,
    fun j p hp => ?_⟩
  · intro j hj
    exact h.mem j (mem_others hj).1
  · rw [find?_drop]
    split
    · rfl
    · rename_i hne
      exact h.find_none j (by simpa [Shelf.without, hne] using hj)
  · have hne : j ≠ k := by
      rintro rfl
      simp [Shelf.without] at hp
    rw [find?_drop, if_neg hne]
    exact h.find_some j p (Shelf.of_without hp)

theorem Holds.dropAll (h : Holds ks own m sh) (gone : List Key) :
    Holds ks own (m.dropAll gone).2 (sh.without gone) := by
  induction gone generalizing m sh with
  | nil =>
      rw [Shelf.without_nil]
      exact h
  | cons k gone ih =>
      rw [Shelf.without_cons]
      exact ih (h.drop k)

theorem Lasts.find? (h : Lasts ks m sh) (k : Key) :
    m.find? k = (sh k).map fun p => ⟨p.item.entry.toJson, none⟩ := by
  cases hsh : sh k with
  | none => exact h.holds.find_none k hsh
  | some p =>
      obtain ⟨now, s, hslot, hs⟩ := h.holds.find_some k p hsh
      rw [slot?, h.untimed k p hsh, h.holds.lifetime] at hslot
      obtain rfl := Option.some.inj hslot
      exact hs

theorem Lasts.read (h : Lasts ks m sh) (now : Moment) (k : Key) :
    (m.read now k).1 = (sh k).map (fun p => p.item.entry.toJson) ∧
      Lasts ks (m.read now k).2 sh := by
  have hfind := h.find? k
  simp only [Memory.read]
  cases hsh : sh k with
  | none =>
      rw [hsh] at hfind
      rw [hfind]
      exact ⟨rfl, h⟩
  | some p =>
      rw [hsh] at hfind
      rw [hfind]
      exact ⟨rfl, h.holds.touch hfind, h.untimed⟩

theorem recalls (ks : List Key) : store.Recalls (Lasts ks) := by
  intro now form k context m sh h
  obtain ⟨hanswer, hlasts⟩ := h.read now k
  refine ⟨(m.read now k).2, ?_, hlasts⟩
  change m.readNow now k = _
  rw [readNow, usable_eq h.holds.usable, ← hanswer]

theorem Lasts.delete (h : Lasts ks m sh) (now : Moment) (gone : List Key) :
    ∃ n m', store.serve now (.delete gone) m = (.ok n, m') ∧ Lasts ks m' (sh.without gone) := by
  refine ⟨(m.dropAll gone).1, (m.dropAll gone).2, ?_, h.holds.dropAll gone, h.untimed.without gone⟩
  change m.deleteNow gone = _
  rw [deleteNow, usable_eq h.holds.usable]

theorem shows_untimed {horizon : Nat} {p : Pending} (h : p.lifetime = none) :
    Shows horizon none p := by
  simp only [Shows]
  rw [h]
  rfl

theorem keeps_untimed (ks : List Key) :
    store.Keeps (Lasts ks) (fun _ => True) fun p => p.item.key ∈ ks ∧ p.lifetime = none where
  serve := by
    intro now r m sh hwrite hoffers hm _ htakes
    obtain ⟨a, m', hserve, hholds⟩ := (keeps ks none now.steady).serve hwrite hoffers hm.holds
      (Nat.le_refl _) fun p hp => ⟨(htakes p hp).1, shows_untimed (htakes p hp).2⟩
    exact ⟨a, m', hserve, hholds, hm.untimed.putAll fun p hp => (htakes p hp).2⟩

end Memory

end ReplyCache
