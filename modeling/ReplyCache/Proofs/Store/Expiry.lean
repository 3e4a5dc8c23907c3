import ReplyCache.Proofs.Store.Clock

namespace ReplyCache

namespace Memory

/-- No key has two records, and there are not more records than there is room for. -/
structure Tidy (m : Memory) : Prop where
  nodup : m.keys.Nodup
  positive : 0 < m.capacity
  room : m.slots.length ≤ m.capacity

def Full (m : Memory) : Prop := m.capacity ≤ m.slots.length

instance (m : Memory) : Decidable m.Full := inferInstanceAs (Decidable (_ ≤ _))

def slotOf (now : Moment) (own : Option Span) (p : Pending) : Slot :=
  ⟨p.item.entry.toJson, (p.lifetime.or own).map fun span => now.steady + span.nanoseconds⟩

variable {m : Memory} {own : Option Span} {now : Moment} {j k : Key} {s : Slot}

theorem slot?_eq_some (hown : m.lifetime = own) {p : Pending}
    (h : m.slot? now p.item.entry p.lifetime = some s) : s = slotOf now own p := by
  simp only [slot?] at h
  rw [hown] at h
  simp only [slotOf]
  cases hspan : p.lifetime.or own with
  | none =>
      rw [hspan] at h
      exact (Option.some.inj h).symm
  | some span =>
      rw [hspan] at h
      obtain ⟨time, htime, rfl⟩ := Option.map_eq_some_iff.1 h
      simp only [Moment.after?] at htime
      split at htime
      · obtain rfl := Option.some.inj htime
        rfl
      · cases htime

theorem tidy_ofCapacity (n : Nat) (own : Option Span) : (ofCapacity n own).Tidy :=
  ⟨List.nodup_nil, Nat.lt_of_lt_of_le Nat.one_pos (Nat.le_max_right n 1), Nat.zero_le _⟩

theorem length_put (m : Memory) (j : Key) (s : Slot) :
    (m.put j s).slots.length = min (m.capacity - 1) (m.others j).length + 1 := by
  simp [put]

theorem Tidy.put (h : m.Tidy) (j : Key) (s : Slot) : (m.put j s).Tidy := by
  have hsub : (((m.others j).take (m.capacity - 1)).map (·.1)).Sublist ((m.others j).map (·.1)) :=
    (List.take_sublist _ _).map _
  refine ⟨List.nodup_cons.2 ⟨fun hj => ?_, (nodup_others h.nodup j).sublist hsub⟩, h.positive, ?_⟩
  · exact (mem_others (hsub.subset hj)).2 rfl
  · rw [length_put]
    have hpositive := h.positive
    change _ ≤ m.capacity
    omega

theorem Tidy.drop (h : m.Tidy) (j : Key) : (m.drop j).Tidy :=
  ⟨nodup_others h.nodup j, h.positive, Nat.le_trans (List.length_filter_le _ _) h.room⟩

theorem Tidy.read (h : m.Tidy) (now : Moment) (j : Key) : (m.read now j).2.Tidy := by
  simp only [Memory.read]
  split
  · exact h
  · split
    · exact h.drop j
    · exact h.put j _

theorem Tidy.dropAll (h : m.Tidy) (ks : List Key) : (m.dropAll ks).2.Tidy := by
  induction ks generalizing m with
  | nil => exact h
  | cons k ks ih => exact ih (h.drop k)

theorem Tidy.putAll (h : m.Tidy) (now : Moment) (lifetime : Option Span) (items : List Item) :
    (m.putAll now lifetime items).2.Tidy := by
  induction items generalizing m with
  | nil => exact h
  | cons i is ih =>
      simp only [Memory.putAll]
      split
      · exact ih (h.put i.key _)
      · exact h

theorem Tidy.room_others (h : m.Tidy) (hj : j ∈ m.keys) :
    (m.others j).length ≤ m.capacity - 1 := by
  have hlen := length_others h.nodup (fun _ hk => hk) hj
  have hkeys : m.keys.length = m.slots.length := List.length_map _
  have hroom := h.room
  omega

theorem length_le_others (hnodup : m.keys.Nodup) (j : Key) :
    m.slots.length ≤ (m.others j).length + 1 := by
  have hsub : m.keys ⊆ j :: (m.others j).map (·.1) := by
    intro k hk
    obtain ⟨e, he, rfl⟩ := List.mem_map.1 hk
    by_cases hj : e.1 = j
    · exact hj ▸ List.mem_cons_self
    · exact List.mem_cons_of_mem _ (List.mem_map.2 ⟨e, by simp [others, he, hj], rfl⟩)
  have hle := (hnodup.subperm hsub).length_le
  rwa [List.length_cons, List.length_map, keys, List.length_map] at hle

theorem Tidy.full_put (h : m.Tidy) (hfull : m.Full) (j : Key) (s : Slot) : (m.put j s).Full := by
  have hlen := length_le_others h.nodup j
  have hpositive := h.positive
  simp only [Full] at hfull ⊢
  rw [length_put]
  change m.capacity ≤ _
  omega

theorem Tidy.find?_put (h : m.Tidy) (hne : j ≠ k) (s : Slot) :
    (m.put j s).find? k = m.find? k ∨ (m.put j s).find? k = none ∧ (m.put j s).Full := by
  by_cases hroom : (m.others j).length ≤ m.capacity - 1
  · left
    rw [Memory.find?_put hroom, if_neg hne]
  · have hpositive := h.positive
    have hfull : (m.put j s).Full := by
      simp only [Full]
      rw [length_put]
      change m.capacity ≤ _
      omega
    have hput : (m.put j s).find? k =
        (((m.others j).take (m.capacity - 1)).find? fun e => e.1 = k).map (·.2) := by
      rw [find?, Memory.put, List.find?_cons_of_neg (by simpa using hne)]
    have hothers : ((m.others j).find? fun e => e.1 = k).map (·.2) = m.find? k :=
      find?_others (Ne.symm hne)
    rw [← List.take_append_drop (m.capacity - 1) (m.others j), List.find?_append] at hothers
    rw [hput, ← hothers]
    -- evicted if it is behind what there is room for
    cases ((m.others j).take (m.capacity - 1)).find? fun e => decide (e.1 = k) with
    | none => exact .inr ⟨rfl, hfull⟩
    | some e => exact .inl rfl

/-- The memory has this under a key, or had to evict it. -/
def Retains (k : Key) (x : Option Slot) (m : Memory) : Prop :=
  m.find? k = x ∨ m.find? k = none ∧ m.Full

theorem retains_put_self (m : Memory) (k : Key) (s : Slot) : (m.put k s).Retains k (some s) := by
  left
  simp [find?, put]

theorem Retains.put {x : Option Slot} (h : m.Retains k x) (hm : m.Tidy) (hne : j ≠ k) (s : Slot) :
    (m.put j s).Retains k x := by
  rcases hm.find?_put hne s with hfind | hevicted
  · rcases h with h | ⟨hnone, hfull⟩
    · exact .inl (hfind.trans h)
    · exact .inr ⟨hfind.trans hnone, hm.full_put hfull j s⟩
  · exact .inr hevicted

def written (now : Moment) (own : Option Span) (k : Key) (ps : List Pending) (x : Option Slot) :
    Option Slot := ((Pending.lastOf k ps).map (slotOf now own)).or x

theorem written_append (now : Moment) (own : Option Span) (k : Key) (ps qs : List Pending)
    (x : Option Slot) :
    written now own k (ps ++ qs) x = written now own k qs (written now own k ps x) := by
  simp only [written]
  rw [Pending.lastOf_append, Option.map_or, Option.or_assoc]

theorem Retains.put_slot {x : Option Slot} {p : Pending} (h : m.Retains k x) (hm : m.Tidy)
    (hown : m.lifetime = own) (hs : m.slot? now p.item.entry p.lifetime = some s) :
    (m.put p.item.key s).Retains k (written now own k [p] x) := by
  simp only [written]
  rw [Pending.lastOf_singleton]
  by_cases hkey : p.item.key = k
  · rw [if_pos hkey, hkey, slot?_eq_some hown hs]
    exact retains_put_self m k _
  · rw [if_neg hkey]
    exact h.put hm hkey s

theorem Retains.putAll {x : Option Slot} {lifetime : Option Span} {items : List Item} {m' : Memory}
    (h : m.Retains k x) (hm : m.Tidy) (hown : m.lifetime = own)
    (hput : m.putAll now lifetime items = (some (), m')) :
    m'.Retains k (written now own k (items.map fun i => ⟨i, lifetime⟩) x) := by
  induction items generalizing m x with
  | nil =>
      obtain ⟨-, rfl⟩ := Prod.mk.inj hput
      exact h
  | cons i is ih =>
      simp only [Memory.putAll] at hput
      split at hput
      · rename_i s hs
        have hi : (m.put i.key s).Retains k (written now own k [⟨i, lifetime⟩] x) :=
          h.put_slot (p := ⟨i, lifetime⟩) hm hown hs
        rw [List.map_cons, ← List.singleton_append, written_append]
        exact ih hi (hm.put i.key s) hown hput
      · cases hput

variable {n : Nat} {r : Request}

theorem Tidy.usable {α : Type} {f : Memory → Answered α × Memory} (h : m.Tidy)
    (hf : (f m).2.Tidy) : (m.usable f).2.Tidy := by
  simp only [Memory.usable]
  split
  · exact h
  · exact hf

theorem Tidy.serve (h : m.Tidy) (now : Moment) (r : Request) : (Memory.serve now r m).2.Tidy := by
  cases r with
  | read form k context => exact h.usable (h.read now k)
  | write form i o =>
      simp only [Memory.serve, writeNow]
      split
      · exact h
      · exact h.usable (h.put i.key _)
  | writeAll means items o =>
      cases means with
      | pipeline => exact h
      | batch =>
          apply h.usable
          have hput := h.putAll now o.lifetime items
          split
          · rename_i m' heq
            rw [heq] at hput
            exact hput
          · rename_i m' heq
            rw [heq] at hput
            exact ⟨hput.nodup, hput.positive, hput.room⟩
  | delete ks => exact h.usable (h.dropAll ks)
  | ping | close => exact h

theorem Tidy.serveAll (h : m.Tidy) (now : Moment) (rs : List Request) :
    (store.serveAll now rs m).2.Tidy := by
  induction rs generalizing m with
  | nil => exact h
  | cons r rs ih =>
      have hserve := h.serve now r
      simp only [Store.serveAll]
      have hstore : store.serve now r m = Memory.serve now r m := rfl
      rw [hstore]
      cases hr : Memory.serve now r m with
      | mk answer m' =>
          rw [hr] at hserve
          cases answer with
          | ok a => exact ih hserve
          | error f =>
              cases f with
              | fault f => exact ih hserve
              | crash => exact hserve

theorem Retains.serve {x : Option Slot} {a : r.Answer} {m' : Memory} (h : m.Retains k x)
    (hm : m.Tidy) (hintact : m.Intact n own) (hwrite : r.isWrite = true ∨ r = .close)
    (hserve : Memory.serve now r m = (.ok a, m')) :
    m'.Retains k (written now own k r.writes x) := by
  cases r with
  | read | delete | ping => simp [Request.isWrite] at hwrite
  | close =>
      obtain ⟨-, rfl⟩ := Prod.mk.inj hserve
      exact h
  | write form i o =>
      simp only [Memory.serve, writeNow] at hserve
      split at hserve
      · cases hserve
      · rename_i s hs
        rw [usable_eq hintact.usable] at hserve
        obtain ⟨-, rfl⟩ := Prod.mk.inj hserve
        exact h.put_slot (p := ⟨i, o.lifetime⟩) hm hintact.lifetime hs
  | writeAll means items o =>
      cases means with
      | pipeline => cases hserve
      | batch =>
          simp only [Memory.serve, writeAllNow, usable_eq hintact.usable] at hserve
          cases hput : m.putAll now o.lifetime items with
          | mk done m₁ =>
              rw [hput] at hserve
              cases done with
              | none => cases hserve
              | some u =>
                  obtain ⟨-, rfl⟩ := Prod.mk.inj hserve
                  exact h.putAll hm hintact.lifetime hput

theorem Retains.serveAll {x : Option Slot} {rs : List Request} (h : m.Retains k x) (hm : m.Tidy)
    (hintact : m.Intact n own) (hwrites : ∀ r ∈ rs, r.isWrite = true ∨ r = .close)
    (hoffers : ∀ r ∈ rs, store.capabilities.offers r = true)
    (hok : (store.serveAll now rs m).1 = true) :
    (store.serveAll now rs m).2.Retains k (written now own k (rs.flatMap Request.writes) x) := by
  have hshows := hintact.shows_of_serveAll hoffers hok
  induction rs generalizing m x with
  | nil => exact h
  | cons r rs ih =>
      obtain ⟨hr, hrs⟩ := List.forall_mem_cons.1 hwrites
      obtain ⟨hoffer, hoffers'⟩ := List.forall_mem_cons.1 hoffers
      rw [List.flatMap_cons] at hshows
      obtain ⟨hshow, hshows'⟩ := List.forall_mem_append.1 hshows
      obtain ⟨a, m', hserve, hintact'⟩ := hintact.serve hoffer hshow
      have hm' : m'.Tidy := by
        have htidy := hm.serve now r
        rwa [hserve] at htidy
      have hserve' : store.serve now r m = (.ok a, m') := hserve
      simp only [Store.serveAll] at hok ⊢
      rw [hserve'] at hok ⊢
      rw [List.flatMap_cons, written_append]
      exact ih (h.serve hm hintact hr hserve) hm' hintact' hrs hoffers' hok hshows'

theorem Tidy.find?_read (h : m.Tidy) (now : Moment) (j k : Key) :
    (m.read now j).2.find? k = m.find? k ∨
      (m.read now j).2.find? k = none ∧ ∃ s, m.find? k = some s ∧ s.isExpired now = true := by
  simp only [Memory.read]
  cases hfind : m.find? j with
  | none => exact .inl rfl
  | some s =>
      dsimp only
      split
      · rename_i hexpired
        rw [find?_drop]
        by_cases hk : k = j
        · rw [if_pos hk, hk]
          exact .inr ⟨rfl, s, hfind, hexpired⟩
        · rw [if_neg hk]
          exact .inl rfl
      · exact .inl (find?_touch (h.room_others (mem_keys_of_find? hfind)) hfind k)

theorem find?_dropAll (m : Memory) {ks : List Key} (hk : k ∉ ks) :
    (m.dropAll ks).2.find? k = m.find? k := by
  induction ks generalizing m with
  | nil => rfl
  | cons j ks ih =>
      have hne : k ≠ j := fun heq => hk (heq ▸ List.mem_cons_self)
      have hdrop : (m.drop j).find? k = m.find? k := by rw [find?_drop, if_neg hne]
      exact (ih (m.drop j) fun hks => hk (List.mem_cons_of_mem _ hks)).trans hdrop

theorem serve_read (hintact : m.Intact n own) (form : Form) (k : Key) (context : Context) :
    (Memory.serve now (.read form k context) m).1 =
      .ok ((m.find? k).bind fun s => if s.isExpired now then none else some s.record) := by
  simp only [Memory.serve, readNow, usable_eq hintact.usable, Memory.read]
  cases m.find? k with
  | none => rfl
  | some s =>
      dsimp only [Option.bind_some]
      split <;> rfl

theorem isExpired_slotOf (written now : Moment) (own : Option Span) (p : Pending) :
    (slotOf written own p).isExpired now =
      !(p.lifetime.or own).all fun span =>
        decide (now.steady < written.steady + span.nanoseconds) := by
  simp only [slotOf, Slot.isExpired]
  cases p.lifetime.or own with
  | none => rfl
  | some span =>
      rw [Option.map_some, Option.all_some, ← decide_not]
      exact decide_eq_decide.2 Nat.not_lt.symm

theorem isExpired_of_le {now now' : Moment} (h : s.isExpired now = true)
    (hle : now.steady ≤ now'.steady) : s.isExpired now' = true := by
  simp only [Slot.isExpired] at h ⊢
  split at h
  · exact decide_eq_true (Nat.le_trans (of_decide_eq_true h) hle)
  · cases h

end Memory

end ReplyCache
