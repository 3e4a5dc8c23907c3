import Mathlib.Data.List.Dedup
import ReplyCache.Proofs.Store.Expiry
import ReplyCache.Proofs.Store.Histories
import ReplyCache.Proofs.Store.Recall

namespace ReplyCache

namespace Memory

def used (now : Moment) : Request → Memory → List Key
  | .read _ k _, m => if (m.read now k).1.isSome then [k] else []
  | r, _ => r.writes.map fun p => p.item.key

def uses : History → Memory → List Key
  | [], _ => []
  | (now, r) :: rs, m => used now r m ++ uses rs (store.serve now r m).2

theorem uses_snoc (rs : History) (now : Moment) (r : Request) (m : Memory) :
    uses (rs ++ [(now, r)]) m = uses rs m ++ used now r (store.run rs m) := by
  induction rs generalizing m with
  | nil => exact List.append_nil _
  | cons e rs ih =>
      rw [List.cons_append, uses, uses, ih, List.append_assoc]
      rfl

/-- The keys used since a key was used last, the latest first; all of them if it never was. -/
def since (k : Key) (us : List Key) : List Key := us.reverse.takeWhile (· ≠ k)

def rank (k : Key) (us : List Key) : Nat := (since k us).dedup.length

theorem since_snoc_self (k : Key) (us : List Key) : since k (us ++ [k]) = [] := by simp [since]

theorem since_snoc_of_ne {j k : Key} (h : j ≠ k) (us : List Key) :
    since k (us ++ [j]) = j :: since k us := by simp [since, h]

theorem rank_le_snoc {j k : Key} (h : j ≠ k) (us : List Key) :
    rank k us ≤ rank k (us ++ [j]) := by
  have hsub : (since k us).dedup ⊆ (since k (us ++ [j])).dedup := by
    intro i hi
    rw [since_snoc_of_ne h, List.mem_dedup]
    exact List.mem_cons_of_mem j (List.mem_dedup.1 hi)
  exact ((List.nodup_dedup _).subperm hsub).length_le

def recency (us : List Key) : List Key := us.foldl (fun ks k => k :: ks.filter (· ≠ k)) []

theorem recency_snoc (us : List Key) (k : Key) :
    recency (us ++ [k]) = k :: (recency us).filter (· ≠ k) := List.foldl_append

theorem nodup_recency (us : List Key) : (recency us).Nodup := by
  induction us using List.reverseRecOn with
  | nil => exact List.nodup_nil
  | append_singleton us k ih =>
      rw [recency_snoc]
      exact List.nodup_cons.2 ⟨by simp, ih.filter _⟩

theorem mem_takeWhile_recency {i k : Key} (us : List Key) :
    i ∈ (recency us).takeWhile (· ≠ k) ↔ i ∈ since k us := by
  induction us using List.reverseRecOn with
  | nil => rfl
  | append_singleton us j ih =>
      rw [recency_snoc]
      by_cases hj : j = k
      · subst hj
        rw [since_snoc_self, List.takeWhile_cons_of_neg (by simp)]
      · rw [since_snoc_of_ne hj, List.takeWhile_cons_of_pos (by simpa using hj)]
        have hpass : (fun i : Key => !decide (i ≠ j) || decide (i ≠ k)) = (· ≠ k) := by
          funext i
          by_cases hi : i = j
          · subst hi
            simp [hj]
          · simp [hi]
        rw [List.takeWhile_filter, hpass, List.mem_cons, List.mem_cons, List.mem_filter, ih]
        by_cases hi : i = j <;> simp [hi]

theorem length_takeWhile_recency (k : Key) (us : List Key) :
    ((recency us).takeWhile (· ≠ k)).length = rank k us := by
  apply List.Perm.length_eq
  have hnodup := (nodup_recency us).sublist (List.takeWhile_sublist (· ≠ k))
  rw [List.perm_ext_iff_of_nodup hnodup (List.nodup_dedup _)]
  intro i
  rw [mem_takeWhile_recency, List.mem_dedup]

theorem length_takeWhile_le {l l' : List Key} (h : l.Sublist l') (hnodup : l'.Nodup) {k : Key}
    (hk : k ∈ l) : (l.takeWhile (· ≠ k)).length ≤ (l'.takeWhile (· ≠ k)).length := by
  induction h with
  | slnil => cases hk
  | @cons l l' j h ih =>
      obtain ⟨hj, hl'⟩ := List.nodup_cons.1 hnodup
      have hne : j ≠ k := fun heq => hj (heq ▸ h.subset hk)
      rw [List.takeWhile_cons_of_pos (by simpa using hne)]
      exact Nat.le_succ_of_le (ih hl' hk)
  | @cons_cons l l' j h ih =>
      by_cases hj : j = k
      · rw [List.takeWhile_cons_of_neg (by simpa using hj)]
        exact Nat.zero_le _
      · have hl : k ∈ l := (List.mem_cons.1 hk).resolve_left (Ne.symm hj)
        rw [List.takeWhile_cons_of_pos (by simpa using hj),
          List.takeWhile_cons_of_pos (by simpa using hj)]
        exact Nat.succ_le_succ (ih (List.nodup_cons.1 hnodup).2 hl)

theorem le_length_takeWhile {l : List Key} {k : Key} {n : Nat} (hk : k ∉ l.take n) (hl : k ∈ l) :
    n ≤ (l.takeWhile (· ≠ k)).length := by
  induction l generalizing n with
  | nil => cases hl
  | cons j l ih =>
      cases n with
      | zero => exact Nat.zero_le _
      | succ n =>
          rw [List.take_succ_cons, List.mem_cons, not_or] at hk
          rw [List.takeWhile_cons_of_pos (by simpa using Ne.symm hk.1)]
          exact Nat.succ_le_succ (ih hk.2 ((List.mem_cons.1 hl).resolve_left hk.1))

theorem take_filter_take {l : List Key} (hnodup : l.Nodup) (j : Key) (n : Nat) :
    ((l.take (n + 1)).filter (· ≠ j)).take n = (l.filter (· ≠ j)).take n := by
  induction l generalizing n with
  | nil => rfl
  | cons i l ih =>
      obtain ⟨hi, hl⟩ := List.nodup_cons.1 hnodup
      rw [List.take_succ_cons]
      by_cases hij : i = j
      · have hfilter : l.filter (· ≠ j) = l := by
          rw [List.filter_eq_self]
          intro x hx
          simpa using fun heq => hi (by rw [hij, ← heq]; exact hx)
        have hfilter' : (l.take n).filter (· ≠ j) = l.take n := by
          rw [List.filter_eq_self]
          intro x hx
          simpa using fun heq => hi (by rw [hij, ← heq]; exact List.mem_of_mem_take hx)
        rw [List.filter_cons_of_neg (by simpa using hij),
          List.filter_cons_of_neg (by simpa using hij), hfilter, hfilter', List.take_take,
          Nat.min_self]
      · rw [List.filter_cons_of_pos (by simpa using hij),
          List.filter_cons_of_pos (by simpa using hij)]
        cases n with
        | zero => rfl
        | succ n => rw [List.take_succ_cons, List.take_succ_cons, ih hl]

variable {n : Nat} {own : Option Span} {us : List Key} {m : Memory} {now : Moment} {j k : Key}
  {s : Slot}

theorem keys_others (m : Memory) (j : Key) :
    (m.others j).map (·.1) = m.keys.filter (· ≠ j) := by
  rw [keys, List.filter_map]
  rfl

theorem keys_put_eq (m : Memory) (j : Key) (s : Slot) :
    (m.put j s).keys = j :: (m.keys.filter (· ≠ j)).take (m.capacity - 1) := by
  rw [← keys_others, ← List.map_take]
  rfl

structure Ranked (n : Nat) (us : List Key) (m : Memory) : Prop where
  tidy : m.Tidy
  capacity : m.capacity = n
  ordered : m.keys.Sublist (recency us)

/-- The memory has a key, unless there was no more room than for those used since. -/
def Stays (n : Nat) (us : List Key) (k : Key) (m : Memory) : Prop := k ∈ m.keys ∨ n ≤ rank k us

theorem ranked_ofCapacity (n : Nat) (own : Option Span) :
    Ranked (max n 1) [] (ofCapacity n own) :=
  ⟨tidy_ofCapacity n own, rfl, List.Sublist.refl _⟩

theorem Ranked.put (h : Ranked n us m) (j : Key) (s : Slot) :
    Ranked n (us ++ [j]) (m.put j s) where
  tidy := h.tidy.put j s
  capacity := h.capacity
  ordered := by
    rw [keys_put_eq, recency_snoc]
    exact ((List.take_sublist _ _).trans (h.ordered.filter _)).cons_cons j

theorem Ranked.drop (h : Ranked n us m) (j : Key) : Ranked n us (m.drop j) where
  tidy := h.tidy.drop j
  capacity := h.capacity
  ordered := by
    have hkeys : (m.drop j).keys = m.keys.filter (· ≠ j) := keys_others m j
    rw [hkeys]
    exact List.filter_sublist.trans h.ordered

/-- Only a key is evicted of which all others that are there were used since. -/
theorem Ranked.stays_put (h : Ranked n us m) (hk : j = k ∨ Stays n us k m) (s : Slot) :
    Stays n (us ++ [j]) k (m.put j s) := by
  by_cases hj : j = k
  · subst hj
    exact .inl List.mem_cons_self
  rcases hk.resolve_left hj with hk | hrank
  · by_cases hput : k ∈ (m.put j s).keys
    · exact .inl hput
    -- It was behind all that there is room for, so these were used since.
    right
    have hpositive := h.tidy.positive
    rw [keys_put_eq, h.capacity, List.mem_cons, not_or] at hput
    rw [h.capacity] at hpositive
    have hothers : k ∈ m.keys.filter (· ≠ j) := List.mem_filter.2 ⟨hk, by simpa using Ne.symm hj⟩
    have hbehind := le_length_takeWhile hput.2 hothers
    have hordered : (j :: m.keys.filter (· ≠ j)).Sublist (recency (us ++ [j])) := by
      rw [recency_snoc]
      exact (h.ordered.filter _).cons_cons j
    have hrank := length_takeWhile_le hordered (nodup_recency _) (List.mem_cons_of_mem j hothers)
    rw [length_takeWhile_recency, List.takeWhile_cons_of_pos (by simpa using hj),
      List.length_cons] at hrank
    omega
  · exact .inr (Nat.le_trans hrank (rank_le_snoc hj us))

variable {items : List Item} {lifetime : Option Span} {m' : Memory}

theorem Ranked.putAll (h : Ranked n us m)
    (hput : m.putAll now lifetime items = (some (), m')) :
    Ranked n (us ++ items.map Item.key) m' := by
  induction items generalizing m us with
  | nil =>
      obtain ⟨-, rfl⟩ := Prod.mk.inj hput
      rwa [List.map_nil, List.append_nil]
  | cons i is ih =>
      simp only [Memory.putAll] at hput
      split at hput
      · rename_i s _
        have hrest := ih (h.put i.key s) hput
        rwa [List.append_assoc, List.singleton_append] at hrest
      · cases hput

theorem Ranked.stays_putAll (h : Ranked n us m) (hk : k ∈ items.map Item.key ∨ Stays n us k m)
    (hput : m.putAll now lifetime items = (some (), m')) :
    Stays n (us ++ items.map Item.key) k m' := by
  induction items generalizing m us with
  | nil =>
      obtain ⟨-, rfl⟩ := Prod.mk.inj hput
      rw [List.map_nil, List.append_nil]
      exact hk.resolve_left List.not_mem_nil
  | cons i is ih =>
      simp only [Memory.putAll] at hput
      split at hput
      · rename_i s _
        have hi : k ∈ is.map Item.key ∨ Stays n (us ++ [i.key]) k (m.put i.key s) := by
          rcases hk with hk | hk
          · rcases List.mem_cons.1 hk with rfl | hk
            · exact .inr (h.stays_put (.inl rfl) s)
            · exact .inl hk
          · exact .inr (h.stays_put (.inr hk) s)
        have hrest := ih (h.put i.key s) hi hput
        rwa [List.append_assoc, List.singleton_append] at hrest
      · cases hput

theorem Ranked.dropAll (h : Ranked n us m) (ks : List Key) : Ranked n us (m.dropAll ks).2 := by
  induction ks generalizing m with
  | nil => exact h
  | cons k ks ih => exact ih (h.drop k)

theorem mem_keys_iff : k ∈ m.keys ↔ ∃ s, m.find? k = some s :=
  ⟨fun hk => Option.ne_none_iff_exists'.1 (find?_ne_none hk), fun ⟨_, hs⟩ => mem_keys_of_find? hs⟩

theorem stays_dropAll {ks : List Key} (hks : k ∉ ks) (hk : Stays n us k m) :
    Stays n us k (m.dropAll ks).2 := by
  rcases hk with hk | hrank
  · left
    rw [mem_keys_iff, find?_dropAll m hks]
    exact mem_keys_iff.1 hk
  · exact .inr hrank

theorem read_cases (m : Memory) (now : Moment) (form : Form) (k : Key) (context : Context) :
    (m.find? k = none ∧ used now (.read form k context) m = [] ∧ (m.read now k).2 = m) ∨
      ∃ s, m.find? k = some s ∧
        (s.isExpired now = true ∧ used now (.read form k context) m = [] ∧
            (m.read now k).2 = m.drop k ∨
          s.isExpired now = false ∧ used now (.read form k context) m = [k] ∧
            (m.read now k).2 = m.put k s) := by
  cases hfind : m.find? k with
  | none =>
      have hread : m.read now k = (none, m) := by simp [Memory.read, hfind]
      exact .inl ⟨rfl, by simp [used, hread], by rw [hread]⟩
  | some s =>
      refine .inr ⟨s, rfl, ?_⟩
      cases hexpired : s.isExpired now with
      | true =>
          have hread : m.read now k = (none, m.drop k) := by simp [Memory.read, hfind, hexpired]
          exact .inl ⟨rfl, by simp [used, hread], by rw [hread]⟩
      | false =>
          have hread : m.read now k = (some s.record, m.put k s) := by
            simp [Memory.read, hfind, hexpired]
          exact .inr ⟨rfl, by simp [used, hread], by rw [hread]⟩

variable {r : Request}

theorem Intact.serve_eq (h : Intact n own m) (hoffers : store.capabilities.offers r = true)
    (hshows : ∀ p ∈ r.writes, Shows now.steady own p) :
    (∃ items lifetime, r.writes = items.map (fun i => ⟨i, lifetime⟩) ∧ r.erased = [] ∧
        used now r m = items.map Item.key ∧
        m.putAll now lifetime items = (some (), (store.serve now r m).2)) ∨
      (∃ form k context, r = .read form k context ∧ (store.serve now r m).2 = (m.read now k).2) ∨
      (∃ ks, r = .delete ks ∧ (store.serve now r m).2 = (m.dropAll ks).2) ∨
      (r = .ping ∨ r = .close) ∧ (store.serve now r m).2 = m := by
  cases r with
  | read form k context =>
      refine .inr (.inl ⟨form, k, context, rfl, ?_⟩)
      change (m.readNow now k).2 = _
      rw [readNow, usable_eq h.usable]
  | write form i o =>
      have hi : Shows now.steady own ⟨i, o.lifetime⟩ := hshows _ List.mem_cons_self
      obtain ⟨s, hs⟩ := slot_isSome h.lifetime (Nat.le_refl _) hi
      refine .inl ⟨[i], o.lifetime, rfl, rfl, rfl, ?_⟩
      change _ = (some (), (m.writeNow now i o).2)
      dsimp only at hs
      simp only [Memory.putAll, writeNow, hs, usable_eq h.usable]
  | writeAll means items o =>
      cases means with
      | pipeline => cases hoffers
      | batch =>
          obtain ⟨m', hput, -⟩ := h.putAll fun i hi => hshows _ (List.mem_map.2 ⟨i, hi, rfl⟩)
          refine .inl ⟨items, o.lifetime, rfl, rfl, List.map_map, ?_⟩
          change _ = (some (), (m.writeAllNow now items o).2)
          simp only [writeAllNow, usable_eq h.usable, hput]
  | delete ks =>
      refine .inr (.inr (.inl ⟨ks, rfl, ?_⟩))
      change (m.deleteNow ks).2 = _
      rw [deleteNow, usable_eq h.usable]
  | ping => exact .inr (.inr (.inr ⟨.inl rfl, rfl⟩))
  | close => exact .inr (.inr (.inr ⟨.inr rfl, rfl⟩))

/-- What a run from an empty memory leaves: each record is that of the write which stands under its
key, and such a write has its record unless that was evicted or found expired. -/
structure Follows (n : Nat) (own : Option Span) (rs : History) (us : List Key) (m : Memory) :
    Prop where
  intact : Intact n own m
  ranked : Ranked n us m
  stands : ∀ k s, m.find? k = some s → ∃ w, rs.standing k = some w ∧ s = slotOf w.1 own w.2
  stays : ∀ k w, rs.standing k = some w →
    Stays n us k m ∨ ∃ e ∈ rs, (slotOf w.1 own w.2).isExpired e.1 = true

theorem follows_ofCapacity (n : Nat) (own : Option Span) :
    Follows (max n 1) own [] [] (ofCapacity n own) where
  intact := intact_ofCapacity n own
  ranked := ranked_ofCapacity n own
  stands := nofun
  stays := nofun

variable {rs : History}

theorem Follows.writes (h : Follows n own rs us m)
    (hwrites : r.writes = items.map fun i => ⟨i, lifetime⟩) (herased : r.erased = [])
    (hput : m.putAll now lifetime items = (some (), m')) (hintact : Intact n own m') :
    Follows n own (rs ++ [(now, r)]) (us ++ items.map Item.key) m' where
  intact := hintact
  ranked := h.ranked.putAll hput
  stands := by
    intro k s hs
    have hretains : m.Retains k (m.find? k) := .inl rfl
    rcases hretains.putAll h.ranked.tidy h.intact.lifetime hput with hfind | ⟨hnone, -⟩
    · rw [hs, written, ← hwrites] at hfind
      rw [History.standing_snoc]
      cases hlast : Pending.lastOf k r.writes with
      | some p =>
          rw [hlast] at hfind
          refine ⟨(now, p), ?_, Option.some.inj hfind⟩
          rw [History.revise_eq_some]
          exact .inl ⟨rfl, hlast⟩
      | none =>
          rw [hlast] at hfind
          obtain ⟨w, hw, hslot⟩ := h.stands k s hfind.symm
          refine ⟨w, ?_, hslot⟩
          rw [History.revise_eq_some]
          exact .inr ⟨hlast, by rw [herased]; exact List.not_mem_nil, hw⟩
    · rw [hnone] at hs
      cases hs
  stays := by
    intro k w hw
    rw [History.standing_snoc, History.revise_eq_some] at hw
    rcases hw with ⟨-, hlast⟩ | ⟨-, -, hw⟩
    · obtain ⟨hmem, hkey⟩ := Pending.key_of_lastOf hlast
      rw [hwrites] at hmem
      obtain ⟨i, hi, hp⟩ := List.mem_map.1 hmem
      refine .inl (h.ranked.stays_putAll (.inl ?_) hput)
      exact List.mem_map.2 ⟨i, hi, by rw [← hkey, ← hp]⟩
    · rcases h.stays k w hw with hk | ⟨e, he, hexpired⟩
      · exact .inl (h.ranked.stays_putAll (.inr hk) hput)
      · exact .inr ⟨e, List.mem_append_left _ he, hexpired⟩

theorem Follows.quiet (h : Follows n own rs us m) (hwrites : r.writes = []) :
    Follows n own (rs ++ [(now, r)]) us (m.dropAll r.erased).2 where
  intact := h.intact.dropAll _
  ranked := h.ranked.dropAll _
  stands := by
    intro k s hs
    have hk : k ∉ r.erased := (mem_keys_dropAll r.erased (mem_keys_of_find? hs)).2
    rw [find?_dropAll m hk] at hs
    obtain ⟨w, hw, hslot⟩ := h.stands k s hs
    refine ⟨w, ?_, hslot⟩
    rw [History.standing_snoc, History.revise_eq_some, hwrites]
    exact .inr ⟨rfl, hk, hw⟩
  stays := by
    intro k w hw
    rw [History.standing_snoc, History.revise_eq_some, hwrites] at hw
    rcases hw with ⟨-, hlast⟩ | ⟨-, hk, hw⟩
    · cases hlast
    · rcases h.stays k w hw with hstays | ⟨e, he, hexpired⟩
      · exact .inl (stays_dropAll hk hstays)
      · exact .inr ⟨e, List.mem_append_left _ he, hexpired⟩

theorem Follows.touch (h : Follows n own rs us m) (hs : m.find? k = some s) :
    Follows n own rs (us ++ [k]) (m.put k s) where
  intact := h.intact.of_slots _
  ranked := h.ranked.put k s
  stands := by
    intro j t ht
    rw [find?_touch (h.ranked.tidy.room_others (mem_keys_of_find? hs)) hs] at ht
    exact h.stands j t ht
  stays := fun j w hw => (h.stays j w hw).imp_left fun hj => h.ranked.stays_put (.inr hj) s

theorem Follows.expire (h : Follows n own rs us m) (hs : m.find? k = some s)
    (hexpired : ∃ e ∈ rs, s.isExpired e.1 = true) : Follows n own rs us (m.drop k) where
  intact := h.intact.of_slots _
  ranked := h.ranked.drop k
  stands := by
    intro j t ht
    rw [find?_drop] at ht
    split at ht
    · cases ht
    · exact h.stands j t ht
  stays := by
    intro j w hw
    by_cases hj : j = k
    · subst hj
      obtain ⟨v, hv, rfl⟩ := h.stands j s hs
      obtain rfl := Option.some.inj (hw.symm.trans hv)
      exact .inr hexpired
    · have hgone : j ∉ [k] := by simpa using hj
      exact (h.stays j w hw).imp_left (stays_dropAll hgone)

theorem Follows.serve (h : Follows n own rs us m) (hoffers : store.capabilities.offers r = true)
    (hshows : ∀ p ∈ r.writes, Shows now.steady own p) :
    Follows n own (rs ++ [(now, r)]) (us ++ used now r m) (store.serve now r m).2 := by
  obtain ⟨a, m', hserve, hintact⟩ := h.intact.serve hoffers hshows
  have hm' : (store.serve now r m).2 = m' := congrArg Prod.snd hserve
  rcases h.intact.serve_eq hoffers hshows with ⟨items, lifetime, hwrites, herased, hused, hput⟩ |
    ⟨form, k, context, rfl, hread⟩ | ⟨ks, rfl, hdelete⟩ | ⟨hr, hquiet⟩
  · rw [hused]
    exact h.writes hwrites herased hput (hm' ▸ hintact)
  · have hquiet : Follows n own (rs ++ [(now, .read form k context)]) us m := h.quiet rfl
    rw [hread]
    rcases read_cases m now form k context with ⟨-, hused, hm⟩ | ⟨s, hs, hcase⟩
    · rwa [hused, hm, List.append_nil]
    · rcases hcase with ⟨hexpired, hused, hm⟩ | ⟨-, hused, hm⟩
      · rw [hused, hm, List.append_nil]
        exact hquiet.expire hs ⟨_, List.mem_append_right _ (List.mem_singleton.2 rfl), hexpired⟩
      · rw [hused, hm]
        exact hquiet.touch hs
  · rw [hdelete, show used now (.delete ks) m = [] from rfl, List.append_nil]
    exact h.quiet rfl
  · rw [hquiet]
    rcases hr with rfl | rfl
    · rw [show used now .ping m = [] from rfl, List.append_nil]
      exact h.quiet rfl
    · rw [show used now .close m = [] from rfl, List.append_nil]
      exact h.quiet rfl

structure Served (own : Option Span) (rs : History) : Prop where
  offers : ∀ e ∈ rs, store.capabilities.offers e.2 = true
  shows : ∀ e ∈ rs, ∀ p ∈ e.2.writes, Shows e.1.steady own p

theorem Served.of_snoc {e : Moment × Request} (h : Served own (rs ++ [e])) :
    Served own rs ∧ store.capabilities.offers e.2 = true ∧
      ∀ p ∈ e.2.writes, Shows e.1.steady own p := by
  have hlast : e ∈ rs ++ [e] := List.mem_append_right _ (List.mem_singleton.2 rfl)
  refine ⟨⟨fun d hd => ?_, fun d hd => ?_⟩, h.offers e hlast, h.shows e hlast⟩
  · exact h.offers d (List.mem_append_left _ hd)
  · exact h.shows d (List.mem_append_left _ hd)

theorem follows_run (hrs : Served own rs) :
    Follows (max n 1) own rs (uses rs (ofCapacity n own)) (store.run rs (ofCapacity n own)) := by
  induction rs using List.reverseRecOn with
  | nil => exact follows_ofCapacity n own
  | append_singleton rs e ih =>
      obtain ⟨now, r⟩ := e
      obtain ⟨hbefore, hoffers, hshows⟩ := hrs.of_snoc
      rw [uses_snoc, Store.run_snoc]
      exact (ih hbefore).serve hoffers hshows

def Exact (n : Nat) (us : List Key) (m : Memory) : Prop := m.keys = (recency us).take n

theorem Exact.put (h : Exact n us m) (hm : Ranked n us m) (j : Key) (s : Slot) :
    Exact n (us ++ [j]) (m.put j s) := by
  have hpositive := hm.tidy.positive
  rw [hm.capacity] at hpositive
  obtain ⟨n, rfl⟩ := Nat.exists_eq_succ_of_ne_zero (Nat.ne_of_gt hpositive)
  rw [Exact, keys_put_eq, hm.capacity, h, recency_snoc, List.take_succ_cons]
  exact congrArg (j :: ·) (take_filter_take (nodup_recency us) j n)

theorem Exact.putAll (h : Exact n us m) (hm : Ranked n us m)
    (hput : m.putAll now lifetime items = (some (), m')) :
    Exact n (us ++ items.map Item.key) m' := by
  induction items generalizing m us with
  | nil =>
      obtain ⟨-, rfl⟩ := Prod.mk.inj hput
      rwa [List.map_nil, List.append_nil]
  | cons i is ih =>
      simp only [Memory.putAll] at hput
      split at hput
      · rename_i s _
        have hrest := ih (h.put hm i.key s) (hm.put i.key s) hput
        rwa [List.append_assoc, List.singleton_append] at hrest
      · cases hput

def meetsExpired (own : Option Span) (rs : History) : Moment × Request → Bool
  | (now, .read _ k _) => (rs.standing k).any fun w => (slotOf w.1 own w.2).isExpired now
  | _ => false

structure Lasting (own : Option Span) (rs : History) : Prop where
  kept : ∀ e ∈ rs, e.2.erased = []
  fresh : ∀ i (h : i < rs.length), meetsExpired own (rs.take i) rs[i] = false

theorem Lasting.of_snoc {e : Moment × Request} (h : Lasting own (rs ++ [e])) :
    Lasting own rs ∧ e.2.erased = [] ∧ meetsExpired own rs e = false := by
  refine ⟨⟨fun e he => h.kept e (List.mem_append_left _ he), fun i hi => ?_⟩,
    h.kept e (List.mem_append_right _ (List.mem_singleton.2 rfl)), ?_⟩
  · have hfresh := h.fresh i (by rw [List.length_append]; exact Nat.lt_add_right 1 hi)
    rwa [List.take_append_of_le_length (Nat.le_of_lt hi), List.getElem_append_left hi] at hfresh
  · have hfresh := h.fresh rs.length (by simp)
    rwa [List.take_left, List.getElem_concat_length rfl] at hfresh

theorem Exact.serve (h : Exact n us m) (hm : Follows n own rs us m)
    (hoffers : store.capabilities.offers r = true)
    (hshows : ∀ p ∈ r.writes, Shows now.steady own p) (herased : r.erased = [])
    (hfresh : meetsExpired own rs (now, r) = false) :
    Exact n (us ++ used now r m) (store.serve now r m).2 := by
  rcases hm.intact.serve_eq hoffers hshows with ⟨items, lifetime, -, -, hused, hput⟩ |
    ⟨form, k, context, rfl, hread⟩ | ⟨ks, rfl, hdelete⟩ | ⟨hr, hquiet⟩
  · rw [hused]
    exact h.putAll hm.ranked hput
  · rw [hread]
    rcases read_cases m now form k context with ⟨-, hused, hm'⟩ | ⟨s, hs, hcase⟩
    · rwa [hused, hm', List.append_nil]
    · rcases hcase with ⟨hexpired, -, -⟩ | ⟨-, hused, hm'⟩
      · obtain ⟨w, hw, rfl⟩ := hm.stands k s hs
        rw [meetsExpired, hw, Option.any_some, hexpired] at hfresh
        cases hfresh
      · rw [hused, hm']
        exact h.put hm.ranked k s
  · obtain rfl : ks = [] := herased
    rw [hdelete, show used now (.delete []) m = [] from rfl, List.append_nil]
    exact h
  · rw [hquiet]
    rcases hr with rfl | rfl
    · rwa [show used now .ping m = [] from rfl, List.append_nil]
    · rwa [show used now .close m = [] from rfl, List.append_nil]

theorem exact_run (hrs : Served own rs) (hlasting : Lasting own rs) :
    Exact (max n 1) (uses rs (ofCapacity n own)) (store.run rs (ofCapacity n own)) := by
  induction rs using List.reverseRecOn with
  | nil => exact List.take_nil.symm
  | append_singleton rs e ih =>
      obtain ⟨now, r⟩ := e
      obtain ⟨hbefore, hoffers, hshows⟩ := hrs.of_snoc
      obtain ⟨hlasted, herased, hfresh⟩ := hlasting.of_snoc
      rw [uses_snoc, Store.run_snoc]
      exact (ih hbefore hlasted).serve (follows_run hbefore) hoffers hshows herased hfresh

theorem length_takeWhile_lt {l : List Key} (h : k ∈ l.take n) :
    (l.takeWhile (· ≠ k)).length < n := by
  induction l generalizing n with
  | nil => simp at h
  | cons j l ih =>
      cases n with
      | zero => simp at h
      | succ n =>
          by_cases hj : j = k
          · rw [List.takeWhile_cons_of_neg (by simpa using hj)]
            exact Nat.succ_pos n
          · rw [List.take_succ_cons] at h
            rw [List.takeWhile_cons_of_pos (by simpa using hj)]
            exact Nat.succ_lt_succ (ih ((List.mem_cons.1 h).resolve_left (Ne.symm hj)))

theorem Follows.find?_eq_some (h : Follows n own rs us m) {w : Moment × Pending}
    (hw : rs.standing k = some w) (hfresh : (slotOf w.1 own w.2).isExpired now = false)
    (hrank : rank k us < n) (hnow : ∀ e ∈ rs, e.1.steady ≤ now.steady) :
    m.find? k = some (slotOf w.1 own w.2) := by
  rcases h.stays k w hw with (hk | hle) | ⟨e, he, hexpired⟩
  · obtain ⟨s, hs⟩ := mem_keys_iff.1 hk
    obtain ⟨v, hv, rfl⟩ := h.stands k s hs
    obtain rfl := Option.some.inj (hw.symm.trans hv)
    exact hs
  · exact (Nat.not_lt.2 hle hrank).elim
  · rw [isExpired_of_le hexpired (hnow e he)] at hfresh
    cases hfresh

/-- A memory is a map of the latest keys. It never holds more records than there is room for. A read
is answered by the write that stands under its key, if that has not expired and fewer other keys
were written or hit since the key was than there is room for; it finds nothing if no write stands
there or if that has expired. As long as nothing is deleted or found expired, it finds nothing
either if so many other keys were written or hit since. -/
theorem answer_of_recency {n : Nat} {own : Option Span} {rs : History} (hn : 0 < n)
    (hrs : Served own rs) :
    let m := store.run rs (ofCapacity n own)
    let us := uses rs (ofCapacity n own)
    m.slots.length ≤ n ∧
      ∀ now form k context, (∀ e ∈ rs, e.1.steady ≤ now.steady) →
        let answer := (store.serve now (.read form k context) m).1
        (∀ w, rs.standing k = some w → (slotOf w.1 own w.2).isExpired now = false →
          rank k us < n → answer = .ok (some w.2.item.entry.toJson)) ∧
        ((∀ w, rs.standing k = some w → (slotOf w.1 own w.2).isExpired now = true) →
          answer = .ok none) ∧
        (Lasting own rs → n ≤ rank k us → answer = .ok none) := by
  intro m us
  have hmax : max n 1 = n := Nat.max_eq_left hn
  have hfollows : Follows n own rs us m := by
    have hrun : Follows (max n 1) own rs us m := follows_run hrs
    rwa [hmax] at hrun
  refine ⟨hfollows.ranked.capacity ▸ hfollows.ranked.tidy.room, fun now form k context hnow => ?_⟩
  intro answer
  have hanswer : answer =
      .ok ((m.find? k).bind fun s => if s.isExpired now then none else some s.record) :=
    serve_read hfollows.intact form k context
  refine ⟨fun w hw hfresh hrank => ?_, fun hexpired => ?_, fun hlasting hrank => ?_⟩
  · rw [hanswer, hfollows.find?_eq_some hw hfresh hrank hnow, Option.bind_some, hfresh]
    rfl
  · rw [hanswer]
    cases hfind : m.find? k with
    | none => rfl
    | some s =>
        obtain ⟨w, hw, rfl⟩ := hfollows.stands k s hfind
        rw [Option.bind_some, hexpired w hw]
        rfl
  · have hexact : m.keys = (recency us).take n := by
      have hrun : Exact (max n 1) us m := exact_run hrs hlasting
      rwa [hmax] at hrun
    have hgone : k ∉ m.keys := by
      intro hk
      rw [hexact] at hk
      have hlt := length_takeWhile_lt hk
      rw [length_takeWhile_recency] at hlt
      exact Nat.not_lt.2 hrank hlt
    rw [hanswer, find?_eq_none hgone]
    rfl

def minute : Span := ⟨60000000000, by decide⟩

def overtaken : History :=
  [(⟨0, 0⟩, .write .blocking ⟨⟨"a"⟩, ⟨0, .string "first"⟩⟩ {}),
    (⟨0, 1⟩, .writeAll .batch [⟨⟨"b"⟩, ⟨0, .string "old"⟩⟩, ⟨⟨"b"⟩, ⟨0, .string "new"⟩⟩] {}),
    (⟨0, 2⟩, .read .blocking ⟨"a"⟩ {}),
    (⟨0, 3⟩, .write .async ⟨⟨"c"⟩, ⟨0, .string "third"⟩⟩ { lifetime := some minute })]

theorem answer_of_recency_overtaken :
    let m := store.run overtaken (ofCapacity 2)
    let answer := fun now k => (store.serve now (.read .blocking k {}) m).1
    m.slots.length ≤ 2 ∧
      answer ⟨0, 4⟩ ⟨"a"⟩ = .ok (some (Entry.toJson ⟨0, .string "first"⟩)) ∧
      answer ⟨0, 4⟩ ⟨"b"⟩ = .ok none ∧
      answer ⟨0, 60000000002⟩ ⟨"c"⟩ = .ok (some (Entry.toJson ⟨0, .string "third"⟩)) ∧
      answer ⟨0, 60000000003⟩ ⟨"c"⟩ = .ok none := by
  intro m answer
  have hserved : Served none overtaken := ⟨by decide +kernel, by decide +kernel⟩
  have hlasting : Lasting none overtaken := ⟨by decide +kernel, by decide +kernel⟩
  obtain ⟨hroom, hanswer⟩ := answer_of_recency Nat.two_pos hserved
  have hfirst : overtaken.standing ⟨"a"⟩ =
      some (⟨0, 0⟩, ⟨⟨⟨"a"⟩, ⟨0, .string "first"⟩⟩, none⟩) := by decide +kernel
  have hthird : overtaken.standing ⟨"c"⟩ =
      some (⟨0, 3⟩, ⟨⟨⟨"c"⟩, ⟨0, .string "third"⟩⟩, some minute⟩) := by decide +kernel
  have hclock : ∀ now : Moment, 4 ≤ now.steady → ∀ e ∈ overtaken, e.1.steady ≤ now.steady := by
    intro now hnow e he
    have hle : ∀ e ∈ overtaken, e.1.steady ≤ 4 := by decide +kernel
    exact Nat.le_trans (hle e he) hnow
  have hat := fun now hnow k => hanswer now .blocking k {} (hclock now hnow)
  have hserve := (hat ⟨0, 4⟩ (Nat.le_refl 4) ⟨"a"⟩).1 _ hfirst
  have hserve' := (hat ⟨0, 60000000002⟩ (by decide +kernel) ⟨"c"⟩).1 _ hthird
  refine ⟨hroom, hserve (by decide +kernel) (by decide +kernel), ?_,
    hserve' (by decide +kernel) (by decide +kernel), ?_⟩
  · exact (hat ⟨0, 4⟩ (Nat.le_refl 4) ⟨"b"⟩).2.2 hlasting (by decide +kernel)
  · refine (hat ⟨0, 60000000003⟩ (by decide +kernel) ⟨"c"⟩).2.1 fun w hw => ?_
    obtain rfl := Option.some.inj (hthird.symm.trans hw)
    decide +kernel

end Memory

end ReplyCache
