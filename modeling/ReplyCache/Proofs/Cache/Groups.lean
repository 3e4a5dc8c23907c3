import ReplyCache.Proofs.Store.Shelf

namespace ReplyCache

namespace Span

def rank : Option Span → Nat
  | none => 0
  | some s => s.nanoseconds + 1

theorem compareOption_eq (a b : Option Span) : compareOption a b = compare (rank a) (rank b) := by
  cases a with
  | none =>
      cases b with
      | none => rfl
      | some t => exact (Nat.compare_eq_lt.2 (Nat.succ_pos _)).symm
  | some s =>
      cases b with
      | none => exact (Nat.compare_eq_gt.2 (Nat.succ_pos _)).symm
      | some t =>
          simp [compareOption, rank, Nat.compare_eq_ite_lt]

theorem compareOption_ne_gt {a b : Option Span} : compareOption a b ≠ .gt ↔ rank a ≤ rank b := by
  rw [compareOption_eq]
  exact Nat.compare_ne_gt

theorem rank_injective {a b : Option Span} (h : rank a = rank b) : a = b := by
  cases a with
  | none =>
      cases b with
      | none => rfl
      | some t => simp [rank] at h
  | some s =>
      cases b with
      | none => simp [rank] at h
      | some t =>
          obtain ⟨m, hm⟩ := s
          obtain ⟨n, hn⟩ := t
          obtain rfl : m = n := by simpa [rank] using h
          rfl

end Span

namespace Pending

def spread (gs : List (Option Span × List Item)) : List Pending :=
  gs.flatMap fun g => g.2.map fun i => ⟨i, g.1⟩

/-- The writes in the order in which they reach the store. -/
def byLifetime (ps : List Pending) : List Pending := spread (Action.groupByLifetime ps)

theorem spread_cons (g : Option Span × List Item) (gs : List (Option Span × List Item)) :
    spread (g :: gs) = (g.2.map fun i => ⟨i, g.1⟩) ++ spread gs := rfl

theorem lifetime_of_mem_spread {gs : List (Option Span × List Item)} {p : Pending}
    (h : p ∈ spread gs) : ∃ g ∈ gs, p.lifetime = g.1 := by
  obtain ⟨g, hg, hp⟩ := List.mem_flatMap.1 h
  obtain ⟨i, -, rfl⟩ := List.mem_map.1 hp
  exact ⟨g, hg, rfl⟩

def Ordered (gs : List (Option Span × List Item)) : Prop :=
  gs.Pairwise fun g h => Span.rank g.1 < Span.rank h.1

theorem lifetime_of_mem_insert (p : Pending) {gs : List (Option Span × List Item)} :
    ∀ g ∈ Action.insertByLifetime p gs, g.1 = p.lifetime ∨ ∃ g' ∈ gs, g.1 = g'.1 := by
  induction gs with
  | nil => simp [Action.insertByLifetime]
  | cons g gs ih =>
      intro g' hg'
      simp only [Action.insertByLifetime] at hg'
      split at hg'
      · rcases List.mem_cons.1 hg' with rfl | hg'
        · exact .inl rfl
        · exact .inr ⟨g', hg', rfl⟩
      · rcases List.mem_cons.1 hg' with rfl | hg'
        · exact .inr ⟨g, List.mem_cons_self, rfl⟩
        · exact .inr ⟨g', List.mem_cons_of_mem _ hg', rfl⟩
      · rcases List.mem_cons.1 hg' with rfl | hg'
        · exact .inr ⟨g', List.mem_cons_self, rfl⟩
        · rcases ih g' hg' with heq | ⟨d, hd, heq⟩
          · exact .inl heq
          · exact .inr ⟨d, List.mem_cons_of_mem _ hd, heq⟩

theorem Ordered.rank_lt {g : Option Span × List Item} {gs : List (Option Span × List Item)}
    (h : Ordered (g :: gs)) {l : Option Span} (hl : Span.rank l < Span.rank g.1) :
    ∀ g' ∈ g :: gs, Span.rank l < Span.rank g'.1 :=
  List.forall_mem_cons.2 ⟨hl, fun g' hg' => Nat.lt_trans hl ((List.pairwise_cons.1 h).1 g' hg')⟩

theorem ordered_insert (p : Pending) {gs : List (Option Span × List Item)} (h : Ordered gs) :
    Ordered (Action.insertByLifetime p gs) := by
  induction gs with
  | nil => exact List.pairwise_singleton _ _
  | cons g gs ih =>
      obtain ⟨hfirst, hrest⟩ := List.pairwise_cons.1 h
      simp only [Action.insertByLifetime]
      split
      · rename_i hlt
        rw [Span.compareOption_eq, Nat.compare_eq_lt] at hlt
        exact List.pairwise_cons.2 ⟨h.rank_lt hlt, h⟩
      · exact List.pairwise_cons.2 ⟨hfirst, hrest⟩
      · rename_i hgt
        rw [Span.compareOption_eq, Nat.compare_eq_gt] at hgt
        refine List.pairwise_cons.2 ⟨?_, ih hrest⟩
        intro g' hg'
        rcases lifetime_of_mem_insert p g' hg' with heq | ⟨d, hd, heq⟩
        · rw [heq]
          exact hgt
        · rw [heq]
          exact hfirst d hd

theorem spread_single (p : Pending) (gs : List (Option Span × List Item)) :
    spread ((p.lifetime, [p.item]) :: gs) = p :: spread gs := rfl

theorem filter_spread_eq_nil {gs : List (Option Span × List Item)} {l : Option Span}
    (h : ∀ g ∈ gs, Span.rank l < Span.rank g.1) :
    (spread gs).filter (fun q => q.lifetime = l) = [] := by
  apply List.filter_eq_nil_iff.2
  intro q hq hl
  obtain ⟨g, hg, heq⟩ := lifetime_of_mem_spread hq
  have hlt := h g hg
  rw [← heq, of_decide_eq_true hl] at hlt
  exact Nat.lt_irrefl _ hlt

theorem filter_spread_insert (p : Pending) {gs : List (Option Span × List Item)} (h : Ordered gs)
    (l : Option Span) :
    (spread (Action.insertByLifetime p gs)).filter (fun q => q.lifetime = l) =
      (spread gs).filter (fun q => q.lifetime = l) ++ if p.lifetime = l then [p] else [] := by
  induction gs with
  | nil =>
      rw [Action.insertByLifetime, spread_single, List.filter_cons]
      by_cases hp : p.lifetime = l
      · simp [spread, hp]
      · simp [spread, hp]
  | cons g gs ih =>
      obtain ⟨hfirst, hrest⟩ := List.pairwise_cons.1 h
      simp only [Action.insertByLifetime]
      split
      · rename_i hlt
        rw [Span.compareOption_eq, Nat.compare_eq_lt] at hlt
        rw [spread_single, List.filter_cons]
        by_cases hp : p.lifetime = l
        · rw [filter_spread_eq_nil (hp ▸ h.rank_lt hlt)]
          simp [hp]
        · simp [hp]
      · rename_i hsame
        rw [Span.compareOption_eq, Nat.compare_eq_eq] at hsame
        have heq : p.lifetime = g.1 := Span.rank_injective hsame
        have hself : (⟨p.item, g.1⟩ : Pending) = p := by rw [← heq]
        rw [spread_cons, spread_cons, List.map_append, List.map_singleton, hself,
          List.filter_append, List.filter_append, List.filter_append]
        by_cases hp : p.lifetime = l
        · have hl : g.1 = l := heq.symm.trans hp
          rw [filter_spread_eq_nil (hl ▸ hfirst)]
          simp [hp]
        · simp [hp]
      · rw [spread_cons, spread_cons, List.filter_append, List.filter_append, ih hrest,
          List.append_assoc]

theorem foldl_insert (ps : List Pending) {gs : List (Option Span × List Item)} (h : Ordered gs) :
    Ordered (ps.foldl (fun gs p => Action.insertByLifetime p gs) gs) ∧
      ∀ l, (spread (ps.foldl (fun gs p => Action.insertByLifetime p gs) gs)).filter
          (fun q => q.lifetime = l) =
        (spread gs).filter (fun q => q.lifetime = l) ++ ps.filter fun q => q.lifetime = l := by
  induction ps generalizing gs with
  | nil => exact ⟨h, fun l => (List.append_nil _).symm⟩
  | cons p ps ih =>
      obtain ⟨hordered, hfilter⟩ := ih (ordered_insert p h)
      refine ⟨hordered, fun l => ?_⟩
      rw [List.foldl_cons, hfilter l, filter_spread_insert p h l, List.filter_cons]
      by_cases hp : p.lifetime = l
      · simp [hp]
      · simp [hp]

theorem filter_byLifetime (ps : List Pending) (l : Option Span) :
    (byLifetime ps).filter (fun q => q.lifetime = l) = ps.filter fun q => q.lifetime = l :=
  (foldl_insert ps List.Pairwise.nil).2 l

theorem mem_byLifetime {ps : List Pending} {p : Pending} : p ∈ byLifetime ps ↔ p ∈ ps := by
  have hfilter := filter_byLifetime ps p.lifetime
  constructor
  · intro h
    have hmem : p ∈ (byLifetime ps).filter fun q => q.lifetime = p.lifetime := by simp [h]
    rw [hfilter] at hmem
    exact (List.mem_filter.1 hmem).1
  · intro h
    have hmem : p ∈ ps.filter fun q => q.lifetime = p.lifetime := by simp [h]
    rw [← hfilter] at hmem
    exact (List.mem_filter.1 hmem).1

theorem perm_spread_insert (p : Pending) (gs : List (Option Span × List Item)) :
    (spread (Action.insertByLifetime p gs)).Perm (p :: spread gs) := by
  induction gs with
  | nil => exact List.Perm.refl [p]
  | cons g gs ih =>
      simp only [Action.insertByLifetime]
      split
      · exact List.Perm.refl _
      · rename_i hsame
        rw [Span.compareOption_eq, Nat.compare_eq_eq] at hsame
        have hself : (⟨p.item, g.1⟩ : Pending) = p := by rw [← Span.rank_injective hsame]
        rw [spread_cons, spread_cons, List.map_append, List.map_singleton, hself, List.append_assoc]
        exact List.perm_middle
      · rw [spread_cons, spread_cons]
        exact (ih.append_left _).trans List.perm_middle

theorem perm_byLifetime (ps : List Pending) : (byLifetime ps).Perm ps := by
  have hfold : ∀ gs, (spread (ps.foldl (fun gs p => Action.insertByLifetime p gs) gs)).Perm
      (spread gs ++ ps) := by
    induction ps with
    | nil =>
        intro gs
        rw [List.append_nil]
        exact List.Perm.refl _
    | cons p ps ih =>
        intro gs
        refine (ih _).trans (((perm_spread_insert p gs).append_right ps).trans ?_)
        exact List.perm_middle.symm
  exact hfold []

theorem sorted_spread {gs : List (Option Span × List Item)} (h : Ordered gs) :
    (spread gs).Pairwise fun p q => Span.rank p.lifetime ≤ Span.rank q.lifetime := by
  induction gs with
  | nil => exact List.Pairwise.nil
  | cons g gs ih =>
      obtain ⟨hfirst, hrest⟩ := List.pairwise_cons.1 h
      rw [spread_cons, List.pairwise_append]
      refine ⟨?_, ih hrest, ?_⟩
      · exact List.pairwise_map.2 (List.pairwise_of_forall fun _ _ => Nat.le_refl _)
      · intro p hp q hq
        obtain ⟨i, -, rfl⟩ := List.mem_map.1 hp
        obtain ⟨g', hg', heq⟩ := lifetime_of_mem_spread hq
        rw [heq]
        exact Nat.le_of_lt (hfirst g' hg')

theorem sorted_byLifetime (ps : List Pending) :
    (byLifetime ps).Pairwise fun p q => Span.rank p.lifetime ≤ Span.rank q.lifetime :=
  sorted_spread (foldl_insert ps List.Pairwise.nil).1

theorem byLifetime_eq_self {ps : List Pending} {l : Option Span} (h : ∀ p ∈ ps, p.lifetime = l) :
    byLifetime ps = ps := by
  have hfilter := filter_byLifetime ps l
  rwa [List.filter_eq_self.2 fun p hp => by simp [h p (mem_byLifetime.1 hp)],
    List.filter_eq_self.2 fun p hp => by simp [h p hp]] at hfilter

theorem filter_key_eq_append {k : Key} {ps : List Pending} {w : Pending}
    (h : lastOf k ps = some w) : ∃ qs, ps.filter (fun p => p.item.key = k) = qs ++ [w] :=
  List.getLast?_eq_some_iff.1 h

theorem rank_le_lastOf {k : Key} {ps : List Pending} {w : Pending} (h : lastOf k ps = some w)
    (hsorted : ps.Pairwise fun p q => Span.rank p.lifetime ≤ Span.rank q.lifetime) :
    ∀ p ∈ ps, p.item.key = k → Span.rank p.lifetime ≤ Span.rank w.lifetime := by
  intro p hp hk
  obtain ⟨qs, hqs⟩ := filter_key_eq_append h
  have hsorted' := hsorted.sublist (List.filter_sublist (p := fun p => decide (p.item.key = k)))
  have hmem : p ∈ ps.filter fun p => p.item.key = k := by simp [hp, hk]
  rw [hqs] at hsorted' hmem
  rcases List.mem_append.1 hmem with hmem | hmem
  · exact (List.pairwise_append.1 hsorted').2.2 p hmem w (by simp)
  · obtain rfl := List.mem_singleton.1 hmem
    exact Nat.le_refl _

theorem lastOf_filter {k : Key} {ps : List Pending} {w : Pending} (h : lastOf k ps = some w) :
    lastOf k (ps.filter fun p => p.lifetime = w.lifetime) = some w := by
  obtain ⟨qs, hqs⟩ := filter_key_eq_append h
  have hcomm : (ps.filter fun p => p.lifetime = w.lifetime).filter (fun p => p.item.key = k) =
      (ps.filter fun p => p.item.key = k).filter fun p => p.lifetime = w.lifetime := by
    rw [List.filter_filter, List.filter_filter]
    exact List.filter_congr fun p _ => Bool.and_comm _ _
  rw [lastOf, hcomm, hqs, List.filter_append]
  simp

/-- A write is the last of its key to reach the store if it is the last of them that was held back
and no other lives longer. -/
theorem lastOf_byLifetime {k : Key} {ps : List Pending} {w : Pending} (h : lastOf k ps = some w) :
    lastOf k (byLifetime ps) = some w ↔
      ∀ p ∈ ps, p.item.key = k → Span.rank p.lifetime ≤ Span.rank w.lifetime := by
  obtain ⟨hw, hkey⟩ := key_of_lastOf h
  constructor
  · intro hlast p hp hk
    exact rank_le_lastOf hlast (sorted_byLifetime ps) p (mem_byLifetime.2 hp) hk
  · intro hmax
    cases hlast : lastOf k (byLifetime ps) with
    | none => exact (lastOf_eq_none.1 hlast w (mem_byLifetime.2 hw) hkey).elim
    | some v =>
        obtain ⟨hv, hvkey⟩ := key_of_lastOf hlast
        have hle := rank_le_lastOf hlast (sorted_byLifetime ps) w (mem_byLifetime.2 hw) hkey
        have hge := hmax v (mem_byLifetime.1 hv) hvkey
        have hlife := Span.rank_injective (Nat.le_antisymm hge hle)
        have hv' := lastOf_filter hlast
        rw [filter_byLifetime, hlife, lastOf_filter h] at hv'
        exact hv'.symm

end Pending

end ReplyCache
