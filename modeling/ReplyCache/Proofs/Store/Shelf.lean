import ReplyCache.Proofs.Cache.Requests

namespace ReplyCache

namespace Request

def writes : Request → List Pending
  | write _ i o => [⟨i, o.lifetime⟩]
  | writeAll _ is o => is.map fun i => ⟨i, o.lifetime⟩
  | read .. | delete _ | ping | close => []

def isWrite : Request → Bool
  | write .. | writeAll .. => true
  | read .. | delete _ | ping | close => false

end Request

namespace Capabilities

def offers (can : Capabilities) : Request → Bool
  | .read form .. | .write form .. => form = .blocking || can.async
  | .writeAll .batch .. => can.batch
  | .writeAll .pipeline .. => can.pipeline
  | .delete _ => can.delete
  | .ping => can.ping
  | .close => true

end Capabilities

namespace Pending

def lastOf (k : Key) (ps : List Pending) : Option Pending :=
  (ps.filter fun p => p.item.key = k).getLast?

theorem lastOf_append (k : Key) (ps qs : List Pending) :
    lastOf k (ps ++ qs) = (lastOf k qs).or (lastOf k ps) := by
  simp only [lastOf]
  rw [List.filter_append, List.getLast?_append]

theorem lastOf_singleton (k : Key) (p : Pending) :
    lastOf k [p] = if p.item.key = k then some p else none := by
  simp only [lastOf]
  by_cases hp : p.item.key = k
  · simp [hp]
  · simp [hp]

theorem lastOf_eq_none {k : Key} {ps : List Pending} :
    lastOf k ps = none ↔ ∀ p ∈ ps, p.item.key ≠ k := by
  simp only [lastOf]
  simp

theorem key_of_lastOf {k : Key} {ps : List Pending} {p : Pending} (h : lastOf k ps = some p) :
    p ∈ ps ∧ p.item.key = k := by
  simpa using List.mem_of_getLast? h

end Pending

abbrev Shelf := Key → Option Pending

namespace Shelf

def put (sh : Shelf) (p : Pending) : Shelf := fun k => if p.item.key = k then some p else sh k

def putAll (sh : Shelf) (ps : List Pending) : Shelf := ps.foldl put sh

theorem putAll_append (sh : Shelf) (ps qs : List Pending) :
    sh.putAll (ps ++ qs) = (sh.putAll ps).putAll qs := List.foldl_append

theorem putAll_cons (sh : Shelf) (p : Pending) (ps : List Pending) :
    sh.putAll (p :: ps) = (sh.put p).putAll ps := rfl

theorem putAll_apply (sh : Shelf) (ps : List Pending) (k : Key) :
    sh.putAll ps k = (Pending.lastOf k ps).or (sh k) := by
  induction ps generalizing sh with
  | nil => rfl
  | cons p ps ih =>
      rw [putAll_cons, ih, ← List.singleton_append, Pending.lastOf_append,
        Pending.lastOf_singleton, Option.or_assoc]
      congr 1
      simp only [put]
      split <;> rfl

theorem putAll_eq_none {sh : Shelf} {ps : List Pending} {k : Key} :
    sh.putAll ps k = none ↔ (∀ p ∈ ps, p.item.key ≠ k) ∧ sh k = none := by
  rw [putAll_apply, Option.or_eq_none_iff, Pending.lastOf_eq_none]

theorem mem_of_putAll {sh : Shelf} {ps : List Pending} {k : Key} {p : Pending}
    (h : sh.putAll ps k = some p) : p ∈ ps ∨ sh k = some p := by
  rw [putAll_apply] at h
  rcases Option.or_eq_some_iff.1 h with h | ⟨-, h⟩
  · exact .inl (Pending.key_of_lastOf h).1
  · exact .inr h

def without (sh : Shelf) (ks : List Key) : Shelf := fun k => if k ∈ ks then none else sh k

theorem without_nil (sh : Shelf) : sh.without [] = sh := by
  funext k
  exact if_neg List.not_mem_nil

theorem without_cons (sh : Shelf) (k : Key) (ks : List Key) :
    sh.without (k :: ks) = (sh.without [k]).without ks := by
  funext j
  by_cases hj : j = k <;> by_cases hks : j ∈ ks <;> simp [without, hj, hks]

theorem of_without {sh : Shelf} {ks : List Key} {k : Key} {p : Pending}
    (h : sh.without ks k = some p) : sh k = some p := by
  simp only [without] at h
  split at h
  · cases h
  · exact h

def Within (n : Nat) (sh : Shelf) : Prop :=
  ∃ ks : List Key, ks.length ≤ n ∧ ∀ k, sh k ≠ none → k ∈ ks

def All (P : Pending → Prop) (sh : Shelf) : Prop := ∀ k p, sh k = some p → P p

theorem all_empty (P : Pending → Prop) : All P fun _ => none := by
  intro k p h
  cases h

theorem All.putAll {P : Pending → Prop} {sh : Shelf} (h : sh.All P) {ps : List Pending}
    (hps : ∀ p ∈ ps, P p) : (sh.putAll ps).All P := by
  intro k p hp
  rcases mem_of_putAll hp with hp | hp
  · exact hps p hp
  · exact h k p hp

theorem All.without {P : Pending → Prop} {sh : Shelf} (h : sh.All P) (ks : List Key) :
    (sh.without ks).All P :=
  fun k p hp => h k p (of_without hp)

end Shelf

namespace Store

variable {σ : Type} {store : Store σ} {Holds : σ → Shelf → Prop} {good : Moment → Prop}
  {takes : Pending → Prop}

/-- A store keeps what it is asked to write, as far as it takes it and at the moments at which it
does. -/
structure Keeps (store : Store σ) (Holds : σ → Shelf → Prop) (good : Moment → Prop)
    (takes : Pending → Prop) : Prop where
  serve : ∀ {now : Moment} {r : Request} {s : σ} {sh : Shelf}, r.isWrite = true →
    store.capabilities.offers r = true → Holds s sh → good now → (∀ p ∈ r.writes, takes p) →
    ∃ a s', store.serve now r s = (.ok a, s') ∧ Holds s' (sh.putAll r.writes)

def Writing (store : Store σ) (rs : List Request) : Prop :=
  ∀ r ∈ rs, r.isWrite = true ∧ store.capabilities.offers r = true

theorem Keeps.serveAll (hk : store.Keeps Holds good takes) {now : Moment} (hnow : good now)
    {rs : List Request} {s : σ} {sh : Shelf} (hrs : store.Writing rs) (hs : Holds s sh)
    (ht : ∀ p ∈ rs.flatMap Request.writes, takes p) :
    Holds (store.serveAll now rs s).2 (sh.putAll (rs.flatMap Request.writes)) := by
  induction rs generalizing s sh with
  | nil => exact hs
  | cons r rs ih =>
      obtain ⟨hwrite, hoffers⟩ := hrs r List.mem_cons_self
      rw [List.flatMap_cons] at ht
      obtain ⟨a, s', hserve, hs'⟩ := hk.serve hwrite hoffers hs hnow fun p hp =>
        ht p (List.mem_append_left _ hp)
      rw [List.flatMap_cons, Shelf.putAll_append, Store.serveAll, hserve]
      exact ih (fun r' hr' => hrs r' (List.mem_cons_of_mem _ hr')) hs' fun p hp =>
        ht p (List.mem_append_right _ hp)

/-- A read finds the record of what a store holds under the key, and the store holds that still. -/
def Recalls (store : Store σ) (Holds : σ → Shelf → Prop) : Prop :=
  ∀ {now : Moment} {form : Form} {k : Key} {context : Context} {s : σ} {sh : Shelf}, Holds s sh →
    ∃ s', store.serve now (.read form k context) s =
      (.ok ((sh k).map fun p => p.item.entry.toJson), s') ∧ Holds s' sh

/-- What a store lacks it does not serve, and it lacks what was deleted until that is written. -/
structure Forgets (store : Store σ) (Lacks : Key → σ → Prop) : Prop where
  delete : ∀ {now : Moment} {ks : List Key} {s s' : σ} {n : Nat},
    store.serve now (.delete ks) s = (.ok n, s') → ∀ k ∈ ks, Lacks k s'
  serve : ∀ {now : Moment} {r : Request} {s : σ} {k : Key}, Lacks k s →
    (∀ p ∈ r.writes, p.item.key ≠ k) → Lacks k (store.serve now r s).2
  read : ∀ {now : Moment} {form : Form} {k : Key} {context : Context} {s : σ} {v : Json},
    Lacks k s → (store.serve now (.read form k context) s).1 ≠ .ok (some v)

theorem Forgets.serveAll {Lacks : Key → σ → Prop} (hf : store.Forgets Lacks)
    {k : Key} (now : Moment) {rs : List Request} {s : σ} (hs : Lacks k s)
    (hrs : ∀ p ∈ rs.flatMap Request.writes, p.item.key ≠ k) :
    Lacks k (store.serveAll now rs s).2 := by
  induction rs generalizing s with
  | nil => exact hs
  | cons r rs ih =>
      rw [List.flatMap_cons] at hrs
      have hs' : Lacks k (store.serve now r s).2 := hf.serve hs fun p hp =>
        hrs p (List.mem_append_left _ hp)
      have hrest := ih hs' fun p hp => hrs p (List.mem_append_right _ hp)
      simp only [Store.serveAll]
      cases hserve : store.serve now r s with
      | mk answer s' =>
          rw [hserve] at hs' hrest
          cases answer with
          | ok a => exact hrest
          | error f => cases f <;> assumption

theorem writing_writing (items : List Item) (options : WriteOptions) :
    store.Writing (store.writing items options) := by
  simp only [Writing, Store.writing]
  intro r hr
  split at hr
  · cases hr
  · split at hr
    · obtain ⟨i, -, rfl⟩ := List.mem_map.1 hr
      exact ⟨rfl, by simp [Capabilities.offers]⟩
    · rename_i hasync
      split at hr
      · rename_i hpipeline
        obtain rfl := List.mem_singleton.1 hr
        exact ⟨rfl, hpipeline⟩
      · split at hr
        · rename_i hbatch
          obtain rfl := List.mem_singleton.1 hr
          exact ⟨rfl, hbatch⟩
        · obtain ⟨i, -, rfl⟩ := List.mem_map.1 hr
          exact ⟨rfl, by simpa [Capabilities.offers] using hasync⟩

theorem writes_writing (items : List Item) (options : WriteOptions) :
    (store.writing items options).flatMap Request.writes =
      items.map fun i => ⟨i, options.lifetime⟩ := by
  simp only [Store.writing]
  split
  · rename_i hnil
    rw [List.isEmpty_iff.1 hnil]
    rfl
  · split
    · rw [List.flatMap_map, List.map_eq_flatMap]
      rfl
    · split
      · simp [Request.writes]
      · split
        · simp [Request.writes]
        · rw [List.flatMap_map, List.map_eq_flatMap]
          rfl

end Store

end ReplyCache
