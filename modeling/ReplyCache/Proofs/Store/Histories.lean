import Mathlib.Data.List.Induction
import ReplyCache.Proofs.Store.Shelf

namespace ReplyCache

namespace Request

def keys : Request → List Key
  | read _ k _ => [k]
  | write _ i _ => [i.key]
  | writeAll _ is _ => is.map Item.key
  | delete ks => ks
  | ping | close => []

def erased : Request → List Key
  | delete ks => ks
  | read .. | write .. | writeAll .. | ping | close => []

end Request

abbrev History := List (Moment × Request)

namespace History

def revise (k : Key) (w : Option (Moment × Pending)) (e : Moment × Request) :
    Option (Moment × Pending) :=
  ((Pending.lastOf k e.2.writes).map (e.1, ·)).or (if k ∈ e.2.erased then none else w)

def standing (rs : History) (k : Key) : Option (Moment × Pending) := rs.foldl (revise k) none

theorem standing_snoc (rs : History) (e : Moment × Request) (k : Key) :
    standing (rs ++ [e]) k = revise k (standing rs k) e := List.foldl_append

theorem revise_eq_some {k : Key} {w : Option (Moment × Pending)} {e : Moment × Request}
    {v : Moment × Pending} : revise k w e = some v ↔
      e.1 = v.1 ∧ Pending.lastOf k e.2.writes = some v.2 ∨
        Pending.lastOf k e.2.writes = none ∧ k ∉ e.2.erased ∧ w = some v := by
  cases hlast : Pending.lastOf k e.2.writes with
  | none => by_cases hk : k ∈ e.2.erased <;> simp [revise, hlast, hk]
  | some q => simp [revise, hlast, Prod.ext_iff]

/-- The write that a fold ends with is the last one of its key that nothing has undone since. -/
theorem foldl_eq_some_iff {k : Key}
    {step : Option (Moment × Pending) → Moment × Request → Option (Moment × Pending)}
    {undone : Moment × Pending → Moment × Request → Prop}
    (hstep : ∀ w e v, step w e = some v ↔
      e.1 = v.1 ∧ Pending.lastOf k e.2.writes = some v.2 ∨
        Pending.lastOf k e.2.writes = none ∧ ¬ undone v e ∧ w = some v)
    {rs : History} {w : Moment × Pending} :
    rs.foldl step none = some w ↔ ∃ rs₁ r rs₂, rs = rs₁ ++ (w.1, r) :: rs₂ ∧
      Pending.lastOf k r.writes = some w.2 ∧
      ∀ e ∈ rs₂, Pending.lastOf k e.2.writes = none ∧ ¬ undone w e := by
  induction rs using List.reverseRecOn with
  | nil => simp
  | append_singleton rs e ih =>
      rw [List.foldl_append, List.foldl_cons, List.foldl_nil, hstep, ih]
      constructor
      · rintro (⟨hnow, hlast⟩ | ⟨hunwritten, hspared, rs₁, r, rs₂, rfl, hlast, hsince⟩)
        · exact ⟨rs, e.2, [], by rw [← hnow], hlast, fun e he => (nomatch he)⟩
        · refine ⟨rs₁, r, rs₂ ++ [e], by simp, hlast, fun e' he' => ?_⟩
          rcases List.mem_append.1 he' with he' | he'
          · exact hsince e' he'
          · obtain rfl := List.mem_singleton.1 he'
            exact ⟨hunwritten, hspared⟩
      · rintro ⟨rs₁, r, rs₂, heq, hlast, hsince⟩
        cases rs₂ using List.reverseRecOn with
        | nil =>
            obtain ⟨-, rfl⟩ := List.append_singleton_inj.1 heq
            exact .inl ⟨rfl, hlast⟩
        | append_singleton rs₂ e' =>
            rw [← List.cons_append, ← List.append_assoc] at heq
            obtain ⟨rfl, rfl⟩ := List.append_singleton_inj.1 heq
            obtain ⟨hunwritten, hspared⟩ := hsince e (by simp)
            exact .inr ⟨hunwritten, hspared, rs₁, r, rs₂, rfl, hlast, fun e' he' =>
              hsince e' (List.mem_append_left _ he')⟩

/-- A write stands if it is the last one of its key and that was not deleted since. -/
theorem standing_eq_some_iff {rs : History} {k : Key} {w : Moment × Pending} :
    rs.standing k = some w ↔ ∃ rs₁ r rs₂, rs = rs₁ ++ (w.1, r) :: rs₂ ∧
      Pending.lastOf k r.writes = some w.2 ∧
      ∀ e ∈ rs₂, Pending.lastOf k e.2.writes = none ∧ k ∉ e.2.erased :=
  foldl_eq_some_iff fun _ _ _ => revise_eq_some

theorem mem_of_standing {rs : History} {k : Key} {w : Moment × Pending}
    (h : rs.standing k = some w) :
    ∃ e ∈ rs, e.1 = w.1 ∧ w.2 ∈ e.2.writes ∧ w.2.item.key = k := by
  obtain ⟨rs₁, r, rs₂, rfl, hlast, -⟩ := standing_eq_some_iff.1 h
  obtain ⟨hmem, hkey⟩ := Pending.key_of_lastOf hlast
  exact ⟨(w.1, r), by simp, rfl, hmem, hkey⟩

end History

def Answered.faults {α : Type} : Answered α → List Fault
  | .error (.fault f) => [f]
  | .error .crash | .ok _ => []

namespace Store

variable {σ : Type}

def run (store : Store σ) (rs : History) (s : σ) : σ :=
  rs.foldl (fun s e => (store.serve e.1 e.2 s).2) s

theorem run_snoc (store : Store σ) (rs : History) (e : Moment × Request) (s : σ) :
    store.run (rs ++ [e]) s = (store.serve e.1 e.2 (store.run rs s)).2 := List.foldl_append

def faults (store : Store σ) : History → σ → List Fault
  | [], _ => []
  | (now, r) :: rs, s => (store.serve now r s).1.faults ++ faults store rs (store.serve now r s).2

theorem faults_append (store : Store σ) (rs rs' : History) (s : σ) :
    store.faults (rs ++ rs') s = store.faults rs s ++ store.faults rs' (store.run rs s) := by
  induction rs generalizing s with
  | nil => rfl
  | cons e rs ih =>
      rw [List.cons_append, faults, faults, ih, List.append_assoc]
      rfl

end Store

end ReplyCache
