import ReplyCache.Cache.Operation

namespace ReplyCache

namespace Cache

variable {σ : Type} {store : Store σ} {P Q : Cache σ → Moment → Operation → Prop}

theorem run_cons (store : Store σ) (now : Moment) (o : Operation) (os : List (Moment × Operation))
    (c : Cache σ) : c.run store ((now, o) :: os) = (c.step store now o).2.run store os := rfl

theorem run_append (store : Store σ) (os os' : List (Moment × Operation)) (c : Cache σ) :
    c.run store (os ++ os') = (c.run store os).run store os' := List.foldl_append

theorem run_snoc (store : Store σ) (os : List (Moment × Operation)) (now : Moment) (o : Operation)
    (c : Cache σ) : c.run store (os ++ [(now, o)]) = ((c.run store os).step store now o).2 :=
  run_append store os _ c

/-- Each operation of a run has a property, at the cache that it meets. -/
def Along (store : Store σ) (P : Cache σ → Moment → Operation → Prop) (c : Cache σ)
    (os : List (Moment × Operation)) : Prop :=
  ∀ os₁ now o os₂, os = os₁ ++ (now, o) :: os₂ → P (c.run store os₁) now o

theorem along_nil (c : Cache σ) : Along store P c [] := by
  intro os₁ now o os₂ h
  simp at h

theorem along_cons {c : Cache σ} {now : Moment} {o : Operation} {os : List (Moment × Operation)} :
    Along store P c ((now, o) :: os) ↔ P c now o ∧ Along store P (c.step store now o).2 os := by
  constructor
  · intro h
    refine ⟨h [] now o os rfl, fun os₁ now' o' os₂ heq => ?_⟩
    exact h ((now, o) :: os₁) now' o' os₂ (by rw [heq]; rfl)
  · rintro ⟨hfirst, hrest⟩ os₁ now' o' os₂ heq
    cases os₁ with
    | nil =>
        obtain ⟨hx, -⟩ := List.cons.inj heq
        obtain ⟨rfl, rfl⟩ := Prod.mk.inj hx
        exact hfirst
    | cons x os₁ =>
        obtain ⟨rfl, hos⟩ := List.cons.inj heq
        exact hrest os₁ now' o' os₂ hos

theorem along_append {c : Cache σ} {os os' : List (Moment × Operation)} :
    Along store P c (os ++ os') ↔ Along store P c os ∧ Along store P (c.run store os) os' := by
  induction os generalizing c with
  | nil => exact ⟨fun h => ⟨along_nil c, h⟩, And.right⟩
  | cons x os ih =>
      obtain ⟨now, o⟩ := x
      rw [List.cons_append, along_cons, ih, along_cons, and_assoc, run_cons]

instance decidableAlong [∀ c now o, Decidable (P c now o)] :
    (c : Cache σ) → (os : List (Moment × Operation)) → Decidable (Along store P c os)
  | c, [] => .isTrue (along_nil c)
  | c, (now, o) :: os =>
    have := decidableAlong (c.step store now o).2 os
    decidable_of_iff _ along_cons.symm

/-- Two properties hold along the same runs, if they do so at every cache that a run comes to from a
cache of a kind, and each keeps the kind. -/
theorem along_congr {I : Cache σ → Prop}
    (hstep : ∀ c now o, I c → (P c now o ↔ Q c now o) ∧ (P c now o → I (c.step store now o).2))
    (os : List (Moment × Operation)) {c : Cache σ} (hc : I c) :
    Along store P c os ↔ Along store Q c os := by
  induction os generalizing c with
  | nil => exact iff_of_true (along_nil c) (along_nil c)
  | cons x os ih =>
      obtain ⟨now, o⟩ := x
      obtain ⟨hiff, hkeep⟩ := hstep c now o hc
      rw [along_cons, along_cons, ← hiff]
      exact and_congr_right fun hp => ih (hkeep hp)

def gather {β : Type} (store : Store σ) (f : Cache σ → Moment → Operation → List β) :
    Cache σ → List (Moment × Operation) → List β
  | _, [] => []
  | c, (now, o) :: os => f c now o ++ gather store f (c.step store now o).2 os

variable {β : Type} {f : Cache σ → Moment → Operation → List β}

theorem gather_append (c : Cache σ) (os os' : List (Moment × Operation)) :
    gather store f c (os ++ os') = gather store f c os ++ gather store f (c.run store os) os' := by
  induction os generalizing c with
  | nil => rfl
  | cons x os ih =>
      obtain ⟨now, o⟩ := x
      rw [List.cons_append, gather, gather, ih, List.append_assoc, run_cons]

theorem gather_snoc (c : Cache σ) (os : List (Moment × Operation)) (now : Moment) (o : Operation) :
    gather store f c (os ++ [(now, o)]) = gather store f c os ++ f (c.run store os) now o := by
  rw [gather_append, gather, gather, List.append_nil]

end Cache

end ReplyCache
