import ReplyCache.Proofs.Cache.Actions

namespace ReplyCache

namespace Action

variable {σ α β : Type} {P : Cache σ → Prop}

def Ensures (P : Cache σ → Prop) (act : Action σ α) (Q : α → Cache σ → Prop) : Prop :=
  ∀ c a c', P c → result act c = (.ok a, c') → Q a c'

namespace Ensures

variable {act : Action σ α} {Q : α → Cache σ → Prop} {R : β → Cache σ → Prop}

theorem of_result {a : Cache σ → α} {f : Cache σ → Cache σ}
    (hr : ∀ c, result act c = (.ok (a c), f c)) (h : ∀ c, P c → Q (a c) (f c)) :
    Ensures P act Q := by
  intro c b c' hc hb
  rw [hr] at hb
  obtain ⟨ha, rfl⟩ := Prod.mk.inj hb
  obtain rfl := Except.ok.inj ha
  exact h c hc

theorem pure {a : α} (h : ∀ c, P c → Q a c) : Ensures P (Pure.pure a) Q :=
  of_result (result_pure a) h

theorem bind {f : α → Action σ β} (h : Ensures P act Q) (hf : ∀ a, Ensures (Q a) (f a) R) :
    Ensures P (act >>= f) R := by
  intro c b c' hc hr
  rw [result_bind] at hr
  cases hact : result act c with
  | mk answer c₁ =>
      rw [hact] at hr
      cases answer with
      | ok a => exact hf a c₁ b c' (h c a c₁ hc hact) hr
      | error e => cases hr

theorem get_bind {f : Cache σ → Action σ β} (hf : ∀ c, P c → Ensures (· = c) (f c) R) :
    Ensures P (get >>= f) R := by
  intro c b c' hc hr
  exact hf c hc c b c' rfl hr

theorem modify {f : Cache σ → Cache σ} {Q : PUnit → Cache σ → Prop} (h : ∀ c, P c → Q ⟨⟩ (f c)) :
    Ensures P (modify f) Q :=
  of_result (result_modify f) h

theorem ite {p : Prop} [Decidable p] {act' : Action σ α} (h : p → Ensures P act Q)
    (h' : ¬ p → Ensures P act' Q) : Ensures P (if p then act else act') Q := by
  split
  · exact h ‹p›
  · exact h' ‹¬ p›

theorem assuming {p : Prop} (h : p → Ensures P act Q) : Ensures (fun c => p ∧ P c) act Q :=
  fun c a c' hc hr => h hc.1 c a c' hc.2 hr

theorem of_imp {P' : Cache σ → Prop} (h : Ensures P act Q) (hP : ∀ c, P' c → P c) :
    Ensures P' act Q :=
  fun c a c' hc hr => h c a c' (hP c hc) hr

theorem imp {Q' : α → Cache σ → Prop} (h : Ensures P act Q) (hQ : ∀ a c, Q a c → Q' a c) :
    Ensures P act Q' :=
  fun c a c' hc hr => hQ a c' (h c a c' hc hr)

theorem and {P' : Cache σ → Prop} {Q' : α → Cache σ → Prop} (h : Ensures P act Q)
    (h' : Ensures P' act Q') : Ensures (fun c => P c ∧ P' c) act fun a c => Q a c ∧ Q' a c :=
  fun c a c' hc hr => ⟨h c a c' hc.1 hr, h' c a c' hc.2 hr⟩

end Ensures

/-- What does not depend on the contents stays so whatever the store does. -/
theorem ensures_ask (hP : ∀ c s, P c → P { c with contents := s }) (store : Store σ) (now : Moment)
    (r : Request) : Ensures P (ask store now r) fun _ => P := by
  intro c a c' hc hr
  rw [result_ask] at hr
  cases hserve : store.serve now r c.contents with
  | mk answer s =>
      rw [hserve] at hr
      cases answer with
      | ok b =>
          obtain ⟨-, rfl⟩ := Prod.mk.inj hr
          exact hP c s hc
      | error x =>
          cases x with
          | crash => cases hr
          | fault f =>
              obtain ⟨-, rfl⟩ := Prod.mk.inj hr
              exact hP c s hc

theorem ensures_mapM {γ : Type} {f : γ → Action σ β} (hf : ∀ x, Ensures P (f x) fun _ => P)
    (xs : List γ) : Ensures P (xs.mapM f) fun ys c => ys.length = xs.length ∧ P c := by
  induction xs with
  | nil => exact Ensures.pure fun c hc => ⟨rfl, hc⟩
  | cons x xs ih =>
      rw [List.mapM_cons]
      refine (hf x).bind fun y => ih.bind fun ys => Ensures.pure ?_
      rintro c ⟨hlen, hc⟩
      exact ⟨congrArg (· + 1) hlen, hc⟩

end Action

end ReplyCache
