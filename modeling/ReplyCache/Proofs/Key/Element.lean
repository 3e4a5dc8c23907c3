import ReplyCache.Policy
import ReplyCache.Proofs.Key.Dependence

namespace ReplyCache

namespace Call

theorem get?_eraseWithin_of_ne (c : Call) {name n : String} (h : n ≠ name) (member : String) :
    (c.eraseWithin name member).get? n = c.get? n := by
  simp only [eraseWithin]
  split
  · exact SortedMap.get?_insert_of_ne _ h _
  · rfl

theorem object?_eraseWithin (c : Call) (name member : String) :
    ((c.eraseWithin name member).get? name).bind Json.object? =
      ((c.get? name).bind Json.object?).map (Members.erase member) := by
  simp only [eraseWithin]
  cases hget : c.get? name with
  | none =>
      dsimp only
      rw [hget]
      rfl
  | some v =>
      cases v with
      | object members =>
          have hinsert : (c.insert name (.object (Members.erase member members))).get? name =
              some (.object (Members.erase member members)) := SortedMap.get?_insert_self _ _ _
          dsimp only
          rw [hinsert]
          rfl
      | null | bool | number | string | array =>
          dsimp only
          rw [hget]
          rfl

theorem runtime?_eraseWithin (c : Call) (member : String) :
    (c.eraseWithin runtimeName member).runtime? = c.runtime?.map (Members.erase member) :=
  c.object?_eraseWithin runtimeName member

/-- A call for one element of another call's input, without a key of its own. -/
structure Single (a : Call) (x : Json) (b : Call) : Prop where
  input : b.get? inputName = some x
  params : ∀ n, n ≠ inputName → n ≠ keyName → n ≠ runtimeName → b.get? n = a.get? n
  runtime : ∀ field, field ≠ presetKeyName →
    b.runtime?.bind (Members.get? field) = a.runtime?.bind (Members.get? field)
  ownKey : b.ownKey? = none

theorem single_withInput (a : Call) (x : Json) : a.Single x (a.withInput x) := by
  have hget : ∀ n, n ≠ runtimeName → n ≠ keyName →
      (a.withInput x).get? n = (a.params.insert inputName x).get? n := by
    intro n hruntime hkey
    exact (get?_eraseWithin_of_ne _ hruntime _).trans (SortedMap.get?_erase_of_ne _ hkey)
  have hruntime : (a.withInput x).runtime? = a.runtime?.map (Members.erase presetKeyName) := by
    have hkept : runtime? ⟨(a.params.insert inputName x).erase keyName⟩ = a.runtime? := by
      simp only [runtime?, get?]
      rw [SortedMap.get?_erase_of_ne _ (by decide), SortedMap.get?_insert_of_ne _ (by decide)]
    rw [withInput, runtime?_eraseWithin, hkept]
  constructor
  · rw [hget _ (by decide) (by decide)]
    exact SortedMap.get?_insert_self _ _ _
  · intro n hinput hkey hne
    rw [hget n hne hkey]
    exact SortedMap.get?_insert_of_ne _ hinput _
  · intro field hfield
    rw [hruntime]
    cases a.runtime? with
    | none => rfl
    | some members => exact Members.get?_erase_of_ne hfield members
  · have hkey : (a.withInput x).get? keyName = none :=
      (get?_eraseWithin_of_ne _ (by decide) _).trans (SortedMap.get?_erase_self _ _)
    rw [ownKey?, hkey, runtimeString?, hruntime]
    cases a.runtime? with
    | none => rfl
    | some members => simp [Members.get?_erase_self]

namespace Single

variable {a b b' : Call} {x y : Json}

theorem metadata?_eq (h : a.Single x b) : b.metadata? = a.metadata? := by
  rw [metadata?, h.params _ (by decide) (by decide) (by decide)]
  rfl

theorem directives_eq (h : a.Single x b) : b.directives = a.directives := by
  rw [directives, h.params _ (by decide) (by decide) (by decide)]
  rfl

theorem task?_eq (h : a.Single x b) : b.task? = a.task? := by
  rw [task?, h.params _ (by decide) (by decide) (by decide)]
  rfl

theorem admits_eq (h : a.Single x b) (p : Policy) : p.admits b = p.admits a := by
  rw [Policy.admits, Policy.admitsTask, h.task?_eq, h.directives_eq]
  rfl

theorem spaceOf_eq (h : a.Single x b) (s : Scheme) : s.spaceOf b = s.spaceOf a := by
  simp only [Scheme.spaceOf, ownNamespace?, metadataString?]
  rw [h.metadata?_eq]

theorem resolve?_eq (h : a.Single x b) (field : String) : b.resolve? field = a.resolve? field := by
  simp only [resolve?]
  rw [h.runtime _ (by decide), h.metadata?_eq]

theorem identified (h : a.Single x b) (h' : a.Single y b') : Scheme.Identified b b' where
  resolved := fun field _ => (h.resolve?_eq field).trans (h'.resolve?_eq field).symm
  metadata := by
    intro field _
    rw [metadataString?, metadataString?, h.metadata?_eq, h'.metadata?_eq]
  runtime := by
    rw [runtimeString?, runtimeString?, h.runtime _ (by decide), h'.runtime _ (by decide)]

theorem get?_eq (h : a.Single x b) (h' : a.Single y b') {n : String} (hinput : n ≠ inputName)
    (hkey : n ≠ keyName) (hruntime : n ≠ runtimeName) : b.get? n = b'.get? n :=
  (h.params n hinput hkey hruntime).trans (h'.params n hinput hkey hruntime).symm

theorem ne_of_feeding {n : String} (h : n ∈ Param.feeding) : n ≠ keyName ∧ n ≠ runtimeName := by
  constructor
  · rintro rfl
    revert h
    decide
  · rintro rfl
    revert h
    decide

theorem ofParam?_eq (h : a.Single x b) (h' : a.Single y b') {n : String} (hn : n ∈ Param.feeding)
    (hinput : n ≠ inputName) : Rendering.ofParam? b n = Rendering.ofParam? b' n := by
  obtain ⟨hkey, hruntime⟩ := ne_of_feeding hn
  have hget := h.get?_eq h' hinput hkey hruntime
  refine (h.identified h').ofParam?_eq (fun _ => hget) fun _ _ => ?_
  rw [given?, hget]
  rfl

theorem given?_eq_of_specific (h : a.Single x b) (h' : a.Single y b') {n : String}
    (hn : Param.isSpecific n = true) : b.given? n = b'.given? n := by
  have hne : ∀ m, Param.isSpecific m = false → n ≠ m := by
    rintro m hm rfl
    rw [hn] at hm
    cases hm
  rw [given?, h.get?_eq h' (hne _ (by decide)) (hne _ (by decide)) (hne _ (by decide))]
  rfl

theorem ofParam?_input (h : a.Single x b) :
    Rendering.ofParam? b inputName = x.nonNull?.map Rendering.ofJson := by
  have hmodel : inputName ≠ Param.modelName := by decide
  have hfile : inputName ≠ Param.fileName := by decide
  rw [Rendering.ofParam?, if_neg hmodel, if_neg hfile, given?, h.input]
  rfl

theorem rendering_eq {s : Scheme} (h : a.Single x b) (h' : a.Single y b')
    (htext : s.canonical b = s.canonical b') :
    x.nonNull?.map Rendering.ofJson = y.nonNull?.map Rendering.ofJson := by
  rw [← h.ofParam?_input, ← h'.ofParam?_input]
  refine Scheme.ofParam?_eq_of_canonical_eq (by decide) (fun m hm hne => h.ofParam?_eq h' hm hne)
    (fun _ => ?_) htext
  exact Scheme.specificSegments_congr fun n hn => h.given?_eq_of_specific h' hn

theorem alike (h : a.Single x b) (h' : a.Single x b') (s : Scheme) : s.Alike b b' where
  toIdentified := h.identified h'
  named := by
    intro n hn
    have hmem : n ∈ Param.feeding ∧ n ≠ inputName := by
      revert n
      decide
    obtain ⟨hkey, hruntime⟩ := ne_of_feeding hmem.1
    exact h.get?_eq h' hmem.2 hkey hruntime
  given := by
    intro n hn _ _
    by_cases hinput : n = inputName
    · rw [hinput, given?, given?, h.input, h'.input]
    · obtain ⟨hkey, hruntime⟩ := ne_of_feeding hn
      rw [given?, h.get?_eq h' hinput hkey hruntime]
      rfl
  specific := fun _ _ hn => h.given?_eq_of_specific h' hn

theorem key_eq (h : a.Single x b) (h' : a.Single x b') (s : Scheme) : s.key b = s.key b' := by
  apply (h.alike h' s).key_eq
  · rw [h.ownKey, h'.ownKey]
  · rw [h.spaceOf_eq, h'.spaceOf_eq]

theorem digest_eq {s : Scheme} (h : a.Single x b) (h' : a.Single y b') (hkey : s.key b = s.key b') :
    s.digest b = s.digest b' :=
  Scheme.digest_eq_of_key_eq h.ownKey h'.ownKey ((h.spaceOf_eq s).trans (h'.spaceOf_eq s).symm) hkey

end Single

end Call

end ReplyCache
