import ReplyCache.Proofs.Key.Element
import ReplyCache.Proofs.Key.Parameter

namespace ReplyCache

namespace Members

theorem get?_erase {α : Type} (name other : String) (m : List (String × α)) :
    get? other (erase name m) = if other = name then none else get? other m := by
  split
  · rename_i heq
    rw [heq, get?_erase_self]
  · rename_i hne
    exact get?_erase_of_ne hne m

end Members

namespace Call

/-- The first of the lists of groups that share replies and that this group is in. Whatever is not a
list has no groups in it. -/
def Shares (c : Call) (group : String) (members : List Json) : Prop :=
  ∃ before after, c.resolve? sharedGroupsName = some (.array (before ++ .array members :: after)) ∧
    .string group ∈ members ∧ ∀ other, .array other ∈ before → .string group ∉ other

def Told (c : Call) (group text : String) : Prop :=
  (∃ members, c.Shares group members ∧ text = (Json.array members).text) ∨
    (∀ members, ¬ c.Shares group members) ∧ text = group

end Call

namespace Rendering

theorem hasMember_iff {group : String} {v : Json} :
    hasMember group v = true ↔ ∃ members, v = .array members ∧ .string group ∈ members := by
  have hstring : ∀ m : Json, (m.string? == some group) = true ↔ m = .string group := by
    intro m
    cases m <;> simp [Json.string?]
  cases v with
  | array members => simp [hasMember, hstring]
  | null | bool | number | string | object => simp [hasMember]

theorem hasMember_array {group : String} {members : List Json} :
    hasMember group (.array members) = true ↔ .string group ∈ members := by
  simp [hasMember_iff]

theorem sharedGroup?_eq_some_iff {c : Call} {group : String} {v : Json} :
    sharedGroup? c group = some v ↔ ∃ members, v = .array members ∧ c.Shares group members := by
  constructor
  · intro h
    simp only [sharedGroup?, Option.bind_eq_some_iff] at h
    obtain ⟨lists, ⟨groups, hresolve, hlists⟩, hfind⟩ := h
    obtain ⟨hin, before, after, hsplit, hbefore⟩ := List.find?_eq_some_iff_append.1 hfind
    obtain ⟨members, rfl, hmem⟩ := hasMember_iff.1 hin
    cases groups with
    | array items =>
        cases hlists
        refine ⟨members, rfl, before, after, hsplit ▸ hresolve, hmem, fun other hother hthere => ?_⟩
        have hnot := hbefore _ hother
        rw [hasMember_array.2 hthere] at hnot
        cases hnot
    | null | bool | number | string | object => cases hlists
  · rintro ⟨members, rfl, before, after, hresolve, hmem, hbefore⟩
    have hfind : (before ++ Json.array members :: after).find? (hasMember group) =
        some (.array members) := by
      refine List.find?_eq_some_iff_append.2 ⟨hasMember_array.2 hmem, before, after, rfl, ?_⟩
      intro v hv
      rw [Bool.not_eq_true', ← Bool.not_eq_true, hasMember_iff]
      rintro ⟨other, rfl, hthere⟩
      exact hbefore other hv hthere
    simp only [sharedGroup?, hresolve]
    exact hfind

end Rendering

namespace Call

theorem told_iff {c : Call} {group text : String} :
    c.Told group text ↔ text = ((Rendering.sharedGroup? c group).map Json.text).getD group := by
  cases h : Rendering.sharedGroup? c group with
  | none =>
      have hnone : ∀ members, ¬ c.Shares group members := by
        intro members hshares
        rw [Rendering.sharedGroup?_eq_some_iff.2 ⟨members, rfl, hshares⟩] at h
        cases h
      constructor
      · rintro (⟨members, hshares, -⟩ | ⟨-, rfl⟩)
        · exact (hnone members hshares).elim
        · rfl
      · exact fun htext => .inr ⟨hnone, htext⟩
  | some v =>
      obtain ⟨members, rfl, hshares⟩ := Rendering.sharedGroup?_eq_some_iff.1 h
      constructor
      · rintro (⟨others, hothers, rfl⟩ | ⟨hnone, -⟩)
        · rw [Rendering.sharedGroup?_eq_some_iff.2 ⟨others, rfl, hothers⟩] at h
          cases h
          rfl
        · exact (hnone members hshares).elim
      · exact fun htext => .inl ⟨members, hshares, htext⟩

theorem exists_told (c : Call) (group : String) : ∃ text, c.Told group text :=
  ⟨_, told_iff.2 rfl⟩

def eraseNested (c : Call) (field : String) : Call :=
  match (c.runtimeField? metadataName).bind Json.object? with
  | some fields =>
    c.insert runtimeName (.object
      (Members.insert metadataName (.object (Members.erase field fields)) (c.runtime?.getD [])))
  | none => c

def named (c : Call) (text : String) : Call :=
  ((c.eraseNested modelGroupName).eraseWithin metadataName modelGroupName).insert Param.modelName
    (.string text)

/-- Calls that differ at most in their models and the groups of these. -/
structure Regrouped (a b : Call) : Prop where
  params : ∀ n, n ≠ Param.modelName → n ≠ metadataName → n ≠ runtimeName → a.get? n = b.get? n
  metadata : ∀ field, field ≠ modelGroupName → a.metadataField? field = b.metadataField? field
  runtime : ∀ field, field ≠ metadataName → a.runtimeField? field = b.runtimeField? field
  nested : ∀ field, field ≠ modelGroupName → a.nestedField? field = b.nestedField? field

theorem get?_eraseNested_of_ne (c : Call) {n : String} (h : n ≠ runtimeName) (field : String) :
    (c.eraseNested field).get? n = c.get? n := by
  simp only [eraseNested]
  split
  · rw [get?_insert, if_neg h]
  · rfl

theorem runtimeField?_insert (c : Call) (members : List (String × Json)) (field : String) :
    (c.insert runtimeName (.object members)).runtimeField? field = Members.get? field members := by
  rw [runtimeField?, runtime?, get?_insert, if_pos rfl]
  rfl

theorem runtimeField?_eraseNested_of_ne (c : Call) {other : String} (h : other ≠ metadataName)
    (field : String) : (c.eraseNested field).runtimeField? other = c.runtimeField? other := by
  simp only [eraseNested]
  split
  · rw [runtimeField?_insert, Members.get?_insert_of_ne h, runtimeField?]
    cases c.runtime? <;> rfl
  · rfl

theorem nestedField?_eraseNested (c : Call) (field other : String) :
    (c.eraseNested field).nestedField? other =
      if other = field then none else c.nestedField? other := by
  simp only [eraseNested]
  split
  · rename_i fields hfields
    rw [nestedField?, nestedField?, runtimeField?_insert, Members.get?_insert_self, hfields]
    exact Members.get?_erase field other fields
  · rename_i hnone
    rw [nestedField?, hnone]
    simp

theorem metadataField?_eraseWithin (c : Call) (field other : String) :
    (c.eraseWithin metadataName field).metadataField? other =
      if other = field then none else c.metadataField? other := by
  rw [metadataField?, metadataField?, metadata?, metadata?, object?_eraseWithin]
  cases (c.get? metadataName).bind Json.object? with
  | none => simp
  | some fields => exact Members.get?_erase field other fields

section Named

variable (c : Call) (text : String)

theorem get?_named_model : (c.named text).get? Param.modelName = some (.string text) :=
  SortedMap.get?_insert_self _ _ _

theorem get?_named_of_ne {n : String} (hmodel : n ≠ Param.modelName)
    (hmetadata : n ≠ metadataName) :
    (c.named text).get? n = (c.eraseNested modelGroupName).get? n := by
  rw [named, get?_insert, if_neg hmodel, get?_eraseWithin_of_ne _ hmetadata]

theorem runtime?_named : (c.named text).runtime? = (c.eraseNested modelGroupName).runtime? :=
  runtime?_congr (get?_named_of_ne c text (by decide) (by decide))

theorem runtimeField?_named {field : String} (h : field ≠ metadataName) :
    (c.named text).runtimeField? field = c.runtimeField? field := by
  rw [runtimeField?, runtime?_named]
  exact c.runtimeField?_eraseNested_of_ne h modelGroupName

theorem nestedField?_named (field : String) :
    (c.named text).nestedField? field =
      if field = modelGroupName then none else c.nestedField? field := by
  rw [nestedField?, runtimeField?, runtime?_named]
  exact c.nestedField?_eraseNested modelGroupName field

theorem metadataField?_named (field : String) :
    (c.named text).metadataField? field =
      if field = modelGroupName then none else c.metadataField? field := by
  have hinsert : (c.named text).metadata? =
      ((c.eraseNested modelGroupName).eraseWithin metadataName modelGroupName).metadata? := by
    rw [metadata?, named, get?_insert, if_neg (by decide)]
    rfl
  have hnested : (c.eraseNested modelGroupName).metadata? = c.metadata? := by
    rw [metadata?, c.get?_eraseNested_of_ne (by decide)]
    rfl
  rw [metadataField?, hinsert]
  refine (metadataField?_eraseWithin _ modelGroupName field).trans ?_
  rw [metadataField?, hnested]
  rfl

theorem resolve?_named : (c.named text).resolve? modelGroupName = none := by
  rw [resolve?_eq_or, nestedField?_named, metadataField?_named]
  rfl

theorem regrouped_named : c.Regrouped (c.named text) where
  params := by
    intro n hmodel hmetadata hruntime
    rw [get?_named_of_ne c text hmodel hmetadata, c.get?_eraseNested_of_ne hruntime]
  metadata := fun field hfield => by rw [metadataField?_named, if_neg hfield]
  runtime := fun _ hfield => (runtimeField?_named c text hfield).symm
  nested := fun field hfield => by rw [nestedField?_named, if_neg hfield]

theorem ofParam?_named : Rendering.ofParam? (c.named text) Param.modelName = some text := by
  rw [Rendering.ofParam?, if_pos rfl, get?_named_model, Option.bind_some, Rendering.ofModel,
    resolve?_named]
  rfl

end Named

theorem Told.ofParam?_model {c : Call} {group text : String} (h : c.Told group text)
    (hmodel : (c.get? Param.modelName).isSome)
    (hgroup : c.resolve? modelGroupName = some (.string group)) :
    Rendering.ofParam? c Param.modelName = some text := by
  obtain ⟨model, hget⟩ := Option.isSome_iff_exists.1 hmodel
  rw [Rendering.ofParam?, if_pos rfl, hget, Option.bind_some, Rendering.ofModel, hgroup,
    told_iff.1 h]
  rfl

namespace Regrouped

variable {a b : Call} {s : Scheme}

theorem ofParam?_eq (h : a.Regrouped b) {n : String} (hn : n ∈ Param.feeding)
    (hmodel : n ≠ Param.modelName) : Rendering.ofParam? a n = Rendering.ofParam? b n := by
  have hget : a.get? n = b.get? n := by
    apply h.params n hmodel <;> (rintro rfl; revert hn; decide)
  have hfile : Rendering.ofFile a = Rendering.ofFile b := by
    refine Scheme.ofFile_congr (fun field hfield => metadataString?_congr (h.metadata field ?_))
      (runtimeString?_congr (h.runtime _ (by decide)))
    revert field
    decide
  rw [Rendering.ofParam?, Rendering.ofParam?, if_neg hmodel, if_neg hmodel, hget, hfile,
    Steered.given?_congr hget]

theorem specificSegments_eq (h : a.Regrouped b) :
    Scheme.specificSegments a = Scheme.specificSegments b := by
  refine Scheme.specificSegments_congr fun n hn => Steered.given?_congr ?_
  apply h.params n <;> (rintro rfl; revert hn; decide)

theorem canonical_eq (h : a.Regrouped b)
    (hmodel : Rendering.ofParam? a Param.modelName = Rendering.ofParam? b Param.modelName) :
    s.canonical a = s.canonical b := by
  have hfeeding : Scheme.feedingSegments a = Scheme.feedingSegments b := by
    refine Scheme.rendered_congr fun n hn => ?_
    by_cases heq : n = Param.modelName
    · rw [heq, hmodel]
    · exact h.ofParam?_eq hn heq
  rw [Scheme.canonical, Scheme.canonical, Scheme.segments, Scheme.segments, hfeeding,
    h.specificSegments_eq]

theorem ownKey?_eq (h : a.Regrouped b) : a.ownKey? = b.ownKey? :=
  ownKey?_congr (h.params _ (by decide) (by decide) (by decide)) (h.runtime _ (by decide))

theorem spaceOf_eq (h : a.Regrouped b) : s.spaceOf a = s.spaceOf b := by
  refine spaceOf_congr (fun field hfield => h.metadata field ?_) s
  revert field
  decide

theorem key_eq (h : a.Regrouped b)
    (hmodel : Rendering.ofParam? a Param.modelName = Rendering.ofParam? b Param.modelName) :
    s.key a = s.key b := by
  rw [Scheme.key, Scheme.digest, h.canonical_eq hmodel, h.ownKey?_eq, h.spaceOf_eq]
  rfl

end Regrouped

end Call

namespace Scheme

open Call

/-- A call whose model is in a group has the canonical text of a call of a model that is named for
the group: by the first list that the group shares replies in, or by the group itself. So calls
whose groups have the same such list share their keys, whatever models they name. -/
theorem canonical_eq_named (s : Scheme) {a : Call} {group : String}
    (hmodel : (a.get? Param.modelName).isSome)
    (hgroup : a.resolve? modelGroupName = some (.string group)) :
    (∃ text, a.Told group text) ∧
      (∀ text, a.Told group text → s.canonical a = s.canonical (a.named text)) ∧
      ∀ (b : Call) (other : String) (members : List Json), (b.get? Param.modelName).isSome →
        b.resolve? modelGroupName = some (.string other) → a.Regrouped b →
        a.Shares group members → b.Shares other members →
        s.canonical a = s.canonical b ∧ s.key a = s.key b := by
  refine ⟨a.exists_told group, fun text htold => ?_, ?_⟩
  · apply (a.regrouped_named text).canonical_eq
    rw [htold.ofParam?_model hmodel hgroup, ofParam?_named]
  · intro b other members hmodel' hgroup' hregrouped hshares hshares'
    have htold : a.Told group (Json.array members).text := .inl ⟨members, hshares, rfl⟩
    have htold' : b.Told other (Json.array members).text := .inl ⟨members, hshares', rfl⟩
    have hsame : Rendering.ofParam? a Param.modelName = Rendering.ofParam? b Param.modelName := by
      rw [htold.ofParam?_model hmodel hgroup, htold'.ofParam?_model hmodel' hgroup']
    exact ⟨hregrouped.canonical_eq hsame, hregrouped.key_eq hsame⟩

def grouped (model shared nested top : Json) : Call :=
  ((Call.empty.insert Param.modelName model).insert runtimeName (.object
    [(metadataName, .object [(sharedGroupsName, shared), (modelGroupName, nested)])])).insert
      metadataName (.object [(modelGroupName, top), ("trace_id", .string "t")])

theorem runtime?_grouped (model shared nested top : Json) :
    (grouped model shared nested top).runtime? = some [(metadataName, .object
      [(sharedGroupsName, shared), (modelGroupName, nested)])] := by
  rw [runtime?, grouped, get?_insert, if_neg (by decide), get?_insert, if_pos rfl]
  rfl

theorem regrouped_grouped (shared model nested top model' nested' top' : Json) :
    (grouped model shared nested top).Regrouped (grouped model' shared nested' top') where
  params := by
    intro n hmodel hmetadata hruntime
    simp only [grouped, get?_insert, if_neg hmodel, if_neg hmetadata, if_neg hruntime]
  metadata := by
    intro field hfield
    simp [metadataField?, metadata?, grouped, get?_insert, Json.object?, Members.get?,
      Ne.symm hfield]
  runtime := by
    intro field hfield
    simp [runtimeField?, runtime?_grouped, Members.get?, Ne.symm hfield]
  nested := by
    intro field hfield
    simp [nestedField?, runtimeField?, runtime?_grouped, Json.object?, Members.get?,
      Ne.symm hfield]

/-- The groups are told by different places, the one beside a model that is `null`; they are in
several lists, and not all of what is shared is a list. -/
theorem canonical_eq_named_overlapping :
    let shared : Json := .array [.string "g", .array [.string "h", Json.ofInt 1],
      .array [.string "k", .string "g"], .array [.string "g"], .array [.string "k"]]
    let a := grouped .null shared .null (.string "g")
    let b := grouped (.string "m") shared (.string "k") (.string "h")
    canonical {} a = canonical {} (a.named "[\"k\",\"g\"]") ∧ key {} a = key {} b := by
  intro shared a b
  have hfirst : ∀ c group, Rendering.sharedGroup? c group =
      some (.array [.string "k", .string "g"]) → c.Shares group [.string "k", .string "g"] := by
    intro c group h
    obtain ⟨members, heq, hshares⟩ := Rendering.sharedGroup?_eq_some_iff.1 h
    cases heq
    exact hshares
  obtain ⟨-, hnamed, hshared⟩ := @canonical_eq_named {} a "g" (by decide) (by decide)
  refine ⟨hnamed _ (told_iff.2 (by decide)), ?_⟩
  exact (hshared b "k" _ (by decide) (by decide) (regrouped_grouped shared _ _ _ _ _ _)
    (hfirst a "g" (by decide)) (hfirst b "k" (by decide))).2

end Scheme

end ReplyCache
