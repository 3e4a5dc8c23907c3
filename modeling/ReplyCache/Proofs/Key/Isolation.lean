import ReplyCache.Proofs.Key.Dependence

namespace ReplyCache

namespace Sha256

theorem length_hexWord (w : UInt32) : (hexWord w).length = 8 := by
  simp [hexWord]

theorem length_hex (text : String) : (hex text).length = 64 := by
  simp [hex, State.words, length_hexWord]

theorem mem_hexDigits {text : String} {ch : Char} (h : ch ∈ (hex text).toList) :
    ch ∈ hexDigits := by
  rw [hex, String.toList_ofList] at h
  obtain ⟨w, -, hw⟩ := List.mem_flatMap.1 h
  obtain ⟨i, -, rfl⟩ := List.mem_map.1 hw
  rw [List.getD_eq_getElem?_getD]
  cases hdigit : hexDigits[w.toNat >>> (4 * i) % 16]? with
  | none => decide
  | some d => exact List.mem_of_getElem? hdigit

end Sha256

namespace Key

def ahead (text : String) : String := String.ofList (text.toList.takeWhile (· ≠ ':'))

theorem ahead_eq_self_iff (text : String) : ahead text = text ↔ ':' ∉ text.toList := by
  rw [ahead, ← String.toList_inj, String.toList_ofList, List.takeWhile_eq_self_iff]
  constructor
  · intro h hcolon
    exact absurd (h _ hcolon) (by decide)
  · intro h ch hch
    rw [decide_eq_true_iff]
    rintro rfl
    exact h hch

end Key

namespace Call

def metadataField? (c : Call) (field : String) : Option Json :=
  c.metadata?.bind (Members.get? field)

def runtimeField? (c : Call) (field : String) : Option Json :=
  c.runtime?.bind (Members.get? field)

def nestedField? (c : Call) (field : String) : Option Json :=
  ((c.runtimeField? metadataName).bind Json.object?).bind (Members.get? field)

/-- Calls that differ at most in the parameters that steer them, and there neither in the groups of
their models nor in what their files go by. -/
structure Steered (a b : Call) : Prop where
  params : ∀ n, n ∉ Param.steering → a.get? n = b.get? n
  metadata : ∀ field ∈ [modelGroupName, sharedGroupsName, checksumName, fileNameName],
    a.metadataField? field = b.metadataField? field
  runtime : a.runtimeField? fileNameName = b.runtimeField? fileNameName
  nested : ∀ field ∈ [modelGroupName, sharedGroupsName],
    a.nestedField? field = b.nestedField? field

/-- Calls that differ at most in how they are made: they also give the same keys of their own, if
any, and the same namespaces. -/
structure Reissued (a b : Call) : Prop extends Steered a b where
  ownKey : a.get? keyName = b.get? keyName
  presetKey : a.runtimeField? presetKeyName = b.runtimeField? presetKeyName
  namespaces : ∀ field ∈ [namespaceName, oldNamespaceName],
    a.metadataField? field = b.metadataField? field

structure Respaced (a b : Call) : Prop where
  params : ∀ n, n ≠ metadataName → a.get? n = b.get? n
  metadata : ∀ field, field ≠ namespaceName → field ≠ oldNamespaceName →
    a.metadataField? field = b.metadataField? field

variable {a b : Call}

theorem metadataString?_congr {field : String}
    (h : a.metadataField? field = b.metadataField? field) :
    a.metadataString? field = b.metadataString? field :=
  congrArg (·.bind Json.string?) h

theorem runtimeString?_congr {field : String} (h : a.runtimeField? field = b.runtimeField? field) :
    a.runtimeString? field = b.runtimeString? field :=
  congrArg (·.bind Json.string?) h

theorem resolve?_eq_or (c : Call) (field : String) : c.resolve? field =
    ((c.nestedField? field).bind Json.nonNull?).or ((c.metadataField? field).bind Json.nonNull?) :=
  rfl

theorem resolve?_congr {field : String} (hnested : a.nestedField? field = b.nestedField? field)
    (h : a.metadataField? field = b.metadataField? field) :
    a.resolve? field = b.resolve? field := by
  rw [resolve?_eq_or, resolve?_eq_or, hnested, h]

theorem ownKey?_congr (h : a.get? keyName = b.get? keyName)
    (hruntime : a.runtimeField? presetKeyName = b.runtimeField? presetKeyName) :
    a.ownKey? = b.ownKey? := by
  rw [ownKey?, h, runtimeString?_congr hruntime]
  rfl

theorem spaceOf_congr (h : ∀ field ∈ [namespaceName, oldNamespaceName],
    a.metadataField? field = b.metadataField? field) (s : Scheme) : s.spaceOf a = s.spaceOf b := by
  rw [Scheme.spaceOf, ownNamespace?, metadataString?_congr (h _ (by simp)),
    metadataString?_congr (h _ (by simp))]
  rfl

theorem runtime?_congr (h : a.get? runtimeName = b.get? runtimeName) : a.runtime? = b.runtime? :=
  congrArg (·.bind Json.object?) h

namespace Steered

theorem identified (h : a.Steered b) : Scheme.Identified a b where
  resolved := by
    intro field hfield
    refine resolve?_congr (h.nested field hfield) (h.metadata field ?_)
    revert field
    decide
  metadata := by
    intro field hfield
    refine metadataString?_congr (h.metadata field ?_)
    revert field
    decide
  runtime := runtimeString?_congr h.runtime

theorem get?_eq_of_feeding (h : a.Steered b) {n : String} (hn : n ∈ Param.feeding) :
    a.get? n = b.get? n :=
  h.params n fun hsteering => Param.steering_disjoint_feeding n hsteering hn

theorem given?_congr {n : String} (h : a.get? n = b.get? n) : a.given? n = b.given? n :=
  congrArg (·.bind Json.nonNull?) h

theorem alike (h : a.Steered b) (s : Scheme) : s.Alike a b where
  toIdentified := h.identified
  named := by
    intro n hn
    apply h.get?_eq_of_feeding
    revert n
    decide
  given := fun n hn _ _ => given?_congr (h.get?_eq_of_feeding hn)
  specific := by
    intro _ n hn
    simp only [Param.isSpecific, Bool.and_eq_true, Bool.not_eq_true'] at hn
    exact given?_congr (h.params n (by simpa using hn.2))

end Steered

theorem Respaced.steered (h : a.Respaced b) : a.Steered b where
  params := by
    intro n hn
    apply h.params
    rintro rfl
    exact hn (by decide)
  metadata := by
    intro field hfield
    have hother : field ≠ namespaceName ∧ field ≠ oldNamespaceName := by
      revert field
      decide
    exact h.metadata field hother.1 hother.2
  runtime := by
    rw [runtimeField?, runtime?_congr (h.params _ (by decide))]
    rfl
  nested := by
    intro field _
    rw [nestedField?, runtimeField?, runtime?_congr (h.params _ (by decide))]
    rfl

theorem Reissued.ownKey?_eq (h : a.Reissued b) : a.ownKey? = b.ownKey? :=
  ownKey?_congr h.ownKey h.presetKey

theorem Reissued.spaceOf_eq (h : a.Reissued b) (s : Scheme) : s.spaceOf a = s.spaceOf b :=
  spaceOf_congr h.namespaces s

end Call

namespace Scheme

variable {s s' : Scheme} {a b : Call}

/-- A digest is what stands in the last places of a key, so that the namespace in front of it may
have any characters. -/
theorem qualify_eq_iff {space space' : Option String} {digest digest' : String}
    (hlength : digest.length = digest'.length) :
    qualify space digest = qualify space' digest' ↔ space = space' ∧ digest = digest' := by
  constructor
  · intro h
    have htext := congrArg (fun k => k.text.toList) h
    have hcount := congrArg List.length htext
    have htail : digest.toList.length = digest'.toList.length := by
      rw [String.length_toList, String.length_toList, hlength]
    cases space with
    | none =>
        cases space' with
        | none => exact ⟨rfl, congrArg Key.text h⟩
        | some n' =>
            simp only [qualify, String.toList_append, List.length_append] at hcount
            simp at hcount
            omega
    | some n =>
        cases space' with
        | none =>
            simp only [qualify, String.toList_append, List.length_append] at hcount
            simp at hcount
            omega
        | some n' =>
            simp only [qualify, String.toList_append] at htext
            obtain ⟨hhead, hdigest⟩ := List.append_inj' htext htail
            obtain ⟨hspace, -⟩ := List.append_inj' hhead rfl
            rw [String.toList_inj.1 hspace, String.toList_inj.1 hdigest]
            exact ⟨rfl, rfl⟩
  · rintro ⟨rfl, rfl⟩
    rfl

theorem key_eq_qualify (h : a.ownKey? = none) (s : Scheme) :
    s.key a = qualify (s.spaceOf a) (s.digest a) := by
  rw [key, h]

theorem digest_congr (hinclusive : s.inclusive = s'.inclusive) (h : a.Steered b) :
    s.digest a = s'.digest b := by
  have hscheme : s.digest b = s'.digest b := by
    rw [digest, digest, canonical, canonical, segments, segments, hinclusive]
  rw [← hscheme, digest, (h.alike s).canonical_eq]
  rfl

/-- Keys that no caller gave are equal exactly if both the namespaces and the digests are; and the
namespace has no part in the digest, be it the scheme's or the call's. -/
theorem key_eq_iff_space_and_digest (s s' : Scheme) {a b : Call} (ha : a.ownKey? = none)
    (hb : b.ownKey? = none) :
    (s.key a = s'.key b ↔ s.spaceOf a = s'.spaceOf b ∧ s.digest a = s'.digest b) ∧
      (s.inclusive = s'.inclusive → a.Respaced b → s.digest a = s'.digest b) := by
  have hlength : (s.digest a).length = (s'.digest b).length := by
    rw [digest, digest, Sha256.length_hex, Sha256.length_hex]
  constructor
  · rw [key_eq_qualify ha, key_eq_qualify hb]
    exact qualify_eq_iff hlength
  · intro hinclusive h
    exact digest_congr hinclusive h.steered

def inSpace (n : String) : Call :=
  (Call.empty.insert "prompt" (.string "hi")).insert Call.metadataName
    (.object [(Call.namespaceName, .string n)])

theorem respaced_inSpace (m n : String) : (inSpace m).Respaced (inSpace n) where
  params := by
    intro name hname
    exact (SortedMap.get?_insert_of_ne _ hname _).trans
      (SortedMap.get?_insert_of_ne _ hname _).symm
  metadata := by
    intro field hfield _
    have hlacks : ∀ l, (inSpace l).metadataField? field = none := by
      intro l
      simp [Call.metadataField?, Call.metadata?, inSpace, Call.insert, Call.get?, Json.object?,
        Members.get?, Ne.symm hfield]
    rw [hlacks, hlacks]

theorem key_eq_iff_space_and_digest_inSpace :
    (inSpace "x").ownKey? = none ∧ (inSpace "x:y").ownKey? = none ∧
      key {} (inSpace "x") ≠ key {} (inSpace "x:y") ∧
      digest {} (inSpace "x") = digest {} (inSpace "x:y") ∧
      key {} (inSpace "x") = key ⟨some "z", false⟩ (inSpace "x") := by
  have hx : (inSpace "x").ownKey? = none := by decide
  have hy : (inSpace "x:y").ownKey? = none := by decide
  have hapart := key_eq_iff_space_and_digest {} {} hx hy
  have hsame := key_eq_iff_space_and_digest {} ⟨some "z", false⟩ hx hx
  refine ⟨hx, hy, ?_, hapart.2 rfl (respaced_inSpace _ _), ?_⟩
  · intro heq
    exact absurd (hapart.1.1 heq).1 (by decide)
  · exact hsame.1.2 ⟨by decide, hsame.2 rfl (respaced_inSpace _ _)⟩

theorem namespace?_qualify (space : Option String) {digest : String} (h : ':' ∉ digest.toList) :
    (qualify space digest).namespace? = space.map Key.ahead := by
  cases space with
  | none => simp [qualify, Key.namespace?, h]
  | some n =>
      -- the colon behind the namespace is the first one if the namespace has none
      have htake : (n ++ ":" ++ digest).toList.takeWhile (· ≠ ':') =
          n.toList.takeWhile (· ≠ ':') := by
        rw [String.toList_append, String.toList_append, List.append_assoc]
        induction n.toList with
        | nil => rfl
        | cons ch chs ih => by_cases hch : ch = ':' <;> simp_all
      rw [qualify, Key.namespace?, htake, if_pos (by simp)]
      rfl

/-- What is read back from a key that no caller gave is the namespace up to its first colon: the
namespace that the key was put in, if any, provided that it has no colon. -/
theorem namespace_key_eq_iff (s : Scheme) {c : Call} (h : c.ownKey? = none) :
    let space := (c.metadataString? Call.namespaceName).or
      ((c.metadataString? Call.oldNamespaceName).or s.space)
    (s.key c).namespace? = space.map Key.ahead ∧
      ((s.key c).namespace? = space ↔ ∀ n ∈ space, ':' ∉ n.toList) := by
  intro space
  have hspace : s.spaceOf c = space := Option.or_assoc
  have hdigest : ':' ∉ (s.digest c).toList :=
    fun hcolon => absurd (Sha256.mem_hexDigits hcolon) (by decide)
  have hback : (s.key c).namespace? = space.map Key.ahead := by
    rw [key_eq_qualify h, namespace?_qualify _ hdigest, hspace]
  refine ⟨hback, ?_⟩
  rw [hback]
  cases space with
  | none => simp
  | some n => simpa using Key.ahead_eq_self_iff n

theorem namespace_key_eq_iff_divided :
    (inSpace "x").ownKey? = none ∧ (inSpace "x:y").ownKey? = none ∧
      (key {} (inSpace "x")).namespace? = some "x" ∧
      (key {} (inSpace "x:y")).namespace? = some "x" ∧
      (key {} (inSpace "x:y")).namespace? ≠ some "x:y" := by
  have hx : (inSpace "x").ownKey? = none := by decide
  have hy : (inSpace "x:y").ownKey? = none := by decide
  have hdivided := namespace_key_eq_iff {} hy
  refine ⟨hx, hy, (namespace_key_eq_iff {} hx).1, hdivided.1, ?_⟩
  rw [hdivided.1]
  decide

/-- Calls that are alike in what feeds a key, give the same key of their own, if any, and come to
the same namespace have one key. So have calls that differ only in how they are made. -/
theorem key_eq_of_alike_or_reissued (s : Scheme) (a b : Call) :
    (s.Alike a b → a.ownKey? = b.ownKey? → s.spaceOf a = s.spaceOf b → s.key a = s.key b) ∧
      (a.Reissued b → s.key a = s.key b) :=
  ⟨Alike.key_eq, fun h => (h.alike s).key_eq h.ownKey?_eq (h.spaceOf_eq s)⟩

def inGroup (place : String) (metadata : Json) : Call :=
  (Call.empty.insert Param.modelName (.string "m")).insert place metadata

def traced (secret : String) : Call :=
  ((Call.empty.insert "prompt" (.string "hi")).insert "api_key" (.string secret)).insert
    Call.metadataName (.object [("trace_id", .string secret)])

theorem reissued_traced (s t : String) : (traced s).Reissued (traced t) := by
  have hget : ∀ l n, n ≠ "api_key" → n ≠ Call.metadataName →
      (traced l).get? n = (Call.empty.insert "prompt" (.string "hi")).get? n := by
    intro l n hkey hmetadata
    exact (SortedMap.get?_insert_of_ne _ hmetadata _).trans (SortedMap.get?_insert_of_ne _ hkey _)
  have hparams : ∀ n, n ≠ "api_key" → n ≠ Call.metadataName →
      (traced s).get? n = (traced t).get? n :=
    fun n hkey hmetadata => (hget s n hkey hmetadata).trans (hget t n hkey hmetadata).symm
  have hlacks : ∀ l field, field ≠ "trace_id" → (traced l).metadataField? field = none := by
    intro l field hfield
    simp [Call.metadataField?, Call.metadata?, traced, Call.insert, Call.get?, Json.object?,
      Members.get?, Ne.symm hfield]
  have hmetadata : ∀ field, field ≠ "trace_id" →
      (traced s).metadataField? field = (traced t).metadataField? field :=
    fun field hfield => (hlacks s field hfield).trans (hlacks t field hfield).symm
  have hruntime : (traced s).runtime? = (traced t).runtime? :=
    Call.runtime?_congr (hparams _ (by decide) (by decide))
  constructor
  · constructor
    · intro n hn
      apply hparams <;> (rintro rfl; exact hn (by decide))
    · intro field hfield
      apply hmetadata
      revert field
      decide
    · rw [Call.runtimeField?, hruntime]
      rfl
    · intro field _
      rw [Call.nestedField?, Call.runtimeField?, hruntime]
      rfl
  · exact hparams _ (by decide) (by decide)
  · rw [Call.runtimeField?, hruntime]
    rfl
  · intro field hfield
    apply hmetadata
    revert field
    decide

theorem key_eq_of_alike_or_reissued_traced :
    let group : Json := .object [(Call.modelGroupName, .string "g")]
    let named := inGroup Call.metadataName group
    let nested := inGroup Call.runtimeName (.object [(Call.metadataName, group)])
    let inclusive : Scheme := ⟨none, true⟩
    named ≠ nested ∧ key {} named = key {} nested ∧
      traced "a" ≠ traced "b" ∧ inclusive.key (traced "a") = inclusive.key (traced "b") := by
  intro group named nested inclusive
  have halike : Alike {} named nested := by
    constructor
    · constructor <;> decide
    · decide
    · decide
    · intro hinclusive
      cases hinclusive
  refine ⟨by decide, ?_, by decide, ?_⟩
  · exact (key_eq_of_alike_or_reissued {} named nested).1 halike (by decide) (by decide)
  · exact (key_eq_of_alike_or_reissued inclusive _ _).2 (reissued_traced _ _)

end Scheme

end ReplyCache
