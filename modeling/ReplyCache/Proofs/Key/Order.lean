import ReplyCache.Proofs.Json.Order
import ReplyCache.Proofs.Json.Reading
import ReplyCache.Proofs.Key.Parameter

namespace ReplyCache

namespace Scheme

variable {s : Scheme} {c : Call} {n : String} {v w : Json}

theorem eq_of_rendering {v w : Json} (hv : v.string? = none) (hw : w.string? = none)
    (h : v.nonNull?.map Rendering.ofJson = w.nonNull?.map Rendering.ofJson) : v = w := by
  have htext : ∀ {u : Json}, u.string? = none → u.nonNull?.map Rendering.ofJson =
      if u = .null then none else some u.text := by
    intro u hu
    cases u with
    | string t => cases hu
    | null | bool | number | array | object => rfl
  rw [htext hv, htext hw] at h
  by_cases hnull : v = .null <;> by_cases hnull' : w = .null <;> simp [hnull, hnull'] at h ⊢
  exact Json.text_injective h

theorem canonical_insert_inj (hn : s.Feeds n) (hv : v.string? = none) (hw : w.string? = none) :
    s.canonical (c.insert n v) = s.canonical (c.insert n w) ↔ v = w := by
  constructor
  · exact fun h => eq_of_rendering hv hw ((canonical_insert_iff hn).1 h)
  · rintro rfl
    rfl

theorem insert_perm (c : Call) {es es' : List (String × Json)} (h : es.Perm es')
    (hnames : (es.map (·.1)).Nodup) :
    es.foldl (fun c e => c.insert e.1 e.2) c = es'.foldl (fun c e => c.insert e.1 e.2) c := by
  have hparams : ∀ es : List (String × Json),
      es.foldl (fun c e => c.insert e.1 e.2) c = ⟨c.params.insertAll es⟩ :=
    fun es => List.foldl_hom Call.mk fun _ _ => rfl
  rw [hparams, hparams, c.params.insertAll_perm h hnames]

/-- Neither the order in which the members of objects are written nor the one in which parameters
are put into a call changes a key. The order of the items of a list changes the canonical text, as
does any other change of a value that is no string. -/
theorem key_order_free (s : Scheme) :
    (∀ t t', Json.Reordered t t' → ∀ c, (Json.ofText? t).bind Call.ofJson? = some c →
      ∃ c', (Json.ofText? t').bind Call.ofJson? = some c' ∧ s.canonical c = s.canonical c' ∧
        s.key c = s.key c') ∧
    (∀ (c : Call) (es es' : List (String × Json)), es.Perm es' → (es.map (·.1)).Nodup →
      let d := es.foldl (fun c e => c.insert e.1 e.2) c
      let d' := es'.foldl (fun c e => c.insert e.1 e.2) c
      s.canonical d = s.canonical d' ∧ s.key d = s.key d') ∧
    ∀ (c : Call) n, s.Feeds n → ∀ v w : Json, v.string? = none → w.string? = none →
      (s.canonical (c.insert n v) = s.canonical (c.insert n w) ↔ v = w) := by
  refine ⟨fun t t' h c hc => ?_, fun c es es' h hnames => ?_, fun c n hn v w hv hw => ?_⟩
  · rw [Json.ofText?_eq_of_reordered h] at hc
    exact ⟨c, hc, rfl, rfl⟩
  · intro d d'
    have heq : d = d' := insert_perm c h hnames
    rw [heq]
    exact ⟨rfl, rfl⟩
  · exact canonical_insert_inj hn hv hw

def asWritten : String := "\x7b\"user\":\"u\",\"tools\":\x7b\"b\":null,\"a\":[true,false]\x7d\x7d"

def asRewritten : String := "\x7b\"tools\":\x7b\"a\":[true,false],\"b\":null\x7d,\"user\":\"u\"\x7d"

theorem reordered_asWritten : Json.Reordered asWritten asRewritten := by
  let a : String × Json := ("a", .array [.bool true, .bool false])
  let b : String × Json := ("b", .null)
  let user : String × Json := ("user", .string "u")
  let v : Json := .object [user, ("tools", .object [b, a])]
  let w : Json := .object [("tools", .object [a, b]), user]
  have hv : asWritten.toList = v.chars := by decide +kernel
  have hw : asRewritten.toList = w.chars := by decide +kernel
  refine ⟨v.toTree, w.toTree, hv ▸ Json.ofChars_chars v, hw ▸ Json.ofChars_chars w, ?_, ?_⟩
  · simp [v, user, a, b, Json.toTree, Json.membersToTrees, Json.memberToTrees, Json.itemsToTrees,
      Json.Tree.Distinct, Json.Tree.MembersDistinct, Json.Tree.MemberDistinct,
      Json.Tree.ItemsDistinct]
  · have hinner : Json.Tree.Reordered (.object (Json.membersToTrees [b, a]))
        (.object (Json.membersToTrees [a, b])) := .members (.swap _ _ [])
    exact (Json.Tree.Reordered.within [Json.memberToTrees user] (.string (some "tools")) []
      hinner).trans (.members (.swap _ _ []))

theorem key_order_free_rewritten :
    let s : Scheme := ⟨some "space", true⟩
    let d := Call.empty.insert "n" (.bool true)
    let items : List Json := [.bool true, .bool false]
    (∃ c c', (Json.ofText? asWritten).bind Call.ofJson? = some c ∧
      (Json.ofText? asRewritten).bind Call.ofJson? = some c' ∧ s.key c = s.key c') ∧
    s.key ((d.insert "seed" .null).insert "user" (.string "u")) =
      s.key ((d.insert "user" (.string "u")).insert "seed" .null) ∧
    s.canonical (d.insert "stop" (.array items)) ≠
      s.canonical (d.insert "stop" (.array items.reverse)) := by
  intro s d items
  obtain ⟨hwritten, hinserted, hitems⟩ := key_order_free s
  refine ⟨?_, ?_, ?_⟩
  · obtain ⟨c, hc⟩ : ∃ c, (Json.ofText? asWritten).bind Call.ofJson? = some c :=
      Option.isSome_iff_exists.1 (by decide +kernel)
    obtain ⟨c', hc', -, hkey⟩ := hwritten asWritten asRewritten reordered_asWritten c hc
    exact ⟨c, c', hc, hc', hkey⟩
  · exact (hinserted d [("seed", .null), ("user", .string "u")]
      [("user", .string "u"), ("seed", .null)] (.swap _ _ []) (by decide)).2
  · rw [ne_eq, hitems d "stop" (.inl (by decide)) (.array items) (.array items.reverse) rfl rfl]
    decide

end Scheme

end ReplyCache
