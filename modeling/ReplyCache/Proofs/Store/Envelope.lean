import ReplyCache.Proofs.Decimal.Order
import ReplyCache.Proofs.Freshness
import ReplyCache.Proofs.Json.Value
import ReplyCache.Store.Envelope

namespace ReplyCache

namespace Entry

theorem nesting_toJson (e : Entry) : e.toJson.nesting = e.reply.nesting + 1 := by
  have htimestamp : (Json.ofFloat e.timestamp).nesting = 0 := by
    rw [Json.ofFloat]
    cases Number.ofFloat? e.timestamp <;> rfl
  simp [toJson_eq, Json.nesting, Json.membersNesting, Json.memberNesting, htimestamp]

theorem readsBack_toJson {e : Entry} (htimestamp : (Json.ofFloat e.timestamp).ReadsBack)
    (hreply : e.reply.ReadsBack) : e.toJson.ReadsBack := by
  have hlt : replyName < timestampName := by decide
  rw [toJson_eq]
  exact ⟨by simpa [Members.Sorted] using hlt, hreply, htimestamp, trivial⟩

end Entry

namespace Envelope

/-- All doubles are read as they are written, and the record has its members in order. -/
structure ReadsBack (e : Envelope) : Prop where
  expires : ∀ x ∈ e.expires, x.isFinite = true ∧ (Json.ofFloat x).ReadsBack
  value : e.value.ReadsBack

theorem readMember?_name (d : Draft) (f : Field) (t : Json.Tree) :
    d.readMember? (.string (some f.name), t) = d.read? t f := by
  cases f <;> rfl

theorem readExpires?_toTree {x : Float} (hfinite : x.isFinite = true)
    (h : (Json.ofFloat x).ReadsBack) : readExpires? (Json.ofFloat x).toTree = some (some x) := by
  rw [Json.ofFloat_of_isFinite hfinite] at h ⊢
  have hn : (Number.float x hfinite).literal.value? = some (.float x hfinite) := h
  rw [Json.toTree, hn]
  rfl

theorem read?_expires {d : Draft} (hd : d.expires = none) {x : Float} (hfinite : x.isFinite = true)
    (h : (Json.ofFloat x).ReadsBack) :
    d.read? (Json.ofFloat x).toTree .expires = some { d with expires := some (some x) } := by
  simp [Draft.read?, hd, readExpires?_toTree hfinite h]

theorem read?_value {d : Draft} (hd : d.value = none) {v : Json} (h : v.ReadsBack) :
    d.read? v.toTree .value =
      if v.nesting ≤ deepest then some { d with value := some v } else none := by
  have hread : d.read? v.toTree .value =
      (v.toTree.toJson? deepest).map fun v => { d with value := some v } := by
    simp [Draft.read?, hd]
  rw [hread, Json.toJson?_toTree v h]
  split <;> rfl

theorem ofTree?_toTree {e : Envelope} (h : e.ReadsBack) :
    ofTree? e.toJson.toTree = if e.value.nesting ≤ deepest then some e else none := by
  obtain ⟨key, expires, value⟩ := e
  have hkey : Draft.read? {} (.string (some key)) .key = some { key := some key } := rfl
  cases expires with
  | none =>
      simp only [ofTree?, toJson, Json.toTree, Json.membersToTrees, Json.memberToTrees,
        Option.toList_none, List.map_nil, List.cons_append, List.nil_append, List.foldlM_cons,
        List.foldlM_nil, readMember?_name, hkey, Option.bind_eq_bind, Option.bind_some]
      rw [read?_value rfl h.value]
      split <;> rfl
  | some x =>
      obtain ⟨hfinite, hx⟩ := h.expires x rfl
      simp only [ofTree?, toJson, Json.toTree, Json.membersToTrees, Json.memberToTrees,
        Option.toList_some, List.map_cons, List.map_nil, List.cons_append, List.nil_append,
        List.foldlM_cons, List.foldlM_nil, readMember?_name, hkey, Option.bind_eq_bind,
        Option.bind_some]
      rw [read?_expires rfl hfinite hx, Option.bind_some, read?_value rfl h.value]
      split <;> rfl

theorem ofText?_text {e : Envelope} (h : e.ReadsBack) :
    ofText? e.text = if e.value.nesting ≤ deepest then some e else none := by
  rw [ofText?, text, Json.text, String.toList_ofList, Json.ofChars_chars]
  exact ofTree?_toTree h

theorem isSome_readExpires? (x : Float) : (readExpires? (Json.ofFloat x).toTree).isSome = true := by
  by_cases h : x.isFinite = true
  · have hn := (Number.float x h).isSome_value?_literal
    obtain ⟨n, hn⟩ := Option.isSome_iff_exists.1 hn
    rw [Json.ofFloat_of_isFinite h, Json.toTree, hn]
    rfl
  · simp [Json.ofFloat, Number.ofFloat?, h, Json.toTree, readExpires?]

/-- A time as it is read from the text that it is written as, which may be that of another double.
Infinite times are written as no time. -/
def reread? (x : Float) : Option Float := (readExpires? (Json.ofFloat x).toTree).join

theorem reread?_of_readsBack {x : Float} (hfinite : x.isFinite = true)
    (h : (Json.ofFloat x).ReadsBack) : reread? x = some x := by
  rw [reread?, readExpires?_toTree hfinite h]
  rfl

/-- Some envelope is read, even if doubles come back as others. -/
theorem exists_ofText? {e : Envelope} (h : e.value.nesting ≤ deepest) :
    ∃ e', ofText? e.text = some e' ∧ e'.expires = e.expires.bind reread? := by
  rw [ofText?, text, Json.text, String.toList_ofList, Json.ofChars_chars]
  obtain ⟨v, hv⟩ := Option.isSome_iff_exists.1 (Json.isSome_toJson? e.value h)
  obtain ⟨key, expires, value⟩ := e
  have hkey : Draft.read? {} (.string (some key)) .key = some { key := some key } := rfl
  cases expires with
  | none =>
      simp only [ofTree?, toJson, Json.toTree, Json.membersToTrees, Json.memberToTrees,
        Option.toList_none, List.map_nil, List.cons_append, List.nil_append, List.foldlM_cons,
        List.foldlM_nil, readMember?_name, hkey, Option.bind_eq_bind, Option.bind_some]
      simp [Draft.read?, hv, Draft.finish?]
  | some x =>
      obtain ⟨y, hy⟩ := Option.isSome_iff_exists.1 (isSome_readExpires? x)
      simp only [ofTree?, toJson, Json.toTree, Json.membersToTrees, Json.memberToTrees,
        Option.toList_some, List.map_cons, List.map_nil, List.cons_append, List.nil_append,
        List.foldlM_cons, List.foldlM_nil, readMember?_name, hkey, Option.bind_eq_bind,
        Option.bind_some]
      simp [Draft.read?, hv, hy, Draft.finish?, reread?]

theorem isExpired_of_le {e : Envelope} {t t' : Float} (h : e.isExpired t = true) (hle : t ≤ t') :
    e.isExpired t' = true := by
  simp only [isExpired] at h ⊢
  cases he : e.expires with
  | none =>
      rw [he] at h
      cases h
  | some x =>
      rw [he] at h
      exact decide_eq_true (Decimal.le_trans (of_decide_eq_true h) hle)

end Envelope

end ReplyCache
