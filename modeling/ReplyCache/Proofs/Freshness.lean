import ReplyCache.Freshness

namespace ReplyCache

namespace Entry

theorem toJson_eq (e : Entry) :
    e.toJson = .object [(replyName, e.reply), (timestampName, Json.ofFloat e.timestamp)] := by
  have hne : timestampName ≠ replyName := by decide
  have hlt : replyName < timestampName := by decide
  simp [toJson, Json.ofMembers, Members.ofList, Members.insert, hne, hlt]

end Entry

theorem Json.float?_ofFloat {x : Float} (h : x.isFinite = true) :
    (Json.ofFloat x).float? = some x := by
  simp [Json.ofFloat, Number.ofFloat?, h, Json.float?, Number.toFloat]

theorem Json.nonNull?_eq_some {v w : Json} : v.nonNull? = some w ↔ v = w ∧ w ≠ .null := by
  cases v with
  | null => simp +contextual [nonNull?, eq_comm]
  | bool | number | string | array | object =>
      simp only [nonNull?, Option.some_inj]
      constructor
      · rintro rfl
        exact ⟨rfl, Json.noConfusion⟩
      · exact And.left

namespace Stored

theorem kind_of_read {v : Json} {f : Fault} (h : read v = .error f) : f.kind = "decode" := by
  cases v with
  | string text =>
      simp only [read, decode] at h
      split at h
      · cases h
      · split at h
        · split at h
          · cases h
          · obtain rfl := Except.error.inj h
            rfl
        · cases h
  | null | bool b | number n | array items | object members => cases h

end Stored

namespace Freshness

theorem kind_of_ofRecord {members : List (String × Json)} {maxAge : Option Float} {now : Float}
    {f : Fault} (h : ofRecord members maxAge now = .error f) : f.kind = "decode" := by
  simp only [ofRecord] at h
  split at h
  · cases h
  · split at h
    · obtain rfl := Except.error.inj h
      rfl
    · split at h
      · cases h
      · split at h
        · cases h
        · obtain rfl := Except.error.inj h
          rfl

theorem kind_of_judge {stored : Json} {maxAge : Option Float} {now : Float} {f : Fault}
    (h : judge stored maxAge now = .error f) : f.kind = "decode" := by
  simp only [judge] at h
  split at h
  · rename_i g hread
    obtain rfl := Except.error.inj h
    exact Stored.kind_of_read hread
  · exact kind_of_ofRecord h
  · cases h

/-- A record gives back the reply of its entry as it is, be it a text that looks like a record. -/
theorem judge_toJson {e : Entry} (hfinite : e.timestamp.isFinite = true) (maxAge : Option Float)
    (now : Float) :
    judge e.toJson maxAge now =
      if isTooOld maxAge (now - e.timestamp) then .ok (stale (now - e.timestamp))
      else match e.reply.nonNull? with
        | some reply => .ok (fresh reply)
        | none => .error noReply := by
  have htimestamp : Members.get? Entry.timestampName
      [(Entry.replyName, e.reply), (Entry.timestampName, Json.ofFloat e.timestamp)] =
        some (Json.ofFloat e.timestamp) := rfl
  have hreply : Members.get? Entry.replyName
      [(Entry.replyName, e.reply), (Entry.timestampName, Json.ofFloat e.timestamp)] =
        some e.reply := rfl
  rw [Entry.toJson_eq]
  simp only [judge, Stored.read, ofRecord]
  rw [htimestamp, hreply]
  cases hgiven : e.reply.nonNull? with
  | none => simp [Json.float?_ofFloat hfinite, hgiven]
  | some reply => simp [Json.float?_ofFloat hfinite, hgiven]

end Freshness

end ReplyCache
