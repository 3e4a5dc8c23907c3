import ReplyCache.Proofs.Store.Envelope
import ReplyCache.Proofs.Yaml.Root

namespace ReplyCache

namespace Freshness

theorem judge_text {v : Json} (h : v.ReadsBack) (hnesting : v.nesting ≤ Json.deepest)
    (hnoText : Stored.read v = .ok v) (maxAge : Option Float) (now : Float) :
    judge (.string v.text) maxAge now = judge v maxAge now := by
  have hread : Stored.read (.string v.text) = .ok v := by
    simp only [Stored.read, Stored.decode, Json.ofText?_text h, if_pos hnesting]
  simp only [judge, hread, hnoText]

theorem judge_text_toJson {e : Entry} (hfinite : e.timestamp.isFinite = true)
    (htimestamp : (Json.ofFloat e.timestamp).ReadsBack) (hreply : e.reply.ReadsBack)
    (hnesting : e.toJson.nesting ≤ Json.deepest) (maxAge : Option Float) (now : Float) :
    judge (.string e.toJson.text) maxAge now = judge e.toJson maxAge now ∧
      (isTooOld maxAge (now - e.timestamp) = false → e.reply ≠ .null →
        judge (.string e.toJson.text) maxAge now = .ok (fresh e.reply) ∧
          judge e.toJson maxAge now = .ok (fresh e.reply)) := by
  have htext : judge (.string e.toJson.text) maxAge now = judge e.toJson maxAge now := by
    refine judge_text (Entry.readsBack_toJson htimestamp hreply) hnesting ?_ maxAge now
    rw [Entry.toJson_eq]
    rfl
  refine ⟨htext, fun hyoung hnonNull => ?_⟩
  have hfresh : judge e.toJson maxAge now = .ok (fresh e.reply) := by
    rw [judge_toJson hfinite, hyoung, Json.nonNull?_eq_some.2 ⟨rfl, hnonNull⟩]
    rfl
  exact ⟨htext.trans hfresh, hfresh⟩

def quoting : Entry := ⟨30, .string (Entry.toJson ⟨0, .string "\x7b'a': 1\x7d"⟩).text⟩

theorem judge_text_toJson_quoting :
    judge (.string quoting.toJson.text) (some 60) 80 = judge quoting.toJson (some 60) 80 ∧
      judge (.string quoting.toJson.text) (some 60) 80 = .ok (fresh quoting.reply) ∧
      judge quoting.toJson (some 60) 80 = .ok (fresh quoting.reply) := by
  have hboth := judge_text_toJson (e := quoting) (by decide +kernel)
    (Json.readsBack_ofFloat (by decide +kernel) (by decide +kernel)) trivial (by decide +kernel)
    (some 60) 80
  exact ⟨hboth.1, hboth.2 (by decide +kernel) nofun⟩

end Freshness

namespace Stored

open Yaml

/-- A text from its first character on that is no white space in YAML. -/
def start (text : String) : List Char := text.toList.dropWhile isSpace

theorem head?_dropWhile_isSpace {cs : List Char} {b : Char}
    (h : (cs.dropWhile Text.isBlank).head? = some b) (hb : isOpening b = true) :
    ∃ x, (cs.dropWhile isSpace).head? = some x ∧ isOpening x = true := by
  induction cs with
  | nil => cases h
  | cons x xs ih =>
      cases hspace : isSpace x with
      | true =>
          rw [List.dropWhile_cons_of_pos (textBlank_of_isSpace hspace)] at h
          rw [List.dropWhile_cons_of_pos hspace]
          exact ih h
      | false =>
          rw [List.dropWhile_cons_of_neg (by simp [hspace])]
          refine ⟨x, rfl, ?_⟩
          cases hblank : Text.isBlank x with
          | true => exact isOpening_iff.2 (.inr (.inr (by simp [isForeignBlank, hblank, hspace])))
          | false =>
              rw [List.dropWhile_cons_of_neg (by simp [hblank])] at h
              obtain rfl := Option.some.inj h
              exact hb

theorem head?_start {text : String} (h : looksLiteral text = true) :
    ∃ x, (start text).head? = some x ∧ isOpening x = true := by
  rw [looksLiteral, Text.trimStart, String.toList_ofList] at h
  split at h
  · next c hc =>
    refine head?_dropWhile_isSpace hc ?_
    rcases Bool.or_eq_true _ _ ▸ h with hc | hc <;> rw [of_decide_eq_true hc] <;> decide
  · cases h

/-- Text that is no JSON. Only the folded text of a plain scalar can be another text than the one
that was stored, and no text becomes a number, a truth value or `null`. -/
theorem decode_of_no_json {text : String} (h : Json.ofText? text = none) :
    (looksLiteral text = false → decode text = .ok (.string text)) ∧
      (looksLiteral text = true →
        decode text = .error undecodable ∨
        ((start text).head? = some '[' ∧ ∃ items, decode text = .ok (.array items)) ∨
        (∃ members, decode text = .ok (.object members)) ∨
        ∃ folded, Folded (start text) folded ∧
          decode text = .ok (.string (String.ofList folded))) := by
  refine ⟨fun hplain => by simp [decode, h, hplain], fun hliteral => ?_⟩
  obtain ⟨x, hhead, hx⟩ := head?_start hliteral
  have hlead : Leads (start text) text.toList := by
    refine Leads.dropWhile fun y hy => ?_
    obtain rfl := Option.some.inj (hhead.symm.trans hy)
    exact hx
  have hne : start text ≠ [] := by
    intro hnil
    rw [hnil] at hhead
    cases hhead
  cases hyaml : Json.ofYaml? text with
  | none => exact .inl (by simp [decode, h, hliteral, hyaml])
  | some v =>
      have hdecode : decode text = .ok v := by simp [decode, h, hliteral, hyaml]
      rcases Json.ofYaml?_of_leads hlead hne hyaml with
        ⟨hlist, items, rfl⟩ | ⟨members, rfl⟩ | ⟨folded, hfolded, rfl⟩
      · exact .inr (.inl ⟨hlist, items, hdecode⟩)
      · exact .inr (.inr (.inl ⟨members, hdecode⟩))
      · exact .inr (.inr (.inr ⟨folded, hfolded, hdecode⟩))

/-- A no-break space makes a remark of what would be a list. -/
def cited : String := "\u00a0[1] See the references\n"

theorem decode_of_no_json_cited :
    (∃ folded, Folded (start cited) folded ∧ decode cited = .ok (.string (String.ofList folded))) ∧
      decode cited = .ok (.string "\u00a0[1] See the references") := by
  have hnoJson : Json.ofText? cited = none := by decide +kernel
  have hdecode : decode cited = .ok (.string "\u00a0[1] See the references") := by decide +kernel
  refine ⟨?_, hdecode⟩
  have hcases := (decode_of_no_json hnoJson).2 (by decide +kernel)
  rw [hdecode] at hcases ⊢
  rcases hcases with herror | ⟨-, items, hlist⟩ | ⟨members, hobject⟩ | hfolded
  · cases herror
  · cases hlist
  · cases hobject
  · exact hfolded

end Stored

end ReplyCache
