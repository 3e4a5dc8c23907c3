import Mathlib.Algebra.Order.Floor.Div
import ReplyCache.Cache.Read
import ReplyCache.Text.Digits

namespace ReplyCache

namespace Json

def place? (part : String) : Option Nat :=
  if part.toList.head? = some '0' ∧ part ≠ "0" then none else Text.natural? 10 part.toList

def follow? (v : Json) (part : String) : Option Json :=
  match v with
  | .object members => Members.get? part members
  | .array items => (place? part).bind fun i => items[i]?
  | _ => none

def resolve? (path : List String) (v : Json) : Option Json := path.foldlM follow? v

end Json

namespace Replay

variable {size : Nat}

theorem flatten_cut (size : Nat) (cs : List Char) : (cut size cs).flatten = cs := by
  fun_induction cut size cs with
  | case1 => rfl
  | case2 c cs ih => rw [List.flatten_cons, ih, List.cons_append, List.take_append_drop]

theorem cut_ne_nil {cs : List Char} (h : cs ≠ []) : cut size cs ≠ [] := by
  cases cs with
  | nil => exact (h rfl).elim
  | cons c cs => simp [cut]

theorem length_cut (size : Nat) (cs : List Char) :
    (cut size cs).length = cs.length ⌈/⌉ max size 1 := by
  have hpos : 0 < max size 1 := by omega
  fun_induction cut size cs with
  | case1 => simp
  | case2 c cs ih =>
      rw [List.length_cons, ih, List.length_drop, List.length_cons, Nat.ceilDiv_eq_add_pred_div,
        Nat.ceilDiv_eq_add_pred_div]
      rcases Nat.le_total (size - 1) cs.length with hle | hle
      · -- one piece is full and the rest is cut in the same way
        have hsplit : cs.length + 1 + max size 1 - 1 =
            cs.length - (size - 1) + max size 1 - 1 + max size 1 := by omega
        rw [hsplit, Nat.add_div_right _ hpos]
      · have hrest : cs.length - (size - 1) + max size 1 - 1 < max size 1 := by omega
        have hlast : cs.length + 1 + max size 1 - 1 = cs.length + max size 1 := by omega
        have hshort : cs.length < max size 1 := by omega
        rw [Nat.div_eq_of_lt hrest, hlast, Nat.add_div_right _ hpos, Nat.div_eq_of_lt hshort]

theorem length_of_mem_dropLast {cs part : List Char} (h : part ∈ (cut size cs).dropLast) :
    part.length = max size 1 := by
  fun_induction cut size cs with
  | case1 => cases h
  | case2 c cs ih =>
      by_cases hrest : cs.drop (size - 1) = []
      · simp [hrest, cut] at h
      · rw [List.dropLast_cons_of_ne_nil (cut_ne_nil hrest)] at h
        rcases List.mem_cons.1 h with rfl | h
        · have hlong : size - 1 < cs.length := by simpa using hrest
          rw [List.length_cons, List.length_take]
          omega
        · exact ih h

theorem length_of_mem {cs part : List Char} (h : part ∈ cut size cs) :
    1 ≤ part.length ∧ part.length ≤ max size 1 := by
  fun_induction cut size cs with
  | case1 => cases h
  | case2 c cs ih =>
      rcases List.mem_cons.1 h with rfl | h
      · rw [List.length_cons, List.length_take]
        omega
      · exact ih h

def textPath : List String := ["choices", "0", "message", "content"]

theorem content?_eq (reply : Json) :
    content? reply = (reply.resolve? textPath).bind Json.string? := by
  have hzero : Json.place? "0" = some 0 := by decide
  have hword : ∀ part ∈ ["choices", "message", "content"], Json.place? part = none := by decide
  have hmember : ∀ part ∈ ["choices", "message", "content"], ∀ v : Json,
      v.member? part = v.follow? part := by
    intro part hpart v
    cases v with
    | array items => rw [Json.follow?, hword part hpart]; rfl
    | null | bool b | number n | string s | object members => rfl
  have hfirst : ∀ v : Json, first? v = v.follow? "0" := by
    intro v
    cases v with
    | array items => rw [Json.follow?, hzero, Option.bind_some, first?, List.head?_eq_getElem?]
    | null | bool b | number n | string s | object members => rfl
  simp only [content?, Json.resolve?, textPath, List.foldlM_cons, List.foldlM_nil,
    Option.bind_eq_bind, hfirst, hmember "choices" (by decide), hmember "message" (by decide),
    hmember "content" (by decide), Option.bind_assoc]
  simp

def delta (content : String) : Json :=
  .object [("choices", .array [.object [("delta",
    .object [("content", .string content), ("role", .string "assistant")])]])]

theorem piece_eq_delta (content : List Char) : piece content = delta (String.ofList content) := by
  have hne : "role" ≠ "content" := by decide
  have hlt : "content" < "role" := by decide
  simp [piece, delta, Json.ofMembers, Members.ofList, Members.insert, hne, hlt]

/-- The pieces of a reply are there exactly if its text is, and they are the text in full pieces and
a last one that is not empty. A lookup has the pieces of the reply that it hits. -/
theorem pieces_lossless (reply : Json) (size : Nat) :
    ((pieces? reply size).isSome = true ↔ ∃ text, reply.resolve? textPath = some (.string text)) ∧
    (∀ text, reply.resolve? textPath = some (.string text) → ∃ parts : List String,
      pieces? reply size = some (parts.map delta) ∧ String.join parts = text ∧
      (∀ part ∈ parts.dropLast, part.length = max size 1) ∧
      (∀ part ∈ parts.getLast?, 1 ≤ part.length ∧ part.length ≤ max size 1) ∧
      parts.length = text.length ⌈/⌉ max size 1) ∧
    (Lookup.hit reply).pieces? size = pieces? reply size ∧
    Lookup.miss.pieces? size = none ∧ Lookup.bypass.pieces? size = none := by
  refine ⟨?_, fun text htext => ?_, rfl, rfl, rfl⟩
  · rw [pieces?, Option.isSome_map, content?_eq]
    cases hpath : reply.resolve? textPath with
    | none => simp
    | some v => cases v <;> simp [Json.string?]
  · refine ⟨(cut size text.toList).map String.ofList, ?_, ?_, ?_, ?_, ?_⟩
    · rw [pieces?, content?_eq, htext, List.map_map]
      exact congrArg some (List.map_congr_left fun part _ => piece_eq_delta part)
    · rw [← String.toList_inj, String.toList_join, List.flatMap_map]
      simpa [List.flatMap] using flatten_cut size text.toList
    · rw [← List.map_dropLast]
      intro part hpart
      obtain ⟨cs, hcs, rfl⟩ := List.mem_map.1 hpart
      rw [String.length_ofList]
      exact length_of_mem_dropLast hcs
    · intro part hpart
      obtain ⟨cs, hcs, rfl⟩ := List.mem_map.1 (List.mem_of_getLast? hpart)
      rw [String.length_ofList]
      exact length_of_mem hcs
    · rw [List.length_map, length_cut, String.length_toList]

def numbered : Json :=
  .object [("choices", .object [("0", .object [("message", .object [("content",
    .string "缓存命中了")])])])]

theorem pieces_lossless_numbered : numbered.resolve? textPath = some (.string "缓存命中了") ∧
    ∃ parts : List String, pieces? numbered 2 = some (parts.map delta) ∧
      String.join parts = "缓存命中了" ∧ (∀ part ∈ parts.dropLast, part.length = 2) ∧
      parts.length = 3 := by
  have htext : numbered.resolve? textPath = some (.string "缓存命中了") := by decide
  obtain ⟨parts, hparts, hjoin, hfull, -, hlength⟩ := (pieces_lossless numbered 2).2.1 _ htext
  exact ⟨htext, parts, hparts, hjoin, hfull, hlength⟩

end Replay

end ReplyCache
