import ReplyCache.Proofs.Yaml.Opening
import ReplyCache.Yaml.Value

namespace ReplyCache

namespace Yaml

namespace Node

/-- The nodes at the root of a text that starts with an opening character at `cs`. -/
inductive Opens (cs : List Char) : Node → Prop
  | sequence (items : List Node) : cs.head? = some '[' → Opens cs (.sequence {} items)
  | mapping (entries : List (Node × Node)) : Opens cs (.mapping {} entries)
  | scalar {text : List Char} : Folded cs text → Opens cs (.scalar {} .plain (String.ofList text))
  | broken : Opens cs .broken

theorem opens_of_readNode {cs : List Char} {t : Token} (h : t.Opens cs)
    (handles : SortedMap Text.Octets) (fuel : Nat) (ts : List Token) (anchors : SortedMap Nat) :
    (readNode handles (fuel + 1) true false ⟨t :: ts, anchors⟩).1.Opens cs := by
  cases h with
  | sequence hhead => exact .sequence _ hhead
  | mapping => exact .mapping _
  | scalar hfolded => exact .scalar hfolded
  | key => exact .broken
  | block => exact .mapping _

end Node

namespace Document

theorem root_ofTokens {cs : List Char} {ts : List Token} (h : ∀ t ∈ ts.head?, t.Opens cs) :
    (ofTokens ts).root.Opens cs := by
  cases ts with
  | nil => exact .broken
  | cons t ts =>
      have ht : t.Opens cs := h t rfl
      have hroot := Node.opens_of_readNode ht (withKnown SortedMap.empty)
        (4 * (ts.length + 1) + 3) ts SortedMap.empty
      cases ht <;> exact hroot

end Document

namespace Following

variable {targets : Array Node} {depth : Nat}

-- The cases on the node stand inside the recursion, so that `value` has no equations of its own.
theorem value_sequence (items : List Node) : value targets (depth + 1) (.sequence {} items) =
    (items.mapM (value targets depth)).bind fun vs => pure (.array vs) := by
  delta value
  rfl

theorem value_mapping (entries : List (Node × Node)) :
    value targets (depth + 1) (.mapping {} entries) =
      (entries.mapM fun e : Node × Node => do
        let name ← text targets e.1
        let v ← value targets depth e.2
        return (name, v)).bind fun es => pure (Json.ofMembers es) := by
  delta value
  rfl

theorem value_scalar (text : String) :
    value targets (depth + 1) (.scalar {} .plain text) = ofOption (Resolve.value? text) := by
  delta value
  rfl

theorem value_broken : value targets (depth + 1) .broken = fail := by
  delta value
  rfl

theorem value_of_opens {cs : List Char} {n : Node} (h : n.Opens cs) {left left' : Nat} {v : Json}
    (hv : value targets (depth + 1) n left = some (v, left')) :
    (cs.head? = some '[' ∧ ∃ items, v = .array items) ∨ (∃ members, v = .object members) ∨
      ∃ text, Folded cs text ∧ v = .string (String.ofList text) := by
  cases h with
  | sequence items hhead =>
      rw [value_sequence] at hv
      obtain ⟨⟨vs, _⟩, -, hv⟩ := Option.bind_eq_some_iff.1 hv
      exact .inl ⟨hhead, vs, (Prod.mk.inj (Option.some.inj hv)).1.symm⟩
  | mapping entries =>
      rw [value_mapping] at hv
      obtain ⟨⟨es, _⟩, -, hv⟩ := Option.bind_eq_some_iff.1 hv
      exact .inr (.inl ⟨_, (Prod.mk.inj (Option.some.inj hv)).1.symm⟩)
  | @scalar text hfolded =>
      obtain ⟨x, hforeign, -, htext⟩ := hfolded.foreign
      obtain ⟨rest, rfl⟩ := List.head?_eq_some_iff.1 htext
      rw [value_scalar, Resolve.value?_of_isBlank String.toList_ofList
        (Bool.and_eq_true_iff.1 hforeign).1] at hv
      exact .inr (.inr ⟨_, hfolded, (Prod.mk.inj (Option.some.inj hv)).1.symm⟩)
  | broken =>
      rw [value_broken] at hv
      cases hv

end Following

end Yaml

open Yaml in
theorem Json.ofYaml?_of_leads {s : String} {cs : List Char} (hlead : Leads cs s.toList)
    (hne : cs ≠ []) {v : Json} (h : ofYaml? s = some v) :
    (cs.head? = some '[' ∧ ∃ items, v = .array items) ∨ (∃ members, v = .object members) ∨
      ∃ text, Folded cs text ∧ v = .string (String.ofList text) := by
  have hroot : (Document.ofText s).root.Opens cs :=
    Document.root_ofTokens (Token.opens_of_ofText hlead hne)
  rw [ofYaml?, Document.toJson?] at h
  split at h
  · obtain ⟨⟨w, left⟩, hvalue, rfl⟩ := Option.map_eq_some_iff.1 h
    exact Following.value_of_opens hroot hvalue
  · cases h

end ReplyCache
