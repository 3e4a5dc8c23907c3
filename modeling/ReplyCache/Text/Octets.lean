namespace ReplyCache

namespace Text

abbrev Octets := List UInt8

namespace Octets

def ofString (s : String) : Octets := s.toUTF8.data.toList

def string? (o : Octets) : Option String := String.fromUTF8? ⟨o.toArray⟩

@[simp]
theorem string?_ofString (s : String) : string? (ofString s) = some s := by
  simp only [string?, ofString, Array.toArray_toList, String.fromUTF8?]
  exact dif_pos s.isValidUTF8

def beforeZero (o : Octets) : Octets := o.takeWhile (· ≠ 0)

end Octets

end Text

end ReplyCache
