import ReplyCache.Text.Octets
import ReplyCache.Yaml.Scalar

namespace ReplyCache

namespace Yaml

/-- Block collections start and end by the indentation of their lines, which has become tokens of
its own. -/
inductive Token where
  | version (major minor : Nat)
  | handle (name : String) (expansion : Text.Octets)
  | documentStart
  | documentEnd
  | blockSequenceStart
  | blockMappingStart
  | blockEnd
  | blockEntry
  | flowSequenceStart
  | flowSequenceEnd
  | flowMappingStart
  | flowMappingEnd
  | flowEntry
  | key
  | value
  | aliasOf (name : String)
  | anchor (name : String)
  | tag (handle : String) (suffix : Text.Octets)
  | scalar (style : Style) (text : String)
  | streamEnd
  deriving DecidableEq, Inhabited

end Yaml

end ReplyCache
