import ReplyCache.Yaml.Cursor

namespace ReplyCache

namespace Yaml

/-- The blanks and line breaks between two words of a scalar. A single line break folds to a space;
of several the first is dropped; a Unicode separator is never folded. -/
structure Gap where
  blanks : List Char := []
  broken : Bool := false
  firstBreak : List Char := []
  otherBreaks : List Char := []

namespace Gap

def fold (firstBreak otherBreaks : List Char) : List Char :=
  if firstBreak = ['\n'] then if otherBreaks.isEmpty then [' '] else otherBreaks
  else firstBreak ++ otherBreaks

def text (g : Gap) : List Char := if g.broken then fold g.firstBreak g.otherBreaks else g.blanks

/-- Reads on to the next character that is neither blank nor break. In a plain scalar no tab may
stand where its line must still be indented, before the column `indent`. -/
def read? (indent : Int) : Nat → Gap → Cursor → Option (Gap × Cursor)
  | 0, _, _ => none
  | fuel + 1, g, c =>
    match c.next? with
    | none => some (g, c)
    | some x =>
      if isBlank x then
        if g.broken then
          if x = '\t' && c.column < indent then none else read? indent fuel g c.skip
        else read? indent fuel { g with blanks := g.blanks ++ [x] } c.skip
      else if isBreak x then
        if g.broken then
          read? indent fuel { g with otherBreaks := g.otherBreaks ++ c.lineBreak } c.skipLine
        else read? indent fuel { broken := true, firstBreak := c.lineBreak } c.skipLine
      else some (g, c)

end Gap

end Yaml

end ReplyCache
