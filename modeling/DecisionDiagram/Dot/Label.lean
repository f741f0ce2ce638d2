/-!
# Labels of a drawing

A label is a name between double quotes.  Since a name may be any string, each
backslash and each quote in it is written with a backslash in front.  `readLabel`
reads a label back: a backslash makes the next character literal, and the first
other quote ends the label.
-/

namespace DecisionDiagram

namespace Dot

/-- The text with each occurrence of a character replaced. -/
def substitute (c : Char) (replacement : List Char) (text : List Char) : List Char :=
  text.flatMap fun x => if x = c then replacement else [x]

/-- The characters of a name, ready to stand between quotes. Backslashes come first,
so that those put before the quotes are left alone. -/
def escapeChars (name : List Char) : List Char :=
  substitute '"' ['\\', '"'] (substitute '\\' ['\\', '\\'] name)

/-- The name, ready to stand between quotes. -/
def escape (name : String) : String := .ofList (escapeChars name.toList)

/-- Reads the name of a label up to its closing quote, and returns it with the text
that follows. -/
def readLabel : List Char → Option (List Char × List Char)
  | [] => none
  | '\\' :: [] => none
  | '\\' :: c :: rest => (readLabel rest).map fun (name, rest) => (c :: name, rest)
  | c :: rest =>
    if c = '"' then some ([], rest)
    else (readLabel rest).map fun (name, rest) => (c :: name, rest)

end Dot

end DecisionDiagram
