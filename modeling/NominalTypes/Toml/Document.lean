import NominalTypes.Toml.Scalar

/-!
# TOML documents of plain entries

A document of lines `key = value`, whose values are strings and integers, with blank lines and
comments anywhere.  Tables, dotted keys and all other kinds of value are outside of this format.

* `Toml.entry?`: one entry, without the end of its line;
* `Toml.entries?`: all entries of a document, in order.
-/

namespace NominalTypes.Toml

/-- The end of a line or of the document. -/
def newline? : List Char → Option (List Char)
  | [] => some []
  | '\n' :: rest => some rest
  | '\r' :: '\n' :: rest => some rest
  | _ => none

/-- Blanks and perhaps a comment, up to the end of the line. -/
def lineEnd? (cs : List Char) : Option (List Char) :=
  match cs.dropWhile isBlank with
  | '#' :: rest => newline? (rest.dropWhile isText)
  | rest => newline? rest

def isBareKeyChar (c : Char) : Bool := c.isAlphanum || c == '_' || c == '-'

def key? : List Char → Option (List Char × List Char)
  | '"' :: rest => basicBody rest
  | '\'' :: rest => literalBody rest
  | cs =>
    let bare := cs.takeWhile isBareKeyChar
    if bare.isEmpty then none else some (bare, cs.dropWhile isBareKeyChar)

def entry? (cs : List Char) : Option ((String × Value) × List Char) := do
  let (key, rest) ← key? cs
  match rest.dropWhile isBlank with
  | '=' :: rest =>
    let (value, rest) ← value? (rest.dropWhile isBlank)
    return ((String.ofList key, value), rest)
  | _ => none

/-- Every line takes at least one character, which the comparison of lengths makes sure of. -/
def entriesFrom (cs : List Char) : Option (List (String × Value)) :=
  if cs.isEmpty then some []
  else
    match lineEnd? cs with
    | some rest => if _h : rest.length < cs.length then entriesFrom rest else none
    | none =>
      match entry? (cs.dropWhile isBlank) with
      | none => none
      | some (entry, rest) =>
        match lineEnd? rest with
        | none => none
        | some rest =>
          if _h : rest.length < cs.length then (entriesFrom rest).map (entry :: ·) else none
termination_by cs.length

/-- A byte order mark may come first. -/
def entries? (document : String) : Option (List (String × Value)) :=
  match document.toList with
  | '\ufeff' :: rest => entriesFrom rest
  | cs => entriesFrom cs

end NominalTypes.Toml
