/-!
# TOML strings and integers

Readers over lists of characters.  Each takes the characters of a document from some place on, and
gives what it has read with the characters that follow, or `none` when the text is not well formed.

* `Toml.basicBody`, `Toml.literalBody`: strings on one line, after the opening quotation mark;
* `Toml.multilineBody`, `Toml.multilineLiteralBody`: strings between triple marks;
* `Toml.integer?`: a decimal integer with an optional sign, or a hexadecimal, octal or binary one
  without; single underscores may stand between digits;
* `Toml.value?`: a string or an integer.
-/

namespace NominalTypes.Toml

inductive Value where
  | text (value : String)
  | integer (value : Int)
  deriving DecidableEq, Repr

/-! ## Characters -/

def isBlank (c : Char) : Bool := c == ' ' || c == '\t'

/-- What may stand in a string or a comment: all but control characters, the tab excepted. -/
def isText (c : Char) : Bool := c == '\t' || (32 ≤ c.toNat && c.toNat != 127)

/-- The value of a digit in any base up to sixteen; letters count from ten, in either case. -/
def digit? (base : Nat) (c : Char) : Option Nat :=
  let value :=
    if c.isDigit then c.toNat - '0'.toNat
    else if 'a' ≤ c && c ≤ 'f' then c.toNat - 'a'.toNat + 10
    else if 'A' ≤ c && c ≤ 'F' then c.toNat - 'A'.toNat + 10
    else base
  if value < base then some value else none

/-! ## Strings -/

/-- The character with a code point given in hexadecimal. -/
def codePoint? (digits : List Char) : Option Char := do
  let n ← digits.foldlM (fun n c => (digit? 16 c).map (n * 16 + ·)) 0
  if n.isValidChar then some (Char.ofNat n) else none

/-- The character that an escape of one letter stands for. -/
def escaped? : Char → Option Char
  | 'b' => some '\x08'
  | 't' => some '\t'
  | 'n' => some '\n'
  | 'f' => some '\x0c'
  | 'r' => some '\r'
  | '"' => some '"'
  | '\\' => some '\\'
  | _ => none

/-- Put a character in front of what was read behind it. -/
def inFront (c : Option Char) (read : Option (List Char × List Char)) :
    Option (List Char × List Char) := do
  let c ← c
  let (text, rest) ← read
  return (c :: text, rest)

def basicBody : List Char → Option (List Char × List Char)
  | '"' :: rest => some ([], rest)
  | '\\' :: 'u' :: a :: b :: c :: d :: rest =>
    inFront (codePoint? [a, b, c, d]) (basicBody rest)
  | '\\' :: 'U' :: a :: b :: c :: d :: e :: f :: g :: h :: rest =>
    inFront (codePoint? [a, b, c, d, e, f, g, h]) (basicBody rest)
  | '\\' :: c :: rest => inFront (escaped? c) (basicBody rest)
  | c :: rest => if isText c then inFront (some c) (basicBody rest) else none
  | [] => none

def literalBody : List Char → Option (List Char × List Char)
  | '\'' :: rest => some ([], rest)
  | c :: rest => if isText c then inFront (some c) (literalBody rest) else none
  | [] => none

/-- Behind the three marks that close a string: up to two more marks belong to its text. -/
def closing (mark : Char) (rest : List Char) : List Char × List Char :=
  let extra := min 2 (rest.takeWhile (· == mark)).length
  (List.replicate extra mark, rest.drop extra)

/-- Whether a line ends here, blanks left out. -/
def endsLine (cs : List Char) : Bool :=
  match cs.dropWhile isBlank with
  | '\n' :: _ => true
  | '\r' :: '\n' :: _ => true
  | _ => false

/-- Behind a backslash at the end of a line (`trimming`), blanks and line ends are left out until
something else follows. -/
def multilineBody : (trimming : Bool) → List Char → Option (List Char × List Char)
  | true, ' ' :: rest => multilineBody true rest
  | true, '\t' :: rest => multilineBody true rest
  | true, '\n' :: rest => multilineBody true rest
  | true, '\r' :: '\n' :: rest => multilineBody true rest
  | _, '"' :: '"' :: '"' :: rest => some (closing '"' rest)
  | _, '\\' :: 'u' :: a :: b :: c :: d :: rest =>
    inFront (codePoint? [a, b, c, d]) (multilineBody false rest)
  | _, '\\' :: 'U' :: a :: b :: c :: d :: e :: f :: g :: h :: rest =>
    inFront (codePoint? [a, b, c, d, e, f, g, h]) (multilineBody false rest)
  | _, '\\' :: c :: rest =>
    if endsLine (c :: rest) then multilineBody true rest
    else inFront (escaped? c) (multilineBody false rest)
  | _, '\r' :: '\n' :: rest => inFront (some '\n') (multilineBody false rest)
  | _, c :: rest =>
    if isText c || c == '\n' then inFront (some c) (multilineBody false rest) else none
  | _, [] => none

def multilineLiteralBody : List Char → Option (List Char × List Char)
  | '\'' :: '\'' :: '\'' :: rest => some (closing '\'' rest)
  | '\r' :: '\n' :: rest => inFront (some '\n') (multilineLiteralBody rest)
  | c :: rest =>
    if isText c || c == '\n' then inFront (some c) (multilineLiteralBody rest) else none
  | [] => none

/-- A line end right behind the opening marks does not belong to the string. -/
def withoutFirstLineEnd : List Char → List Char
  | '\n' :: rest => rest
  | '\r' :: '\n' :: rest => rest
  | cs => cs

/-! ## Integers -/

/-- The number written by digits with single underscores between them; `afterDigit` tells whether
the character before was a digit. -/
def digits? (base : Nat) : (afterDigit : Bool) → (read : Nat) → List Char → Option Nat
  | afterDigit, read, [] => if afterDigit then some read else none
  | afterDigit, read, c :: rest =>
    if c == '_' then
      if afterDigit then digits? base false read rest else none
    else
      match digit? base c with
      | some d => digits? base true (read * base + d) rest
      | none => none

/-- A decimal number starts with zero only when it is zero. -/
def decimal? : List Char → Option Nat
  | ['0'] => some 0
  | '0' :: _ => none
  | cs => digits? 10 false 0 cs

def integer? : List Char → Option Int
  | '0' :: 'x' :: cs => (digits? 16 false 0 cs).map (↑·)
  | '0' :: 'o' :: cs => (digits? 8 false 0 cs).map (↑·)
  | '0' :: 'b' :: cs => (digits? 2 false 0 cs).map (↑·)
  | '+' :: cs => (decimal? cs).map (↑·)
  | '-' :: cs => (decimal? cs).map fun n => -(n : Int)
  | cs => (decimal? cs).map (↑·)

/-! ## Values -/

def isNumberChar (c : Char) : Bool := c.isAlphanum || c == '_' || c == '+' || c == '-'

def value? (cs : List Char) : Option (Value × List Char) := do
  let text := fun (read : List Char × List Char) => (Value.text (String.ofList read.1), read.2)
  match cs with
  | '"' :: '"' :: '"' :: rest => (multilineBody false (withoutFirstLineEnd rest)).map text
  | '\'' :: '\'' :: '\'' :: rest => (multilineLiteralBody (withoutFirstLineEnd rest)).map text
  | '"' :: rest => (basicBody rest).map text
  | '\'' :: rest => (literalBody rest).map text
  | _ =>
    let n ← integer? (cs.takeWhile isNumberChar)
    return (.integer n, cs.dropWhile isNumberChar)

end NominalTypes.Toml
