/-! # TOML lexemes

Blanks, comments, strings, numbers and dates.  A reader takes the characters
that are left and answers what it has read and what is left then, or nothing if
the document is not well formed.
-/

namespace MiddleEnd.Toml

/-- A reader of a part of a document. -/
abbrev Reader (α : Type) := List Char → Option (α × List Char)

def isBlank (c : Char) : Bool :=
  c = ' ' || c = '\t'

/-- A character that may stand in a line: a tab or no control character. -/
def isPlain (c : Char) : Bool :=
  c = '\t' || (0x20 ≤ c.toNat && c.toNat ≠ 0x7f)

def newline? : List Char → Option (List Char)
  | '\n' :: rest => some rest
  | '\r' :: '\n' :: rest => some rest
  | _ => none

def skipBlanks (cs : List Char) : List Char :=
  cs.dropWhile isBlank

/-- The rest after what may follow on a line: blanks, a comment and the end of
    the line or of the document. -/
def lineEnd (cs : List Char) : Option (List Char) :=
  let rest := match skipBlanks cs with
    | '#' :: comment => comment.dropWhile isPlain
    | rest => rest
  match rest with
  | [] => some []
  | rest => newline? rest

mutual
/-- The rest after blanks, comments and ends of lines. -/
def skipTrivia : List Char → Option (List Char)
  | [] => some []
  | '#' :: rest => skipComment rest
  | '\n' :: rest => skipTrivia rest
  | '\r' :: '\n' :: rest => skipTrivia rest
  | '\r' :: _ => none
  | c :: rest => if isBlank c then skipTrivia rest else some (c :: rest)

/-- The rest after a comment, the end of its line and what may follow. -/
def skipComment : List Char → Option (List Char)
  | [] => none
  | '\n' :: rest => skipTrivia rest
  | '\r' :: '\n' :: rest => skipTrivia rest
  | c :: rest => if isPlain c then skipComment rest else none
end

/-! ## Digits -/

def digit? (base : Nat) (c : Char) : Option Nat :=
  let d :=
    if '0' ≤ c ∧ c ≤ '9' then some (c.toNat - '0'.toNat)
    else if 'a' ≤ c ∧ c ≤ 'f' then some (c.toNat - 'a'.toNat + 10)
    else if 'A' ≤ c ∧ c ≤ 'F' then some (c.toNat - 'A'.toNat + 10)
    else none
  d.filter (· < base)

def ofDigits (base : Nat) (ds : List Nat) : Nat :=
  ds.foldl (fun n d => base * n + d) 0

/-- The rest of a run of digits.  An underscore has to stand between two digits. -/
def moreDigits (base : Nat) : Reader (List Nat)
  | [] => some ([], [])
  | '_' :: [] => none
  | '_' :: c :: rest =>
      match digit? base c with
      | some d => do
          let (ds, rest) ← moreDigits base rest
          return (d :: ds, rest)
      | none => none
  | c :: rest =>
      match digit? base c with
      | some d => do
          let (ds, rest) ← moreDigits base rest
          return (d :: ds, rest)
      | none => some ([], c :: rest)

def digits (base : Nat) : Reader (List Nat)
  | [] => none
  | c :: rest => do
      let d ← digit? base c
      let (ds, rest) ← moreDigits base rest
      return (d :: ds, rest)

def digitsOf (base : Nat) : Nat → Reader (List Nat)
  | 0, cs => some ([], cs)
  | _ + 1, [] => none
  | n + 1, c :: cs => do
      let d ← digit? base c
      let (ds, rest) ← digitsOf base n cs
      return (d :: ds, rest)

/-! ## Strings -/

def char? (n : Nat) : Option Char :=
  if n.isValidChar then some (Char.ofNat n) else none

/-- The character that one character after a backslash stands for. -/
def escape? : Char → Option Char
  | 'b' => some '\x08'
  | 't' => some '\t'
  | 'n' => some '\n'
  | 'f' => some '\x0c'
  | 'r' => some '\r'
  | '"' => some '"'
  | '\\' => some '\\'
  | _ => none

def hexChar? (cs : List Char) : Option Char := do
  let (ds, _) ← digitsOf 16 cs.length cs
  char? (ofDigits 16 ds)

def push (c : Option Char) (r : Option (List Char × List Char)) :
    Option (List Char × List Char) := do
  let c ← c
  let (s, rest) ← r
  return (c :: s, rest)

/-- The text of a string up to the closing quote. -/
def basicBody : Reader (List Char)
  | [] => none
  | '"' :: rest => some ([], rest)
  | '\\' :: 'u' :: a :: b :: c :: d :: rest => push (hexChar? [a, b, c, d]) (basicBody rest)
  | '\\' :: 'U' :: a :: b :: c :: d :: e :: f :: g :: h :: rest =>
      push (hexChar? [a, b, c, d, e, f, g, h]) (basicBody rest)
  | '\\' :: c :: rest => push (escape? c) (basicBody rest)
  | c :: rest => if isPlain c && c ≠ '\\' then push (some c) (basicBody rest) else none

def endsLine (cs : List Char) : Bool :=
  (newline? (skipBlanks cs)).isSome

/-- The text of a string over several lines, up to the closing quotes, before
    which one or two more quotes may stand.  After a backslash at the end of a
    line, blanks and ends of lines are left out (`trim`). -/
def multilineBody (trim : Bool) : Reader (List Char)
  | [] => none
  | '"' :: '"' :: '"' :: '"' :: '"' :: rest => some (['"', '"'], rest)
  | '"' :: '"' :: '"' :: '"' :: rest => some (['"'], rest)
  | '"' :: '"' :: '"' :: rest => some ([], rest)
  | '"' :: rest => push (some '"') (multilineBody false rest)
  | '\n' :: rest =>
      if trim then multilineBody true rest else push (some '\n') (multilineBody false rest)
  | '\r' :: '\n' :: rest =>
      if trim then multilineBody true rest else push (some '\n') (multilineBody false rest)
  | '\\' :: 'u' :: a :: b :: c :: d :: rest =>
      push (hexChar? [a, b, c, d]) (multilineBody false rest)
  | '\\' :: 'U' :: a :: b :: c :: d :: e :: f :: g :: h :: rest =>
      push (hexChar? [a, b, c, d, e, f, g, h]) (multilineBody false rest)
  | '\\' :: c :: rest =>
      if endsLine (c :: rest) then multilineBody true (c :: rest)
      else push (escape? c) (multilineBody false rest)
  | c :: rest =>
      if trim && isBlank c then multilineBody true rest
      else if isPlain c && c ≠ '\\' then push (some c) (multilineBody false rest)
      else none

/-- The text of a literal string up to the closing quote. -/
def literalBody : Reader (List Char)
  | [] => none
  | '\x27' :: rest => some ([], rest)
  | c :: rest => if isPlain c then push (some c) (literalBody rest) else none

/-- The text of a literal string over several lines. -/
def multilineLiteralBody : Reader (List Char)
  | [] => none
  | '\x27' :: '\x27' :: '\x27' :: '\x27' :: '\x27' :: rest => some (['\x27', '\x27'], rest)
  | '\x27' :: '\x27' :: '\x27' :: '\x27' :: rest => some (['\x27'], rest)
  | '\x27' :: '\x27' :: '\x27' :: rest => some ([], rest)
  | '\n' :: rest => push (some '\n') (multilineLiteralBody rest)
  | '\r' :: '\n' :: rest => push (some '\n') (multilineLiteralBody rest)
  | c :: rest => if isPlain c then push (some c) (multilineLiteralBody rest) else none

/-- The rest without the end of a line directly after opening quotes. -/
def afterOpening (cs : List Char) : List Char :=
  (newline? cs).getD cs

/-- Read a string with one kind of quotes on each side. -/
def lineString : Reader (List Char)
  | '"' :: rest => basicBody rest
  | '\x27' :: rest => literalBody rest
  | _ => none

def string : Reader (List Char)
  | '"' :: '"' :: '"' :: rest => multilineBody false (afterOpening rest)
  | '\x27' :: '\x27' :: '\x27' :: rest => multilineLiteralBody (afterOpening rest)
  | cs => lineString cs

/-! ## Keys -/

def isBareKey (c : Char) : Bool :=
  c.isAlphanum || c = '-' || c = '_'

def keyPart : Reader String
  | '"' :: rest => do
      let (s, rest) ← basicBody rest
      return (String.ofList s, rest)
  | '\x27' :: rest => do
      let (s, rest) ← literalBody rest
      return (String.ofList s, rest)
  | cs =>
      match cs.takeWhile isBareKey with
      | [] => none
      | part => some (String.ofList part, cs.dropWhile isBareKey)

/-- A key of at most `most` parts with dots between them. -/
def keyParts : (most : Nat) → Reader (List String)
  | 0, _ => none
  | most + 1, cs => do
      let (part, rest) ← keyPart (skipBlanks cs)
      match skipBlanks rest with
      | '.' :: rest =>
          let (parts, rest) ← keyParts most rest
          return (part :: parts, rest)
      | rest => return ([part], rest)

/-- Keys have fewer parts, and values are nested less deep, than this. -/
def depthLimit : Nat := 80

def key : Reader (List String) :=
  keyParts (depthLimit - 1)

/-! ## Dates and times -/

def number (n lo hi : Nat) : Reader Nat := fun cs => do
  let (ds, rest) ← digitsOf 10 n cs
  let value := ofDigits 10 ds
  if lo ≤ value ∧ value ≤ hi then return (value, rest) else none

def expect (c : Char) : List Char → Option (List Char)
  | [] => none
  | d :: rest => if d = c then some rest else none

def daysOf (year month : Nat) : Nat :=
  match month with
  | 2 => if year % 4 = 0 ∧ (year % 100 ≠ 0 ∨ year % 400 = 0) then 29 else 28
  | 4 | 6 | 9 | 11 => 30
  | _ => 31

/-- The rest after the part of a date behind the year. -/
def afterYear (year : Nat) (cs : List Char) : Option (List Char) := do
  let (month, cs) ← number 2 1 12 cs
  let cs ← expect '-' cs
  let (_, cs) ← number 2 1 (daysOf year month) cs
  return cs

def afterFraction : List Char → Option (List Char)
  | '.' :: c :: rest => if c.isDigit then some (rest.dropWhile Char.isDigit) else none
  | '.' :: [] => none
  | cs => some cs

/-- The rest after the part of a time behind the hour. -/
def afterHour (cs : List Char) : Option (List Char) := do
  let (_, cs) ← number 2 0 59 cs
  let cs ← expect ':' cs
  let (_, cs) ← number 2 0 60 cs
  afterFraction cs

def afterOffset : List Char → Option (List Char)
  | 'Z' :: rest | 'z' :: rest => some rest
  | '+' :: rest | '-' :: rest => do
      let (_, rest) ← number 2 0 23 rest
      let rest ← expect ':' rest
      let (_, rest) ← number 2 0 59 rest
      return rest
  | cs => some cs

/-- Whether a time starts here: two digits and a colon. -/
def startsTime : List Char → Bool
  | a :: b :: ':' :: _ => a.isDigit && b.isDigit
  | _ => false

def afterTime (cs : List Char) : Option (List Char) := do
  let (_, cs) ← number 2 0 23 cs
  let cs ← expect ':' cs
  afterHour cs

/-- What may stand between a date and a time. -/
def isTimeMark (c : Char) : Bool :=
  c = 'T' || c = 't' || c = ' '

/-- The rest after the time of a date, if there is one. -/
def afterDate : List Char → Option (List Char)
  | [] => some []
  | c :: rest =>
      if isTimeMark c && startsTime rest then do afterOffset (← afterTime rest)
      else some (c :: rest)

end MiddleEnd.Toml
