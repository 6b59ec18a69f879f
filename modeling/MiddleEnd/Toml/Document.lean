import MiddleEnd.Toml.Number

/-! # TOML documents

A document is a sequence of lines.  A line may open a table by a header or put a
value under a key of the table opened last.
-/

namespace MiddleEnd.Toml

/-- The elements of an array, up to the closing bracket.  Each takes at least one
    of the `most` characters that are left. -/
def elements (value : Reader Value) : (most : Nat) → Reader (List Value)
  | 0, _ => none
  | most + 1, cs => do
      match ← skipTrivia cs with
      | ']' :: rest => return ([], rest)
      | cs =>
          let (v, cs) ← value cs
          match ← skipTrivia cs with
          | ',' :: rest =>
              let (vs, rest) ← elements value most rest
              return (v :: vs, rest)
          | ']' :: rest => return ([v], rest)
          | _ => none

def keyValue (value : Reader Value) : Reader (List String × Value) := fun cs => do
  let (k, cs) ← key cs
  let cs ← expect '=' cs
  let (v, cs) ← value (skipBlanks cs)
  return ((k, v), cs)

/-- The keys and values of a table between braces, up to the closing brace. -/
def inlineEntries (value : Reader Value) : (most : Nat) → Reader (List (List String × Value))
  | 0, _ => none
  | most + 1, cs => do
      let (entry, cs) ← keyValue value cs
      match skipBlanks cs with
      | ',' :: rest =>
          let (entries, rest) ← inlineEntries value most rest
          return (entry :: entries, rest)
      | '\x7d' :: rest => return ([entry], rest)
      | _ => none

def tableOf : List (List String × Value) → Entries → Option Entries
  | [], es => some es
  | (k, v) :: rest, es => do tableOf rest (← es.add k v)

def inlineTable (value : Reader Value) : Reader Value := fun cs => do
  match skipBlanks cs with
  | '\x7d' :: rest => return (.table .inline [], rest)
  | cs =>
      let (entries, rest) ← inlineEntries value cs.length cs
      return (.table .inline (← tableOf entries []), rest)

/-- A value that holds no other. -/
def scalar : Reader Value
  | '"' :: rest => do
      let (s, rest) ← string ('"' :: rest)
      return (.string (String.ofList s), rest)
  | '\x27' :: rest => do
      let (s, rest) ← string ('\x27' :: rest)
      return (.string (String.ofList s), rest)
  | 't' :: 'r' :: 'u' :: 'e' :: rest => some (.boolean true, rest)
  | 'f' :: 'a' :: 'l' :: 's' :: 'e' :: rest => some (.boolean false, rest)
  | cs => numberOrDate cs

/-- A value in which arrays and tables are nested at most `depth` deep. -/
def value : (depth : Nat) → Reader Value
  | depth + 1, '[' :: rest => do
      let (vs, rest) ← elements (value depth) (rest.length + 1) rest
      return (.array vs, rest)
  | depth + 1, '\x7b' :: rest => inlineTable (value depth) rest
  | _, cs => scalar cs

/-- A document that has been read in part: its tables, and the keys that lead to
    the one opened last. -/
structure Document where
  root : Entries
  current : List String
deriving Repr, Inhabited

namespace Document

def empty : Document := ⟨[], []⟩

/-- Put a value into the table opened last. -/
def add (d : Document) (k : List String) (v : Value) : Option Document := do
  return { d with root := ← d.root.alongHeader (·.add k v) d.current }

/-- Open a table, by `f` in the table that its first keys lead to. -/
def openWith (f : String → Entries → Option Entries) (d : Document) (k : List String) :
    Option Document := do
  let last ← k.getLast?
  return ⟨← d.root.alongHeader (f last) k.dropLast, k⟩

def line (d : Document) (cs : List Char) : Option (Document × List Char) := do
  match skipBlanks cs with
  | '[' :: '[' :: rest =>
      let (k, rest) ← key rest
      let rest ← expect ']' rest
      let rest ← expect ']' rest
      let rest ← lineEnd rest
      return (← d.openWith Entries.openNext k, rest)
  | '[' :: rest =>
      let (k, rest) ← key rest
      let rest ← expect ']' rest
      let rest ← lineEnd rest
      return (← d.openWith Entries.openTable k, rest)
  | '#' :: rest => return (d, ← lineEnd ('#' :: rest))
  | '\n' :: rest => return (d, rest)
  | '\r' :: rest => return (d, ← newline? ('\r' :: rest))
  | cs =>
      let ((k, v), rest) ← keyValue (value (depthLimit - 1)) cs
      let rest ← lineEnd rest
      return (← d.add k v, rest)

/-- Read all lines.  Each takes at least one of the `most` characters that are left. -/
def lines : (most : Nat) → Document → List Char → Option Document
  | 0, d, cs => if (skipBlanks cs).isEmpty then some d else none
  | most + 1, d, cs =>
      if (skipBlanks cs).isEmpty then some d
      else do
        let (d, rest) ← d.line cs
        lines most d rest

end Document

/-- Read a document; a byte order mark in front of it is passed over. -/
def parse? (s : String) : Option Entries :=
  let cs := match s.toList with
    | '\ufeff' :: cs => cs
    | cs => cs
  (Document.empty.lines cs.length cs).map (·.root)

end MiddleEnd.Toml
