/-! # TOML values

The values of a TOML document.  A table remembers how it came to be, because
that decides what may still be added to it.
-/

namespace MiddleEnd.Toml

/-- How a table came to be. -/
inductive Origin where
  /-- Written between braces; nothing can be added. -/
  | inline
  /-- Opened by a header of its own, or the document itself. -/
  | header
  /-- On the way to a table opened by a header. -/
  | implied
  /-- On the way to a key with dots. -/
  | dotted
deriving Repr, DecidableEq, Inhabited

/-- A value; floats and dates are kept as they were written. -/
inductive Value where
  | string (s : String)
  | integer (n : Int)
  | float (text : String)
  | boolean (b : Bool)
  | date (text : String)
  | array (elems : List Value)
  | table (origin : Origin) (entries : List (String × Value))
  /-- Tables opened one after the other by headers of one name. -/
  | tables (elems : List (List (String × Value)))
deriving Repr, Inhabited

/-- The keys of a table and their values. -/
abbrev Entries := List (String × Value)

namespace Entries

def put (key : String) (v : Value) : Entries → Entries
  | [] => [(key, v)]
  | (k, u) :: rest => if k = key then (k, v) :: rest else (k, u) :: put key v rest

/-- Whether a header may name a key in a table of this origin. -/
def openToHeaders : Origin → Bool
  | .inline => false
  | .header | .implied | .dotted => true

/-- Whether a key with dots may pass through a table of this origin; where the
    table is the one the key is put into, it has to come from such a key. -/
def openToDots (last : Bool) : Origin → Bool
  | .inline | .header => false
  | .implied => !last
  | .dotted => true

def changeLast (f : Entries → Option Entries) : List Entries → Option (List Entries)
  | [] => none
  | [t] => do return [← f t]
  | t :: u :: ts => do return t :: (← changeLast f (u :: ts))

/-- Change the table that the keys of a header lead to; tables that are not there
    yet are implied. -/
def alongHeader (f : Entries → Option Entries) : List String → Entries → Option Entries
  | [], es => f es
  | k :: ks, es =>
      match es.lookup k with
      | none => do return es.put k (.table .implied (← alongHeader f ks []))
      | some (.table origin inner) =>
          if openToHeaders origin then do
            return es.put k (.table origin (← alongHeader f ks inner))
          else none
      | some (.tables ts) => do
          return es.put k (.tables (← changeLast (alongHeader f ks) ts))
      | some _ => none

/-- Change the table that the first parts of a key with dots lead to. -/
def alongDots (f : Entries → Option Entries) : List String → Entries → Option Entries
  | [], es => f es
  | k :: ks, es =>
      match es.lookup k with
      | none => do return es.put k (.table .dotted (← alongDots f ks []))
      | some (.table origin inner) =>
          if openToDots ks.isEmpty origin then do
            return es.put k (.table origin (← alongDots f ks inner))
          else none
      | some (.tables ts) =>
          if ks.isEmpty then none
          else do return es.put k (.tables (← changeLast (alongDots f ks) ts))
      | some _ => none

def addNew (key : String) (v : Value) (es : Entries) : Option Entries :=
  match es.lookup key with
  | none => some (es ++ [(key, v)])
  | some _ => none

/-- Add a value under a key, which may have dots. -/
def add (key : List String) (v : Value) (es : Entries) : Option Entries :=
  match key.getLast? with
  | some k => alongDots (addNew k v) key.dropLast es
  | none => none

def openTable (key : String) (es : Entries) : Option Entries :=
  match es.lookup key with
  | none => some (es ++ [(key, .table .header [])])
  | some (.table .implied inner) => some (es.put key (.table .header inner))
  | some _ => none

/-- Open one more of the tables that a header with two brackets names. -/
def openNext (key : String) (es : Entries) : Option Entries :=
  match es.lookup key with
  | none => some (es ++ [(key, .tables [[]])])
  | some (.tables ts) => some (es.put key (.tables (ts ++ [[]])))
  | some _ => none

end Entries

end MiddleEnd.Toml
