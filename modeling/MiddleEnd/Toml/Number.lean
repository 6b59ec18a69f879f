import MiddleEnd.Toml.Lexeme
import MiddleEnd.Toml.Value

/-! # TOML numbers and dates

A number that does not fit is refused: an integer has to lie between the bounds
of 64 bits, and a float must not round to positive infinity.
-/

namespace MiddleEnd.Toml

/-- The characters that were read, given what is left of them. -/
def readText (cs rest : List Char) : String :=
  String.ofList (cs.take (cs.length - rest.length))

/-- An integer of 64 bits. -/
def integer? (n : Int) : Option Value :=
  if -Int.pow 2 63 ≤ n ∧ n < Int.pow 2 63 then some (.integer n) else none

def sign : List Char → Bool × List Char
  | '+' :: rest => (false, rest)
  | '-' :: rest => (true, rest)
  | cs => (false, cs)

/-- The digits of an integer: a zero alone, or a run that does not start with one. -/
def wholeDigits : Reader (List Nat)
  | '0' :: rest => some ([0], rest)
  | cs => digits 10 cs

def fractionDigits : Reader (List Nat)
  | '.' :: rest => digits 10 rest
  | cs => some ([], cs)

def exponentPart : Reader Int
  | 'e' :: rest | 'E' :: rest => do
      let (negative, rest) := sign rest
      let (ds, rest) ← digits 10 rest
      let n := ofDigits 10 ds
      return (if negative then -(n : Int) else n, rest)
  | cs => some (0, cs)

/-- The least number that rounds to infinity. -/
def overflow : Nat :=
  Nat.pow 2 1024 - Nat.pow 2 970

/-- Whether `0.d₁d₂… * 10 ^ point` is at least `overflow`, which has 309 digits. -/
def overflows (ds : List Nat) (point : Int) : Bool :=
  let significant := ds.dropWhile (· == 0)
  let point := point - ((ds.length - significant.length : Nat) : Int)
  if significant.isEmpty || point < 309 then false
  else if 309 < point then true
  else
    let n := ofDigits 10 significant
    let len := significant.length
    decide (overflow * Nat.pow 10 (len - 309) ≤ n * Nat.pow 10 (309 - len))

/-- Whether a float or an exponent goes on here. -/
def goesOn : List Char → Bool
  | '.' :: _ | 'e' :: _ | 'E' :: _ => true
  | _ => false

def decimal (negative : Bool) (start : List Char) : Reader Value := fun cs => do
  let (whole, rest) ← wholeDigits cs
  if goesOn rest then
    let (fraction, rest) ← fractionDigits rest
    let (exponent, rest) ← exponentPart rest
    if !negative && overflows (whole ++ fraction) (whole.length + exponent) then none
    else return (.float (readText start rest), rest)
  else
    let n := ofDigits 10 whole
    return (← integer? (if negative then -(n : Int) else n), rest)

def based (base : Nat) : Reader Value := fun cs => do
  let (ds, rest) ← digits base cs
  return (← integer? (ofDigits base ds), rest)

/-- A number; only a decimal one has a sign. -/
def anyNumber : Reader Value
  | '0' :: 'x' :: rest => based 16 rest
  | '0' :: 'o' :: rest => based 8 rest
  | '0' :: 'b' :: rest => based 2 rest
  | cs =>
      let (negative, rest) := sign cs
      match rest with
      | 'i' :: 'n' :: 'f' :: rest => some (.float (readText cs rest), rest)
      | 'n' :: 'a' :: 'n' :: rest => some (.float (readText cs rest), rest)
      | rest => decimal negative cs rest

/-- Whether a date starts here: four digits and a hyphen. -/
def startsDate : List Char → Bool
  | a :: b :: c :: d :: '-' :: _ => a.isDigit && b.isDigit && c.isDigit && d.isDigit
  | _ => false

def date (cs : List Char) : Option (List Char) := do
  let (year, rest) ← number 4 0 9999 cs
  let rest ← expect '-' rest
  afterDate (← afterYear year rest)

def numberOrDate : Reader Value := fun cs =>
  if startsDate cs then do
    let rest ← date cs
    return (.date (readText cs rest), rest)
  else if startsTime cs then do
    let rest ← afterTime cs
    return (.date (readText cs rest), rest)
  else anyNumber cs

end MiddleEnd.Toml
