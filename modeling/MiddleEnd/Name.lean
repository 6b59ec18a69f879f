/-! # Names and the supply of new ones

A name is any text.  A name made for a binder is its base followed by a dot and
a number; a name made for an intermediate result is `T`, a letter for its type
and a number.  Both kinds take their numbers from one counter.
-/

namespace MiddleEnd

abbrev Name := String

namespace Name

/-- The name without the number a supply gave it: a nonempty stem, the last dot
    and at least one digit make a numbered name, and only the stem is kept.
    Any other name is its own base. -/
def base (x : Name) : Name :=
  let backwards := x.toList.reverse
  match backwards.takeWhile Char.isDigit, backwards.dropWhile Char.isDigit with
  | _ :: _, '.' :: c :: stem => String.ofList (c :: stem).reverse
  | _, _ => x

/-- Insert a name into a list that is sorted by code points and has no name twice. -/
def insert (x : Name) : List Name → List Name
  | [] => [x]
  | y :: ys =>
      if x = y then y :: ys
      else if x < y then x :: y :: ys
      else y :: insert x ys

/-- The names of a list, each once, sorted by code points. -/
def sorted (xs : List Name) : List Name :=
  xs.foldr insert []

def commas (xs : List Name) : String :=
  ", ".intercalate xs

end Name

/-- How many names have been made so far. -/
structure Supply where
  count : UInt32
deriving Repr, DecidableEq, Inhabited

namespace Supply

def new : Supply := ⟨0⟩

/-- The next number, counted from one. -/
def next : StateM Supply UInt32 := do
  modify fun s => ⟨s.count + 1⟩
  return (← get).count

/-- A numbered name on the base of `x`. -/
def numbered (x : Name) : StateM Supply Name := do
  return x.base ++ "." ++ (← next).toNat.repr

def temporary (tag : Char) : StateM Supply Name := do
  return "T" ++ tag.toString ++ (← next).toNat.repr

end Supply

end MiddleEnd
