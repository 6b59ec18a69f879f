import MiddleEnd.Name
import MiddleEnd.Ty

/-! # Signatures

The types of external names, the names that a program uses and does not bind.
-/

namespace MiddleEnd

/-- Types of external names, sorted by name. -/
abbrev Signature := List (Name × Ty)

namespace Signature

def insert (x : Name) (ty : Ty) : Signature → Signature
  | [] => [(x, ty)]
  | (y, u) :: rest =>
      if x = y then (x, ty) :: rest
      else if x < y then (x, ty) :: (y, u) :: rest
      else (y, u) :: insert x ty rest

def erase (x : Name) (sig : Signature) : Signature :=
  sig.filter fun entry => entry.1 ≠ x

def find? (sig : Signature) (x : Name) : Option Ty :=
  sig.lookup x

/-- The signature with these entries; of two entries for a name the later one counts. -/
def ofList (entries : List (Name × Ty)) : Signature :=
  entries.foldl (fun sig entry => insert entry.1 entry.2 sig) []

/-- Change every type, in the order of the names. -/
def mapM {m : Type → Type} [Monad m] (f : Ty → m Ty) : Signature → m Signature
  | [] => return []
  | (x, ty) :: rest => do
      let ty ← f ty
      return (x, ty) :: (← mapM f rest)

end Signature

end MiddleEnd
