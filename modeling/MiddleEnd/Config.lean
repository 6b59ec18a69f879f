import MiddleEnd.Options
import MiddleEnd.Toml.Document

/-! # Configuration

Options are read from a TOML document.  An option that the document does not
mention keeps its default; keys that name no option are passed over.
-/

namespace MiddleEnd

/-- Why a file gives no options. -/
inductive ConfigError where
  /-- There is no such file. -/
  | noFile
  /-- The file is not UTF-8 text. -/
  | notText
  /-- The text is no TOML document, or an option is no count. -/
  | malformed
deriving Repr, DecidableEq, Inhabited

def ConfigError.message (path : String) : ConfigError → String
  | .noFile => "Failed to read " ++ path ++ ": No such file or directory (os error 2)"
  | .notText => "Failed to read " ++ path ++ ": stream did not contain valid UTF-8"
  | .malformed => "Failed to parse " ++ path

namespace Options

/-- The count under a key, or its default. -/
def count? (entries : Toml.Entries) (key : String) (default : Nat) : Option Nat :=
  match entries.lookup key with
  | none => some default
  | some (.integer n) => if 0 ≤ n then some n.toNat else none
  | some _ => none

def ofToml? (text : String) : Option Options := do
  let entries ← Toml.parse? text
  let start : Options := {}
  return {
    inlineThreshold := ← count? entries "inline_threshold" start.inlineThreshold
    maxIterations := ← count? entries "max_iterations" start.maxIterations }

def ofFile (contents : Option ByteArray) : Except ConfigError Options :=
  match contents with
  | none => .error .noFile
  | some bytes =>
      match String.fromUTF8? bytes with
      | none => .error .notText
      | some text =>
          match ofToml? text with
          | none => .error .malformed
          | some options => .ok options

end Options

end MiddleEnd
