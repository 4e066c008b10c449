import LuaTyping.Infer.Options
import LuaTyping.JsonText.Record
import LuaTyping.Source
import LuaTyping.Visibility

/-!
# Values of the project in JSON text

How spans, file numbers, access levels, names and options are read. A name is a string and needs
no reader of its own.
-/

set_option autoImplicit false

namespace LuaTyping

open JsonText

/-- Reads a file by its number. -/
def FileId.reader : Reader FileId := do
  return ⟨← natural⟩

/-- Reads a span, of which both ends have to be given. -/
def Span.reader : Reader Span := do
  let assign : String → Span → Reader Span
    | "start", span => do return { span with start := ← natural }
    | "end", span => do return { span with stop := ← natural }
    | _, _ => refuse
  let (found, span) ← record ["start", "end"] assign default
  if found.length = 2 then return span else refuse

/-- Reads the keyword of an access level. -/
def Visibility.keywordReader : Reader Visibility := do
  orRefuse (Visibility.ofKeyword? (← string))

/-- Reads an access level: its keyword, or a record that gives the keyword the value `null`. -/
def Visibility.reader : Reader Visibility := do
  match ← peek with
  | some '\x7b' =>
    expect '\x7b'
    let level ← keywordReader
    expect ':'
    expectWord "null"
    expect '\x7d'
    return level
  | _ => keywordReader

/-- The names of the options where they are written. -/
def Options.keys : List String :=
  ["nilStrict", "recognizeGlobalNameAsType", "enableGeneric", "constructorNames",
    "maxInferenceDepth"]

/-- Reads options. An option that is not given has its standard value; `null` does not count as a
value here. -/
def Options.reader : Reader Options := do
  let assign : String → Options → Reader Options
    | "nilStrict", options => do return { options with nilStrict := ← boolean }
    | "recognizeGlobalNameAsType", options => do
      return { options with globalNamesAsTypes := ← boolean }
    | "enableGeneric", options => do return { options with genericsEnabled := ← boolean }
    | "constructorNames", options => do
      return { options with constructorNames := ← list string }
    | "maxInferenceDepth", options => do return { options with maxDepth := ← natural }
    | _, _ => refuse
  let (_, options) ← record keys assign Options.standard
  return options

end LuaTyping
