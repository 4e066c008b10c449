import LuaTyping.JsonText.Values
import LuaTyping.OptionFile.Comments

/-!
# Option files

An option file may name a file that it extends and may set inference options. An option that is
absent or `null` is left to the file it extends, and in the end to the standard options. Truth
values may also be written as words.
-/

set_option autoImplicit false

namespace LuaTyping

open JsonText

/-- The inference options that a file sets. -/
structure InferenceKeys where
  nilStrict : Option Bool := none
  globalNamesAsTypes : Option Bool := none
  genericsEnabled : Option Bool := none
  constructorNames : Option (List String) := none
  maxDepth : Option Nat := none
deriving DecidableEq, Inhabited, Repr

namespace InferenceKeys

/-- The options of `own`, and those of `base` where `own` sets none. -/
def inheriting (own base : InferenceKeys) : InferenceKeys :=
  { nilStrict := own.nilStrict <|> base.nilStrict
    globalNamesAsTypes := own.globalNamesAsTypes <|> base.globalNamesAsTypes
    genericsEnabled := own.genericsEnabled <|> base.genericsEnabled
    constructorNames := own.constructorNames <|> base.constructorNames
    maxDepth := own.maxDepth <|> base.maxDepth }

/-- The options with standard values where none are set. A depth of zero counts as not set. -/
def resolve (keys : InferenceKeys) : Options :=
  let standard := Options.standard
  { nilStrict := keys.nilStrict.getD standard.nilStrict
    globalNamesAsTypes := keys.globalNamesAsTypes.getD standard.globalNamesAsTypes
    genericsEnabled := keys.genericsEnabled.getD standard.genericsEnabled
    constructorNames := keys.constructorNames.getD standard.constructorNames
    maxDepth := (keys.maxDepth.filter (0 < ·)).getD standard.maxDepth }

/-- The truth value that a word names. Blanks around it and ASCII case do not matter. -/
def flagOfWord? (word : String) : Option Bool :=
  match Text.asciiLower (Text.trimBlank word) with
  | "true" | "1" | "yes" | "on" => some true
  | "false" | "0" | "no" | "off" => some false
  | _ => none

/-- Reads a truth value that may be written as a word. -/
def flag : Reader Bool := do
  match ← peek with
  | some '"' =>
    let word ← string
    match flagOfWord? word with
    | some value => return value
    | none => throw (.notBoolean word)
  | _ => boolean

/-- Reads the options that a file sets. -/
def reader : Reader InferenceKeys := do
  let assign : String → InferenceKeys → Reader InferenceKeys
    | "nilStrict", keys => do return { keys with nilStrict := ← optional flag }
    | "recognizeGlobalNameAsType", keys => do
      return { keys with globalNamesAsTypes := ← optional flag }
    | "enableGeneric", keys => do return { keys with genericsEnabled := ← optional flag }
    | "constructorNames", keys => do
      return { keys with constructorNames := ← optional (list string) }
    | "maxInferenceDepth", keys => do return { keys with maxDepth := ← optional natural }
    | _, _ => refuse
  let (_, keys) ← record Options.keys assign {}
  return keys

end InferenceKeys

/-- The content of an option file. -/
structure OptionFile where
  /-- The file it extends, as written. -/
  base : Option String := none
  inference : Option InferenceKeys := none
deriving DecidableEq, Inhabited, Repr

namespace OptionFile

/-- Reads the content of an option file. -/
def reader : Reader OptionFile := do
  let assign : String → OptionFile → Reader OptionFile
    | "extends", file => do return { file with base := ← optional string }
    | "inference", file => do return { file with inference := ← optional InferenceKeys.reader }
    | _, _ => refuse
  let (_, file) ← record ["extends", "inference"] assign {}
  return file

/-- The option file with the given text. -/
def parse (source : String) : Except Fault OptionFile :=
  readAll reader (strip source)

/-- The options that a file amounts to. What it extends is to be merged in before. -/
def options (file : OptionFile) : Options :=
  (file.inference.getD {}).resolve

/-- The file with the options of `base` where it sets none of its own. -/
def extending (file base : OptionFile) : OptionFile :=
  { base := none
    inference := match file.inference, base.inference with
      | some own, some inherited => some (own.inheriting inherited)
      | own, inherited => own <|> inherited }

end OptionFile

end LuaTyping
