import LuaTyping.Interchange.Value
import LuaTyping.OptionFile.Basic

/-!
# Options as interchange values

Options are a record of five fields. When they are read, an absent field has its standard value.
The options that an option file sets are written as the same record, with null where it sets none.
-/

set_option autoImplicit false

namespace LuaTyping.Options

/-- Reads options. -/
def read (value : Value) : ReadM Options := do
  let flagOr (key : String) (standard : Bool) : ReadM Bool := do
    pure ((← (value.get key).optional Value.flag).getD standard)
  pure
    { nilStrict := ← flagOr "nilStrict" standard.nilStrict
      globalNamesAsTypes := ← flagOr "recognizeGlobalNameAsType" standard.globalNamesAsTypes
      genericsEnabled := ← flagOr "enableGeneric" standard.genericsEnabled
      constructorNames :=
        (← (value.get "constructorNames").optional Value.strs).getD standard.constructorNames
      maxDepth := (← (value.get "maxInferenceDepth").optional Value.nat).getD standard.maxDepth }

/-- Writes options. -/
def write (options : Options) : Value :=
  .record [("nilStrict", .bool options.nilStrict),
    ("recognizeGlobalNameAsType", .bool options.globalNamesAsTypes),
    ("enableGeneric", .bool options.genericsEnabled),
    ("constructorNames", .texts options.constructorNames),
    ("maxInferenceDepth", .ofNat options.maxDepth)]

end LuaTyping.Options

namespace LuaTyping

/-- Writes the options that a file sets. -/
def InferenceKeys.write (keys : InferenceKeys) : Value :=
  .record [("nilStrict", .ofOption .bool keys.nilStrict),
    ("recognizeGlobalNameAsType", .ofOption .bool keys.globalNamesAsTypes),
    ("enableGeneric", .ofOption .bool keys.genericsEnabled),
    ("constructorNames", .ofOption .texts keys.constructorNames),
    ("maxInferenceDepth", .ofOption .ofNat keys.maxDepth)]

/-- Writes an option file and the options it amounts to. -/
def OptionFile.write (file : OptionFile) : Value :=
  .record [("extends", .ofOption .text file.base),
    ("inference", .ofOption InferenceKeys.write file.inference),
    ("resolved", file.options.write)]

end LuaTyping
