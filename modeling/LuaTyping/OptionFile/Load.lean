import LuaTyping.OptionFile.Basic
import LuaTyping.OptionFile.FileSet

/-!
# Loading option files

An option file is loaded together with the file it extends, that file with the one it extends, and
so on. The chain must not come back to a file it has passed; which file a path means is decided by
its canonical place, so a different way of writing the path does not hide a cycle.
-/

set_option autoImplicit false

namespace LuaTyping

/-- Why option files cannot be loaded. -/
inductive LoadError where
  | unreadable (path : OptionPath)
  | malformed (path : OptionPath) (cause : JsonText.Fault)
  /-- The path of a file that extends another has no directory. -/
  | homeless (path : OptionPath)
  /-- The chain comes back to the file at the place. -/
  | cycle (place : List String)
deriving DecidableEq, Inhabited, Repr

namespace LoadError

/-- The message of an error, given the text of the root. -/
def message (root : String) : LoadError → String
  | .unreadable path => "failed to read options file: " ++ path.render root
  | .malformed path _ => "failed to parse options file: " ++ path.render root
  | .homeless _ => "options file has no parent directory"
  | .cycle place =>
    "options extends cycle detected at " ++ (OptionPath.below place).render root

/-- What is wrong with the word for a truth value, if that is the cause. -/
def explanation? : LoadError → Option String
  | .malformed _ cause => cause.explanation?
  | _ => none

end LoadError

namespace OptionFile

/-- Loads a file and what it extends. `chain` holds the places of the files passed so far. -/
def loadFrom (volume : Volume) : Nat → List (List String) → OptionPath →
    Except LoadError OptionFile
  | 0, _, path => throw (.unreadable path)
  | bound + 1, chain, path =>
    match volume.place? path with
    | none => throw (.unreadable path)
    | some place =>
      if chain.contains place then throw (.cycle place)
      else
        match volume.read? place with
        | none => throw (.unreadable path)
        | some text =>
          match parse text with
          | .error cause => throw (.malformed path cause)
          | .ok file =>
            match file.base with
            | none => return file
            | some base =>
              match path.parent? with
              | none => throw (.homeless path)
              | some directory => do
                let target := directory.within (OptionPath.ofText base).withExtension
                return file.extending (← loadFrom volume bound (place :: chain) target)

/-- Loads a file and what it extends. The files of a chain are different, so no chain is longer
than there are files. -/
def load (volume : Volume) (path : OptionPath) : Except LoadError OptionFile :=
  loadFrom volume (volume.files.length + 1) [] path

/-- The options that a file and what it extends amount to. -/
def loadOptions (volume : Volume) (path : OptionPath) : Except LoadError Options := do
  return (← load volume path).options

end OptionFile

end LuaTyping
