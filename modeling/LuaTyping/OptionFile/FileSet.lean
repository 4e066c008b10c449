import LuaTyping.OptionFile.Path

/-!
# Sets of files

A volume holds files, each at one canonical place, and knows to which place a path as written leads.
How it does so is its own affair: there may be links, and absolute paths may lead somewhere. But
what is a file has a directory: a path without one, such as the root, leads to no file.

A file set is a volume of which everything is listed, the files and directories below a root. The
place of a file is made of the names on the way to it from the root, and a path leads there by
walking its segments.
-/

set_option autoImplicit false

namespace LuaTyping

/-- Files, and the paths that lead to them. -/
structure Volume where
  /-- The canonical place of what a path leads to. -/
  place? : OptionPath → Option (List String)
  /-- The text of each file, by its place. -/
  files : List (List String × String)
  housed : ∀ path place, place? path = some place → (files.lookup place).isSome →
    path.parent?.isSome

/-- The text of the file at a place. -/
def Volume.read? (volume : Volume) (place : List String) : Option String :=
  volume.files.lookup place

/-- The files below the root, by their places. The one added last stands first. -/
structure FileSet where
  files : List (List String × String) := []
  directories : List (List String) := []
  /-- The root itself is no file. -/
  rootless : files.lookup [] = none := by rfl
deriving DecidableEq, Inhabited, Repr

namespace FileSet

/-- The set with the text of the file `name` in a directory. -/
def addFile (set : FileSet) (directory : List String) (name text : String) : FileSet where
  files := (directory ++ [name], text) :: set.files
  directories := set.directories
  rootless := by
    have other : ([] == directory ++ [name]) = false := by simp
    rw [List.lookup_cons, other]
    exact set.rootless

/-- The root is a directory, and so is whatever was made one. -/
def isDirectory (set : FileSet) (place : List String) : Bool :=
  place.isEmpty || set.directories.contains place

/-- The text of the file at a place. -/
def read? (set : FileSet) (place : List String) : Option String :=
  set.files.lookup place

/-- Whether a file or a directory is at a place. -/
def isOccupied (set : FileSet) (place : List String) : Bool :=
  set.isDirectory place || (set.read? place).isSome

/-- The set with a file added, and the directories on the way to it. `place` is where the segments
count from. -/
def addFrom (text : String) : List String → List String → FileSet → FileSet
  | _, [], set => set
  | place, [name], set => set.addFile place name text
  | place, segment :: next :: segments, set =>
    if OptionPath.isIdle segment then addFrom text place (next :: segments) set
    else if segment == ".." then addFrom text place.dropLast (next :: segments) set
    else
      addFrom text (place ++ [segment]) (next :: segments)
        { set with directories := (place ++ [segment]) :: set.directories }

/-- The set of the given files, each with its path from the root and its text. -/
def ofList (entries : List (String × String)) : FileSet :=
  entries.foldl (fun set (path, text) => addFrom text [] (OptionPath.segmentsOf path) set) {}

/-- The place that segments lead to from `place`. Each step has to start from a directory and to
arrive at something, and none leads above the root. -/
def walk? (set : FileSet) : List String → List String → Option (List String)
  | place, [] => some place
  | place, segment :: segments =>
    if set.isDirectory place then
      if OptionPath.isIdle segment then walk? set place segments
      else if segment == ".." then
        if place.isEmpty then none else walk? set place.dropLast segments
      else if set.isOccupied (place ++ [segment]) then walk? set (place ++ [segment]) segments
      else none
    else none

/-- The canonical place of a path. The root has no name here, so no absolute path leads below it. -/
def place? (set : FileSet) : OptionPath → Option (List String)
  | .below segments => set.walk? [] segments
  | .absolute _ => none

/-- Segments that name nothing lead nowhere else. -/
theorem eq_of_walk? {set : FileSet} {place target segments : List String}
    (idle : ∀ segment ∈ segments, OptionPath.isIdle segment = true)
    (leads : set.walk? place segments = some target) : target = place := by
  induction segments with
  | nil =>
    rw [walk?] at leads
    exact (Option.some.inj leads).symm
  | cons segment rest ih =>
    rw [walk?] at leads
    split at leads
    · rw [if_pos (idle segment List.mem_cons_self)] at leads
      exact ih (fun other mem => idle other (List.mem_cons_of_mem segment mem)) leads
    · cases leads

/-- The listed files as a volume. -/
def volume (set : FileSet) : Volume where
  place? := set.place?
  files := set.files
  housed := by
    rintro (segments | segments) place leads file
    · rw [OptionPath.parent?, Option.isSome_map, OptionPath.directory?]
      split
      · rename_i nothing
        -- the segments lead to the root, which is no file
        have root : place = [] := eq_of_walk? (fun _ => OptionPath.isIdle_of_trimmed_eq_nil nothing)
          leads
        rw [root, set.rootless] at file
        exact file
      · rfl
    · cases leads

instance : Coe FileSet Volume := ⟨volume⟩

end FileSet

end LuaTyping
