/-!
# Paths of option files

A path is kept as it was written, in segments between slashes, because messages show it that way.
A path that is not absolute counts from one directory, the root, whose own name is known only to
whoever shows a message. The segments of an absolute path are those after its first slash, so a file
directly in the topmost directory has one segment too.
-/

set_option autoImplicit false

namespace LuaTyping

/-- A path as written, as the segments between its slashes. -/
inductive OptionPath where
  | below (segments : List String)
  | absolute (segments : List String)
deriving DecidableEq, Inhabited, Repr

namespace OptionPath

/-- What stands between the slashes of a text. -/
def segmentsOf (text : String) : List String :=
  (text.toList.splitOn '/').map String.ofList

/-- The path that a text names. -/
def ofText (text : String) : OptionPath :=
  match segmentsOf text with
  | "" :: first :: segments => .absolute (first :: segments)
  | segments => .below segments

/-- The text of a path, given the text of the root. -/
def render (root : String) : OptionPath → String
  | .below segments => root ++ "/" ++ "/".intercalate segments
  | .absolute segments => "/" ++ "/".intercalate segments

/-- Whether a segment names nothing: an empty one does not, nor does a single dot. -/
def isIdle (segment : String) : Bool := segment == "" || segment == "."

/-- The segments without those at the end that name nothing. -/
def trimmed (segments : List String) : List String :=
  (segments.reverse.dropWhile isIdle).reverse

theorem isIdle_of_trimmed_eq_nil {segments : List String} (nothing : trimmed segments = [])
    {segment : String} (mem : segment ∈ segments) : isIdle segment = true := by
  have whole := List.takeWhile_append_dropWhile (p := isIdle) (l := segments.reverse)
  rw [List.reverse_eq_nil_iff.mp nothing, List.append_nil] at whole
  exact List.all_eq_true.mp List.all_takeWhile segment (whole ▸ List.mem_reverse.mpr mem)

/-- The directory of what the segments name, if they name anything. -/
def directory? (segments : List String) : Option (List String) :=
  match trimmed segments with
  | [] => none
  | named => some (trimmed named.dropLast)

/-- Whether a file name has an extension, possibly an empty one: whether a dot stands after its
first character. -/
def hasExtension (name : String) : Bool :=
  (name.toList.drop 1).contains '.'

/-- The segments with `.json` added to a file name that has no extension. Segments that end by
going up, or name nothing, stay as they are. -/
def segmentsWithExtension (segments : List String) : List String :=
  match (trimmed segments).getLast? with
  | none => segments
  | some name =>
    if name == ".." || hasExtension name then segments
    else (trimmed segments).dropLast ++ [name ++ ".json"]

/-- The path with `.json` added to a file name that has no extension. -/
def withExtension : OptionPath → OptionPath
  | .below segments => .below (segmentsWithExtension segments)
  | .absolute segments => .absolute (segmentsWithExtension segments)

/-- The directory of the file that a path names. The root and the topmost directory have none
here. -/
def parent? : OptionPath → Option OptionPath
  | .below segments => (directory? segments).map .below
  | .absolute segments => (directory? segments).map .absolute

/-- The path seen from a directory. An absolute path is the same from everywhere. -/
def within (directory : OptionPath) : OptionPath → OptionPath
  | .absolute segments => .absolute segments
  | .below segments =>
    match directory with
    | .below outer => .below (outer ++ segments)
    | .absolute outer => .absolute (outer ++ segments)

end OptionPath

end LuaTyping
