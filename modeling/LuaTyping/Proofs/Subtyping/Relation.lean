import LuaTyping.Ty.Equality
import LuaTyping.Proofs.Subtyping.Outline

/-!
# Subtyping without a guard

`Ty.Below` is subtyping as plain structural recursion: the rules and nothing else, no pairs in
progress and no limits. It covers types in which no named class occurs; what is below a named class
depends on a project and not on the two types.

`Ty.BelowAssuming seen` is the same relation with one more rule: a pair whose outlines are in `seen`
holds outright. The rules by shape add the pair they are applied to, so `seen` is what is being
compared around the pair. Outlines are coarser than types, so the extra rule can say more than the
types bear out; how far the two relations can differ is the subject of
`LuaTyping.Proofs.Subtyping.Repetition`.

The rules by shape are stated once, over the relation that compares the parts.
-/

set_option autoImplicit false

namespace LuaTyping.Ty

/-- Whether the type is neither unknown nor a union; only such types are compared by shape. -/
def isDefinite : Ty → Bool
  | .unknown | .union _ => false
  | _ => true

/-- The rules that go by the outermost shapes of two types, where `part` compares their parts. -/
inductive ShapeRule (part : Ty → Ty → Prop) : Ty → Ty → Prop
  | literal (text : String) : ShapeRule part (.literal text) .string
  | arrayTable (element : Ty) (supers : List String) :
      ShapeRule part (.array element) (.record supers [])
  | tupleTable (elements : List Ty) (supers : List String) :
      ShapeRule part (.tuple elements) (.record supers [])
  | array {element element' : Ty} (h : part element element') :
      ShapeRule part (.array element) (.array element')
  | tupleArray {elements : List Ty} {element' : Ty} (h : ∀ e ∈ elements, part e element') :
      ShapeRule part (.tuple elements) (.array element')
  | tuple {elements elements' : List Ty} (len : elements.length = elements'.length)
      (h : ∀ pair ∈ elements.zip elements', part pair.1 pair.2) :
      ShapeRule part (.tuple elements) (.tuple elements')
  /-- Every expected member is there, at a type below the expected one. -/
  | record {supers supers' : List String} {members expected : List (Member Ty)}
      (has : ∀ wanted ∈ expected, (findMember? members wanted.name).isSome)
      (h : ∀ wanted ∈ expected, ∀ found, findMember? members wanted.name = some found →
        part found.ty wanted.ty) :
      ShapeRule part (.record supers members) (.record supers' expected)
  /-- Shared parameters are compared the other way round. Those that callers of the second function
  never pass arrive as `nil`, unless it is variadic. -/
  | function {params params' : List Ty} {ret ret' : Ty} {variadic variadic' : Bool}
      {generics generics' : List String}
      (shared : ∀ pair ∈ params'.zip params, part pair.1 pair.2)
      (missing : variadic' = false → ∀ param ∈ params.drop params'.length, part .nil param)
      (result : part ret ret') :
      ShapeRule part (.function params ret variadic generics)
        (.function params' ret' variadic' generics')

/-- The first type is below the second by plain structural recursion. -/
inductive Below : Ty → Ty → Prop
  | equal {a b : Ty} (h : a.eqv b = true) : Below a b
  | top (a : Ty) : Below a .unknown
  | unionLeft {alts : List Ty} {b : Ty} (h : ∀ alt ∈ alts, Below alt b) : Below (.union alts) b
  | unionRight {a alt : Ty} {alts : List Ty} (definite : a.isDefinite = true) (mem : alt ∈ alts)
      (h : Below a alt) : Below a (.union alts)
  | shape {a b : Ty} (h : ShapeRule Below a b) : Below a b

/-- The first type is below the second if every pair with outlines in `seen` is taken to hold. -/
inductive BelowAssuming : List (Outline × Outline) → Ty → Ty → Prop
  | equal {seen : List (Outline × Outline)} {a b : Ty} (h : a.eqv b = true) :
      BelowAssuming seen a b
  | top {seen : List (Outline × Outline)} (a : Ty) : BelowAssuming seen a .unknown
  | unionLeft {seen : List (Outline × Outline)} {alts : List Ty} {b : Ty}
      (h : ∀ alt ∈ alts, BelowAssuming seen alt b) : BelowAssuming seen (.union alts) b
  | unionRight {seen : List (Outline × Outline)} {a alt : Ty} {alts : List Ty}
      (definite : a.isDefinite = true) (mem : alt ∈ alts) (h : BelowAssuming seen a alt) :
      BelowAssuming seen a (.union alts)
  | assumed {seen : List (Outline × Outline)} {a b : Ty} (left : a.isDefinite = true)
      (right : b.isDefinite = true) (h : (a.outline, b.outline) ∈ seen) : BelowAssuming seen a b
  | shape {seen : List (Outline × Outline)} {a b : Ty} {part : Ty → Ty → Prop}
      (h : ShapeRule part a b)
      (parts : ∀ c d, part c d → BelowAssuming ((a.outline, b.outline) :: seen) c d) :
      BelowAssuming seen a b

theorem ShapeRule.definite {part : Ty → Ty → Prop} {a b : Ty} (h : ShapeRule part a b) :
    a.isDefinite = true ∧ b.isDefinite = true := by
  cases h <;> exact ⟨rfl, rfl⟩

/-- Assumptions never take anything away. -/
theorem Below.assuming {a b : Ty} (h : Below a b) : ∀ seen, BelowAssuming seen a b := by
  refine Below.rec (motive_1 := fun a b _ => ∀ seen, BelowAssuming seen a b)
    (motive_2 := fun a b _ => ShapeRule (fun c d => ∀ seen, BelowAssuming seen c d) a b)
    ?equal ?top ?unionLeft ?unionRight ?shape ?literal ?arrayTable ?tupleTable ?array ?tupleArray
    ?tuple ?record ?function h
  case equal => exact fun h _ => .equal h
  case top => exact fun a _ => .top a
  case unionLeft => exact fun _ ih seen => .unionLeft fun alt mem => ih alt mem seen
  case unionRight => exact fun definite mem _ ih seen => .unionRight definite mem (ih seen)
  case shape => exact fun _ ih seen => .shape ih fun _ _ h => h _
  case literal => exact fun text => .literal text
  case arrayTable => exact fun element supers => .arrayTable element supers
  case tupleTable => exact fun elements supers => .tupleTable elements supers
  case array => exact fun _ ih => .array ih
  case tupleArray => exact fun _ ih => .tupleArray ih
  case tuple => exact fun len _ ih => .tuple len ih
  case record => exact fun has _ ih => .record has ih
  case function => exact fun _ _ _ shared missing result => .function shared missing result

end LuaTyping.Ty
