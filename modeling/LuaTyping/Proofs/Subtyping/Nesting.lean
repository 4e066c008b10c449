import LuaTyping.Proofs.Subtyping.Relation

/-!
# Parts and nesting

The rules by shape compare parts of the two types with one another, or `nil` with a part. `PartPair`
says which pairs these are, and every property that passes from a type to its parts is stated
against it: nesting, the absence of named classes, weight, records. A relation on types thus only
has to be known at the pairs of parts, not everywhere.

Unions have parts like every other compound type, but add no level of nesting; their alternatives
are compared where the union stands.
-/

set_option autoImplicit false

namespace LuaTyping.Ty

/-! ## Parts -/

/-- The types that stand directly inside a type. -/
def parts : Ty → List Ty
  | .function params ret _ _ => ret :: params
  | .named _ _ members | .record _ members => members.map (·.ty)
  | .union alts => alts
  | .aliasRef _ args => args
  | .array element => [element]
  | .tuple elements => elements
  | _ => []

/-- To prove something of a type, it is enough to prove it from its parts. -/
theorem induction_on_parts {motive : Ty → Prop}
    (step : ∀ ty : Ty, (∀ part ∈ ty.parts, motive part) → motive ty) (ty : Ty) : motive ty := by
  refine Ty.rec (motive_1 := motive) (motive_2 := fun tys => ∀ ty ∈ tys, motive ty)
    (motive_3 := fun members => ∀ ty ∈ members.map (·.ty), motive ty)
    (motive_4 := fun member => motive member.ty)
    ?unknown ?nil ?boolean ?number ?string ?literal ?function ?named ?record ?union ?generic
    ?aliasRef ?array ?tuple ?none ?cons ?noMember ?consMember ?member ty
  case unknown | nil | boolean | number | string => exact step _ (by simp [parts])
  case literal | generic => exact fun _ => step _ (by simp [parts])
  case function =>
    intro params ret variadic generics hparams hret
    exact step _ (by simpa [parts] using ⟨hret, hparams⟩)
  case named => exact fun _ _ _ hmembers => step _ hmembers
  case record => exact fun _ _ hmembers => step _ hmembers
  case union | tuple => exact fun _ hparts => step _ hparts
  case aliasRef => exact fun _ _ hargs => step _ hargs
  case array => exact fun _ helement => step _ (by simpa [parts] using helement)
  case none | noMember => simp
  case cons => exact fun _ _ hty hrest => List.forall_mem_cons.mpr ⟨hty, hrest⟩
  case consMember => exact fun _ _ hty hrest => List.forall_mem_cons.mpr ⟨hty, hrest⟩
  case member => exact fun _ _ _ _ _ hty => hty

/-- Whether the type is a record. -/
def isRecord : Ty → Bool
  | .record _ _ => true
  | _ => false

/-- Whether the outline of the type goes on into its parts. It does not look inside classes. -/
def isTransparent : Ty → Bool
  | .named _ _ _ | .record _ _ => false
  | _ => true

/-- The pairs that the rules by shape compare when they are applied to `a` and `b`: members of two
records, or parts of two types that are no classes, where `nil` stands for a part that is not
there. -/
inductive PartPair (a b : Ty) : Ty → Ty → Prop
  | members {c d : Ty} (ha : a.isRecord = true) (hb : b.isRecord = true) (left : c ∈ a.parts)
      (right : d ∈ b.parts) : PartPair a b c d
  | straight {c d : Ty} (ha : a.isTransparent = true) (hb : b.isTransparent = true)
      (left : c ∈ a.parts) (right : d ∈ b.parts) : PartPair a b c d
  | crossed {c d : Ty} (ha : a.isTransparent = true) (hb : b.isTransparent = true)
      (left : c ∈ b.parts) (right : d ∈ a.parts) : PartPair a b c d
  | missing {d : Ty} (ha : a.isTransparent = true) (hb : b.isTransparent = true)
      (right : d ∈ a.parts) : PartPair a b .nil d

/-- The rules by shape look at nothing but the pairs of parts. -/
theorem ShapeRule.mono_parts {part part' : Ty → Ty → Prop} {a b : Ty} (h : ShapeRule part a b)
    (imp : ∀ c d, PartPair a b c d → part c d → part' c d) : ShapeRule part' a b := by
  cases h with
  | literal text => exact .literal text
  | arrayTable element supers => exact .arrayTable element supers
  | tupleTable elements supers => exact .tupleTable elements supers
  | array h => exact .array (imp _ _ (.straight rfl rfl (by simp [parts]) (by simp [parts])) h)
  | tupleArray h =>
    exact .tupleArray fun e mem => imp _ _ (.straight rfl rfl mem (by simp [parts])) (h e mem)
  | tuple len h =>
    refine .tuple len fun pair mem => imp _ _ (.straight rfl rfl ?_ ?_) (h pair mem)
    · exact (List.of_mem_zip mem).1
    · exact (List.of_mem_zip mem).2
  | record has h =>
    refine .record has fun wanted mem found hf =>
      imp _ _ (.members rfl rfl ?_ ?_) (h wanted mem found hf)
    · exact List.mem_map_of_mem (List.mem_of_find?_eq_some hf)
    · exact List.mem_map_of_mem mem
  | function shared missing result =>
    refine .function (fun pair mem => imp _ _ (.crossed rfl rfl ?_ ?_) (shared pair mem))
      (fun hv param mem => imp _ _ (.missing rfl rfl ?_) (missing hv param mem))
      (imp _ _ (.straight rfl rfl ?_ ?_) result)
    · exact List.mem_cons_of_mem _ (List.of_mem_zip mem).1
    · exact List.mem_cons_of_mem _ (List.of_mem_zip mem).2
    · exact List.mem_cons_of_mem _ (List.mem_of_mem_drop mem)
    · exact List.mem_cons_self
    · exact List.mem_cons_self

/-! ## Nodes -/

theorem anyNodeList_eq_any (test : Ty → Bool) : ∀ tys : List Ty,
    anyNodeList test tys = tys.any (anyNode test)
  | [] => rfl
  | ty :: rest => by rw [anyNodeList, anyNodeList_eq_any test rest, List.any_cons]

theorem anyNodeMembers_eq_any (test : Ty → Bool) : ∀ members : List (Member Ty),
    anyNodeMembers test members = (members.map (·.ty)).any (anyNode test)
  | [] => rfl
  | ⟨_, ty, _, _, _⟩ :: rest => by
    rw [anyNodeMembers, anyNodeMembers_eq_any test rest, List.map_cons, List.any_cons]

/-- A node is the type itself or a node of one of its parts. -/
theorem anyNode_eq (test : Ty → Bool) (ty : Ty) :
    ty.anyNode test = (test ty || ty.parts.any (anyNode test)) := by
  cases ty with
  | function params ret variadic generics =>
    simp only [anyNode, parts, anyNodeList_eq_any, List.any_cons, Bool.or_assoc]
    congr 1
    exact Bool.or_comm _ _
  | _ => simp [anyNode, parts, anyNodeList_eq_any, anyNodeMembers_eq_any]

theorem anyNode_part {test : Ty → Bool} {ty part : Ty} (mem : part ∈ ty.parts)
    (h : ty.anyNode test = false) : part.anyNode test = false := by
  rw [anyNode_eq, Bool.or_eq_false_iff] at h
  exact Bool.eq_false_iff.mpr fun hp => by
    simpa [h.2] using List.any_eq_true.mpr ⟨part, mem, hp⟩

/-- Whether a named class occurs anywhere in the type. -/
def containsNamed (ty : Ty) : Bool := ty.anyNode fun node => node.className?.isSome

/-- Whether a record occurs anywhere in the type. -/
def containsRecord (ty : Ty) : Bool := ty.anyNode isRecord

/-- Whether a record occurs anywhere in the type with another record inside it. -/
def nestsRecords (ty : Ty) : Bool :=
  ty.anyNode fun node => node.isRecord && node.parts.any containsRecord

/-! ## Nesting -/

mutual

/-- The number of compound types around the innermost part of a type. Unions do not count. -/
def nesting : Ty → Nat
  | .function params ret _ _ => max (nesting ret) (nestingList params) + 1
  | .named _ _ members | .record _ members => nestingMembers members + 1
  | .union alts => nestingList alts
  | .aliasRef _ args => nestingList args + 1
  | .array element => nesting element + 1
  | .tuple elements => nestingList elements + 1
  | _ => 0
termination_by structural ty => ty

/-- The greatest nesting among several types. -/
def nestingList : List Ty → Nat
  | [] => 0
  | ty :: rest => max (nesting ty) (nestingList rest)
termination_by structural tys => tys

/-- The greatest nesting among the types of members. -/
def nestingMembers : List (Member Ty) → Nat
  | [] => 0
  | ⟨_, ty, _, _, _⟩ :: rest => max (nesting ty) (nestingMembers rest)
termination_by structural members => members

end

theorem nesting_le_nestingList {ty : Ty} {tys : List Ty} (mem : ty ∈ tys) :
    ty.nesting ≤ nestingList tys := by
  induction tys with
  | nil => exact absurd mem (by simp)
  | cons other rest ih =>
    rw [nestingList]
    rcases List.mem_cons.mp mem with rfl | mem
    · exact Nat.le_max_left _ _
    · exact Nat.le_trans (ih mem) (Nat.le_max_right _ _)

theorem nesting_le_nestingMembers {ty : Ty} {members : List (Member Ty)}
    (mem : ty ∈ members.map (·.ty)) : ty.nesting ≤ nestingMembers members := by
  induction members with
  | nil => exact absurd mem (by simp)
  | cons other rest ih =>
    rw [nestingMembers]
    rcases List.mem_cons.mp mem with rfl | mem
    · exact Nat.le_max_left _ _
    · exact Nat.le_trans (ih mem) (Nat.le_max_right _ _)

theorem nesting_alternative {alt : Ty} {alts : List Ty} (mem : alt ∈ alts) :
    alt.nesting ≤ (Ty.union alts).nesting := by
  rw [nesting]
  exact nesting_le_nestingList mem

/-- Every part of a type that is no union is nested less deeply than the type. -/
theorem nesting_part {ty part : Ty} (definite : ty.isDefinite = true) (mem : part ∈ ty.parts) :
    part.nesting < ty.nesting := by
  cases ty with
  | function params ret variadic generics =>
    rw [nesting]
    rcases List.mem_cons.mp mem with rfl | mem
    · omega
    · have := nesting_le_nestingList mem
      omega
  | named name supers members =>
    rw [nesting]
    exact Nat.lt_succ_of_le (nesting_le_nestingMembers mem)
  | record supers members =>
    rw [nesting]
    exact Nat.lt_succ_of_le (nesting_le_nestingMembers mem)
  | union alts => exact absurd definite (by simp [isDefinite])
  | aliasRef name args =>
    rw [nesting]
    exact Nat.lt_succ_of_le (nesting_le_nestingList mem)
  | array element =>
    rw [nesting, List.mem_singleton.mp mem]
    exact Nat.lt_succ_self _
  | tuple elements =>
    rw [nesting]
    exact Nat.lt_succ_of_le (nesting_le_nestingList mem)
  | _ => exact absurd mem (by simp [parts])

/-- Both types of a pair of parts are nested less deeply than one of the types around them. -/
theorem PartPair.nesting_lt {a b c d : Ty} (pair : PartPair a b c d) (da : a.isDefinite = true)
    (db : b.isDefinite = true) :
    c.nesting < max a.nesting b.nesting ∧ d.nesting < max a.nesting b.nesting := by
  cases pair with
  | members _ _ left right | straight _ _ left right =>
    have := nesting_part da left
    have := nesting_part db right
    omega
  | crossed _ _ left right =>
    have := nesting_part db left
    have := nesting_part da right
    omega
  | missing _ _ right =>
    have nil : Ty.nil.nesting = 0 := rfl
    have := nesting_part da right
    omega

/-! ## Types a comparison can take in -/

theorem className?_of_unnamed {ty : Ty} (unnamed : ty.containsNamed = false) :
    ty.className? = none := by
  rw [containsNamed, anyNode_eq, Bool.or_eq_false_iff] at unnamed
  simpa using unnamed.1

theorem PartPair.unnamed {a b c d : Ty} (pair : PartPair a b c d) (ha : a.containsNamed = false)
    (hb : b.containsNamed = false) : c.containsNamed = false ∧ d.containsNamed = false := by
  cases pair with
  | members _ _ left right => exact ⟨anyNode_part left ha, anyNode_part right hb⟩
  | straight _ _ left right => exact ⟨anyNode_part left ha, anyNode_part right hb⟩
  | crossed _ _ left right => exact ⟨anyNode_part left hb, anyNode_part right ha⟩
  | missing _ _ right => exact ⟨rfl, anyNode_part right ha⟩

/-- The type mentions no named class and is nested less than `levels` deep. -/
structure Comparable (levels : Nat) (ty : Ty) : Prop where
  unnamed : ty.containsNamed = false
  nested : ty.nesting < levels

end LuaTyping.Ty
