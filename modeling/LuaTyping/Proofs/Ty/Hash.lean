import LuaTyping.Proofs.Ty.Outline

/-!
# Hashing types

Comparisons in progress and stored results are keyed by outlines. Where a key has to be a number, a
type is written to a hasher item by item: what kind of type it is, then its parts. Three kinds are
written in a way of their own. A named class is its name; a record is the name all records share and
the number of its members; and a union is the number of its alternatives and the sum of their
hashes, each made by a hasher of its own, since alternatives have no order. Sums wrap around.

Whatever the hasher does with the items, the number depends on nothing but the outline
(`hash_eq_of_outline_eq`). With the laws of equality this makes types fit to be keys: equality is an
equivalence, and equal types have equal keys.
-/

set_option autoImplicit false

namespace LuaTyping

/-- What can be written to a hasher. -/
inductive HashItem where
  /-- The place of the kind of type among the kinds. -/
  | kind (index : Nat)
  | size (count : Nat)
  | flag (value : Bool)
  | text (text : String)
  | word (value : UInt64)

/-- A way to make a number of a sequence of items. -/
structure Hasher where
  State : Type
  fresh : State
  write : State → HashItem → State
  finish : State → UInt64

namespace Ty

section Hashing

variable (hasher : Hasher)

mutual

/-- Writes a type to a hasher. -/
def hashInto : Ty → hasher.State → hasher.State
  | .unknown, s => hasher.write s (.kind 0)
  | .nil, s => hasher.write s (.kind 1)
  | .boolean, s => hasher.write s (.kind 2)
  | .number, s => hasher.write s (.kind 3)
  | .string, s => hasher.write s (.kind 4)
  | .literal text, s => hasher.write (hasher.write s (.kind 5)) (.text text)
  | .function params ret variadic generics, s =>
    let s := hasher.write (hasher.write s (.kind 6)) (.size params.length)
    let s := hasher.write (hashInto ret (hashEach params s)) (.flag variadic)
    generics.foldl (fun s name => hasher.write s (.text name))
      (hasher.write s (.size generics.length))
  | .named name _ _, s =>
    hasher.write (hasher.write (hasher.write s (.kind 7)) (.text name)) (.flag false)
  | .record _ members, s =>
    let s := hasher.write (hasher.write s (.kind 7)) (.text tableName)
    hasher.write (hasher.write s (.flag true)) (.size members.length)
  | .union alts, s =>
    let s := hasher.write (hasher.write s (.kind 8)) (.size alts.length)
    hasher.write s (.word (hashSum alts 0))
  | .generic name, s => hasher.write (hasher.write s (.kind 9)) (.text name)
  | .aliasRef name args, s =>
    let s := hasher.write (hasher.write s (.kind 10)) (.text name)
    hashEach args (hasher.write s (.size args.length))
  | .array element, s => hashInto element (hasher.write s (.kind 11))
  | .tuple elements, s =>
    hashEach elements (hasher.write (hasher.write s (.kind 12)) (.size elements.length))
termination_by structural ty => ty

/-- Writes types to a hasher one after the other. -/
def hashEach : List Ty → hasher.State → hasher.State
  | [], s => s
  | ty :: rest, s => hashEach rest (hashInto ty s)
termination_by structural tys => tys

/-- Adds up the hashes of types. -/
def hashSum : List Ty → UInt64 → UInt64
  | [], sum => sum
  | ty :: rest, sum => hashSum rest (sum + hasher.finish (hashInto ty hasher.fresh))
termination_by structural tys => tys

end

/-- The hash of a type. -/
def hash (ty : Ty) : UInt64 := hasher.finish (ty.hashInto hasher hasher.fresh)

theorem hashSum_eq_foldl (tys : List Ty) (sum : UInt64) :
    hashSum hasher tys sum = (tys.map (hash hasher)).foldl (· + ·) sum := by
  induction tys generalizing sum with
  | nil => rfl
  | cons ty rest ih =>
    rw [hashSum, ih]
    rfl

/-! ## The outline decides -/

/-- The two types are written alike in every state of the hasher. -/
def WrittenAlike (a b : Ty) : Prop := ∀ s, a.hashInto hasher s = b.hashInto hasher s

variable {hasher}

theorem hashEach_eq {as bs : List Ty} (h : List.Forall₂ (WrittenAlike hasher) as bs)
    (s : hasher.State) : hashEach hasher as s = hashEach hasher bs s := by
  induction h generalizing s with
  | nil => rfl
  | cons first _ ih => rw [hashEach, hashEach, first, ih]

theorem map_hash_eq {as bs : List Ty} (h : List.Forall₂ (WrittenAlike hasher) as bs) :
    as.map (hash hasher) = bs.map (hash hasher) := by
  induction h with
  | nil => rfl
  | cons first _ ih => rw [List.map_cons, List.map_cons, ih, hash, hash, first]

/-- In whatever order the alternatives are taken, their sum is the same. -/
theorem hashSum_eq {as bs paired : List Ty} (perm : paired.Perm bs)
    (h : List.Forall₂ (WrittenAlike hasher) as paired) (sum : UInt64) :
    hashSum hasher as sum = hashSum hasher bs sum := by
  have commutes : RightCommutative (fun x y : UInt64 => x + y) := by
    constructor
    intro x y z
    rw [UInt64.add_assoc, UInt64.add_comm y z, ← UInt64.add_assoc]
  rw [hashSum_eq_foldl, hashSum_eq_foldl, map_hash_eq h]
  exact (perm.map (hash hasher)).foldl_eq sum

theorem writtenAlike_of_outline_eq {a b : Ty} (h : a.outline = b.outline) :
    WrittenAlike hasher a b := by
  induction a using induction_on_parts generalizing b with
  | step a ih =>
    have listed {as bs : List Ty} (h : List.Forall₂ (fun x y => x.outline = y.outline) as bs)
        (within : as ⊆ a.parts) : List.Forall₂ (WrittenAlike hasher) as bs := by
      rw [List.forall₂_iff_zip] at h ⊢
      exact ⟨h.1, fun mem => ih _ (within (List.of_mem_zip mem).1) (h.2 mem)⟩
    intro s
    cases outline_eq_iff.mp h with
    | refl childless => rfl
    | function params result =>
      have params' := listed params (List.subset_cons_self _ _)
      simp only [hashInto, params.length_eq, hashEach_eq params',
        ih _ List.mem_cons_self result _]
    | named name => rfl
    | record _ _ len => simp only [hashInto, len]
    | union perm alts =>
      have sum := hashSum_eq perm (listed alts (List.Subset.refl _)) 0
      simp only [hashInto, alts.length_eq.trans perm.length_eq, sum]
    | aliasRef args =>
      simp only [hashInto, args.length_eq, hashEach_eq (listed args (List.Subset.refl _))]
    | array element => exact ih _ (List.mem_singleton_self _) element _
    | tuple elements =>
      simp only [hashInto, elements.length_eq, hashEach_eq (listed elements (List.Subset.refl _))]

/-- A hash depends on nothing but the outline. -/
theorem hash_eq_of_outline_eq {a b : Ty} (h : a.outline = b.outline) :
    a.hash hasher = b.hash hasher :=
  congrArg hasher.finish (writtenAlike_of_outline_eq h hasher.fresh)

end Hashing

/-! ## Types as keys -/

/-- On types whose members have distinct names and whose unions have distinct alternatives, equality
is an equivalence, and equal types have one outline and, whatever the hasher, one hash. -/
theorem eqv_equivalence_and_hash :
    (Equivalence fun a b : { ty : Ty // ty.Tidy } => a.val.eqv b.val = true) ∧
      ∀ a b : { ty : Ty // ty.Tidy }, a.val.eqv b.val = true →
        a.val.outline = b.val.outline ∧
          ∀ hasher : Hasher, a.val.hash hasher = b.val.hash hasher := by
  refine ⟨⟨fun a => eqv_refl a.property, fun {a _} => eqv_symm a.property, eqv_trans⟩, ?_⟩
  intro a b same
  have outlines := outline_eq_of_eqv a.property same
  exact ⟨outlines, fun hasher => hash_eq_of_outline_eq outlines⟩

/-- A text, or a point with a label that may be missing. -/
def textOrPoint : Ty :=
  .union [.string, .record [] [.ofTy "x" .number, .ofTy "label" (.union [.string, .nil])]]

/-- The same with everything that has no order the other way round. -/
def pointOrText : Ty :=
  .union [.record [] [.ofTy "label" (.union [.nil, .string]), .ofTy "x" .number], .string]

theorem eqv_equivalence_and_hash_points :
    textOrPoint.eqv pointOrText = true ∧ pointOrText.eqv textOrPoint = true ∧
      textOrPoint.outline = pointOrText.outline ∧
      ∀ hasher : Hasher, textOrPoint.hash hasher = pointOrText.hash hasher := by
  have same : textOrPoint.eqv pointOrText = true := by decide
  let first : { ty : Ty // ty.Tidy } := ⟨textOrPoint, by decide⟩
  let second : { ty : Ty // ty.Tidy } := ⟨pointOrText, by decide⟩
  exact ⟨same, eqv_equivalence_and_hash.1.symm (x := first) (y := second) same,
    eqv_equivalence_and_hash.2 first second same⟩

end Ty

end LuaTyping
