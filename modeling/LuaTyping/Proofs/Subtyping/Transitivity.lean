import LuaTyping.Proofs.Subtyping.Repetition
import LuaTyping.Proofs.Ty.Equality

/-!
# Chains of subtypes

Plain structural recursion is transitive except for one thing, the parameters of functions. Callers
of the upper function may pass more arguments than a function in the middle takes, and those are
dropped on the way; or the middle function is variadic and lets a lower one expect arguments that
are never passed. In both cases a parameter of the lower function is compared with nothing.
`bridges` says when a function in the middle compares every parameter.

The proof is by induction on the type in the middle: every step from two comparisons to one goes
through a part of it. Equality is one more rule by shape for this purpose (`eqv_shape`), so that
the two ways to be below a type need not be crossed with each other.

What the checker accepts beyond plain structural recursion breaks chains, too, so types with records
inside records are left out, as in `LuaTyping.Proofs.Subtyping.Repetition`.
-/

set_option autoImplicit false

namespace LuaTyping.Ty

/-! ## Shapes of types -/

/-- Whether the alternatives of a union are neither unions nor unknown. -/
def isFlat : Ty → Bool
  | .union alts => alts.all isDefinite
  | _ => true

/-- Every union inside is flat, and wherever a list stands for a set it holds nothing twice. -/
structure WellFormed (ty : Ty) : Prop where
  tidy : ty.Tidy
  flat : ty.anyNode (fun node => !node.isFlat) = false

instance (ty : Ty) : Decidable ty.WellFormed :=
  decidable_of_iff (ty.Tidy ∧ ty.anyNode (fun node => !node.isFlat) = false)
    ⟨fun h => ⟨h.1, h.2⟩, fun h => ⟨h.tidy, h.flat⟩⟩

theorem WellFormed.part {ty part : Ty} (h : ty.WellFormed) (mem : part ∈ ty.parts) :
    part.WellFormed :=
  ⟨h.tidy.part mem, anyNode_part mem h.flat⟩

theorem WellFormed.alternative_definite {alts : List Ty} (h : (Ty.union alts).WellFormed)
    {alt : Ty} (mem : alt ∈ alts) : alt.isDefinite = true := by
  have flat := h.flat
  rw [anyNode_eq, Bool.or_eq_false_iff] at flat
  have all : alts.all isDefinite = true := by simpa [isFlat] using flat.1
  exact List.all_eq_true.mp all alt mem

theorem definite_or (ty : Ty) :
    ty.isDefinite = true ∨ ty = .unknown ∨ ∃ alts, ty = .union alts := by
  cases ty with
  | unknown => exact .inr (.inl rfl)
  | union alts => exact .inr (.inr ⟨alts, rfl⟩)
  | _ => exact .inl rfl

/-! ## The two sides of the order -/

theorem Below.unknown_left {b : Ty} (h : Below .unknown b) : b = .unknown := by
  cases h with
  | equal h => cases eqv_iff.mp h; rfl
  | top => rfl
  | unionRight definite => cases definite
  | shape h => cases h.definite.1

/-- Every alternative of a union is below whatever the union is below. -/
theorem Below.alternative {alts : List Ty} {b : Ty} (wf : (Ty.union alts).WellFormed)
    (h : Below (.union alts) b) {alt : Ty} (mem : alt ∈ alts) : Below alt b := by
  cases h with
  | equal same =>
    have definite := wf.alternative_definite mem
    cases eqv_iff.mp same with
    | refl childless => exact absurd mem (by simp [show alts = [] from childless])
    | union len h =>
      obtain ⟨alt', mem', same⟩ := h alt mem
      exact .unionRight definite mem' (.equal same)
  | top => exact .top alt
  | unionLeft h => exact h alt mem
  | unionRight definite => cases definite
  | shape h => cases h.definite.1

theorem Below.exists_alternative {a : Ty} {alts : List Ty} (definite : a.isDefinite = true)
    (h : Below a (.union alts)) : ∃ alt ∈ alts, Below a alt := by
  cases h with
  | equal h =>
    cases eqv_iff.mp h <;> cases definite
  | unionLeft => cases definite
  | unionRight _ mem h => exact ⟨_, mem, h⟩
  | shape h => cases h.definite.2

theorem Below.eqv_or_shape {a b : Ty} (left : a.isDefinite = true) (right : b.isDefinite = true)
    (h : Below a b) : a.eqv b = true ∨ ShapeRule Below a b := by
  cases h with
  | equal h => exact .inl h
  | top => cases right
  | unionLeft => cases left
  | unionRight => cases right
  | shape h => exact .inr h

/-- Equal types have the same shape with equal parts, unless no rule by shape is about them. -/
theorem eqv_shape {a b : Ty} (tidy : a.Tidy) (definite : a.isDefinite = true)
    (same : a.eqv b = true) :
    a = b ∨ ShapeRule Below a b ∨
      (∀ c, ¬ ShapeRule Below b c) ∧ ∀ c, ¬ ShapeRule Below c a := by
  cases eqv_iff.mp same with
  | refl => exact .inl rfl
  | function len h result =>
    refine .inr (.inl (.function ?_ ?_ (.equal result)))
    · rintro ⟨y, x⟩ mem
      have mem' := mem_zip_comm mem
      have tidy_x := tidy.part (List.mem_cons_of_mem _ (List.of_mem_zip mem').1)
      exact .equal (eqv_symm tidy_x (h _ mem'))
    · intro _ param mem
      simp [← len] at mem
  | named => exact .inr (.inr ⟨nofun, nofun⟩)
  | record len h =>
    have back := exists_eqv_member tidy.names_nodup len h
    refine .inr (.inl (.record (fun wanted mem => ?_) fun wanted mem found hfound => ?_))
    · obtain ⟨member, found, -⟩ := back wanted mem
      rw [found]
      rfl
    · obtain ⟨member, found, same⟩ := back wanted mem
      cases hfound.symm.trans found
      exact .equal same
  | union => cases definite
  | aliasRef => exact .inr (.inr ⟨nofun, nofun⟩)
  | array h => exact .inr (.inl (.array (.equal h)))
  | tuple len h => exact .inr (.inl (.tuple len fun pair mem => .equal (h pair mem)))

/-! ## Functions in the middle -/

/-- Whether a function in the middle compares every parameter of the outer functions that meet: it
takes as many as one of them, and if it is variadic, then as many as each of them whose counterpart
is not variadic. -/
def bridges : Ty → Ty → Ty → Bool
  | .function params _ variadic _, .function middle _ middleVariadic _,
      .function params' _ variadic' _ =>
    (params.length ≤ middle.length || params'.length ≤ middle.length) &&
      (!middleVariadic || ((params.length ≤ middle.length || variadic') &&
        (params'.length ≤ middle.length || variadic)))
  | _, _, _ => true

/-- The type is `ty` or stands somewhere inside it. -/
inductive Inside (node : Ty) : Ty → Prop
  | refl : Inside node node
  | part {ty part : Ty} (mem : part ∈ ty.parts) (h : Inside node part) : Inside node ty

theorem anyNode_iff_inside {test : Ty → Bool} (ty : Ty) :
    ty.anyNode test = true ↔ ∃ node, Inside node ty ∧ test node = true := by
  induction ty using induction_on_parts with
  | step ty ih =>
    rw [anyNode_eq, Bool.or_eq_true, List.any_eq_true]
    constructor
    · rintro (holds | ⟨part, mem, holds⟩)
      · exact ⟨ty, .refl, holds⟩
      · obtain ⟨node, inside, holds⟩ := (ih part mem).mp holds
        exact ⟨node, .part mem inside, holds⟩
    · rintro ⟨node, inside, holds⟩
      cases inside with
      | refl => exact .inl holds
      | part mem inside => exact .inr ⟨_, mem, (ih _ mem).mpr ⟨node, inside, holds⟩⟩

/-- Every function inside the middle type bridges all functions inside the outer ones. -/
def Bridged (a b c : Ty) : Prop :=
  (a.anyNode fun f => b.anyNode fun g => c.anyNode fun h => !bridges f g h) = false

instance (a b c : Ty) : Decidable (Bridged a b c) := inferInstanceAs (Decidable (_ = false))

theorem bridged_iff {a b c : Ty} :
    Bridged a b c ↔ ∀ f g h, Inside f a → Inside g b → Inside h c → bridges f g h = true := by
  rw [Bridged, ← Bool.not_eq_true, anyNode_iff_inside]
  simp only [anyNode_iff_inside, Bool.not_eq_true']
  constructor
  · intro none f g h hf hg hh
    by_contra fails
    exact none ⟨f, hf, g, hg, h, hh, by simpa using fails⟩
  · rintro all ⟨f, hf, g, hg, h, hh, fails⟩
    rw [all f g h hf hg hh] at fails
    cases fails

theorem Bridged.left {a b c part : Ty} (h : Bridged a b c) (mem : part ∈ a.parts) :
    Bridged part b c :=
  bridged_iff.mpr fun f g k hf hg hk => bridged_iff.mp h f g k (.part mem hf) hg hk

theorem Bridged.middle {a b c part : Ty} (h : Bridged a b c) (mem : part ∈ b.parts) :
    Bridged a part c :=
  bridged_iff.mpr fun f g k hf hg hk => bridged_iff.mp h f g k hf (.part mem hg) hk

theorem bridges_comm (f g k : Ty) : bridges f g k = bridges k g f := by
  cases f with
  | function =>
    cases g with
    | function =>
      cases k with
      | function => simp only [bridges, Bool.or_comm, Bool.and_comm]
      | _ => rfl
    | _ => cases k <;> rfl
  | _ =>
    cases k with
    | function => cases g <;> rfl
    | _ => rfl

theorem Bridged.symm {a b c : Ty} (h : Bridged a b c) : Bridged c b a :=
  bridged_iff.mpr fun f g k hf hg hk => bridges_comm k g f ▸ bridged_iff.mp h k g f hk hg hf

theorem Bridged.right {a b c part : Ty} (h : Bridged a b c) (mem : part ∈ c.parts) :
    Bridged a b part :=
  (h.symm.left mem).symm

/-- Nothing has to be bridged to `nil`. -/
theorem bridged_nil (b c : Ty) : Bridged .nil b c := by
  refine bridged_iff.mpr fun f g k hf _ _ => ?_
  cases hf with
  | refl => rfl
  | part mem => cases mem

/-! ## Transitivity -/

/-- Two comparisons with `b` in the middle give one. -/
def Composes (b : Ty) : Prop :=
  ∀ a c, a.WellFormed → c.WellFormed → Bridged a b c → Below a b → Below b c → Below a c

section Step

variable {a b c : Ty} (wa : a.WellFormed) (wc : c.WellFormed) (bridged : Bridged a b c)
  (ih : ∀ part ∈ b.parts, Composes part)
include wa wc bridged ih

theorem compose_parts {x y z : Ty} (hx : x ∈ a.parts) (hy : y ∈ b.parts) (hz : z ∈ c.parts)
    (hxy : Below x y) (hyz : Below y z) : Below x z :=
  ih y hy x z (wa.part hx) (wc.part hz) (((bridged.left hx).middle hy).right hz) hxy hyz

/-- The two ends of a chain of functions change places for their parameters. -/
theorem compose_params {x y z : Ty} (hx : x ∈ a.parts) (hy : y ∈ b.parts) (hz : z ∈ c.parts)
    (hzy : Below z y) (hyx : Below y x) : Below z x :=
  compose_parts wc wa bridged.symm ih hz hy hx hzy hyx

omit wc bridged in
/-- A parameter that is not passed is one for the middle function, too. -/
theorem compose_missing {x y : Ty} (hx : x ∈ a.parts) (hy : y ∈ b.parts) (hny : Below .nil y)
    (hyx : Below y x) : Below .nil x :=
  ih y hy .nil x (by decide) (wa.part hx) (bridged_nil y x) hny hyx

end Step

section Functions

variable {params params₂ params₃ : List Ty} {ret ret₂ ret₃ : Ty}
  {variadic variadic₂ variadic₃ : Bool} {generics generics₂ generics₃ : List String}

theorem ShapeRule.function_trans (wa : (Ty.function params ret variadic generics).WellFormed)
    (wc : (Ty.function params₃ ret₃ variadic₃ generics₃).WellFormed)
    (bridged : Bridged (.function params ret variadic generics)
      (.function params₂ ret₂ variadic₂ generics₂) (.function params₃ ret₃ variadic₃ generics₃))
    (ih : ∀ part ∈ (Ty.function params₂ ret₂ variadic₂ generics₂).parts, Composes part)
    (shared : ∀ pair ∈ params₂.zip params, Below pair.1 pair.2)
    (missing : variadic₂ = false → ∀ param ∈ params.drop params₂.length, Below .nil param)
    (shared' : ∀ pair ∈ params₃.zip params₂, Below pair.1 pair.2)
    (missing' : variadic₃ = false → ∀ param ∈ params₂.drop params₃.length, Below .nil param)
    (result : Below ret ret₂) (result' : Below ret₂ ret₃) :
    ShapeRule Below (.function params ret variadic generics)
      (.function params₃ ret₃ variadic₃ generics₃) := by
  have arities := bridged_iff.mp bridged _ _ _ .refl .refl .refl
  simp only [bridges, Bool.and_eq_true, Bool.or_eq_true, decide_eq_true_eq, Bool.not_eq_true']
    at arities
  obtain ⟨wide, variadicWide⟩ := arities
  refine .function ?_ ?_ ?_
  · rintro ⟨z, x⟩ mem
    obtain ⟨y, left, right⟩ := mem_zip_through mem wide.symm
    exact compose_params wa wc bridged ih (List.mem_cons_of_mem _ (List.of_mem_zip mem).2)
      (List.mem_cons_of_mem _ (List.of_mem_zip left).2)
      (List.mem_cons_of_mem _ (List.of_mem_zip mem).1) (shared' _ left) (shared _ right)
  · intro closed param mem
    obtain ⟨i, hi, rfl⟩ := List.mem_drop_iff_getElem.mp mem
    by_cases inMiddle : params₃.length + i < params₂.length
    · -- the middle function has the parameter and does not get it either
      have unpassed : params₂[params₃.length + i] ∈ params₂.drop params₃.length :=
        List.mem_drop_iff_getElem.mpr ⟨i, by omega, rfl⟩
      have pair : (params₂[params₃.length + i], params[params₃.length + i])
          ∈ params₂.zip params := by
        refine List.mem_iff_getElem.mpr ⟨params₃.length + i, ?_, List.getElem_zip⟩
        rw [List.length_zip]
        omega
      exact compose_missing wa ih (List.mem_cons_of_mem _ (List.getElem_mem _))
        (List.mem_cons_of_mem _ (List.getElem_mem _)) (missing' closed _ unpassed) (shared _ pair)
    · -- the middle function does not have it, and is not variadic
      have closed₂ : variadic₂ = false := by
        rcases variadicWide with closed₂ | ⟨long | open₃, -⟩
        · exact closed₂
        · omega
        · rw [closed] at open₃
          cases open₃
      refine missing closed₂ _ (List.mem_drop_iff_getElem.mpr
        ⟨params₃.length + i - params₂.length, by omega, ?_⟩)
      congr 1
      omega
  · exact compose_parts wa wc bridged ih List.mem_cons_self List.mem_cons_self List.mem_cons_self
      result result'

end Functions

section Step

variable {a b c : Ty} (wa : a.WellFormed) (wc : c.WellFormed) (bridged : Bridged a b c)
  (ih : ∀ part ∈ b.parts, Composes part)
include wa wc bridged ih

/-- Two rules by shape, one after the other, are one rule by shape. -/
theorem ShapeRule.trans (hab : ShapeRule Below a b) (hbc : ShapeRule Below b c) :
    ShapeRule Below a c := by
  have compose {x y z : Ty} := compose_parts wa wc bridged ih (x := x) (y := y) (z := z)
  -- a record above one without members has none itself
  have memberless {expected : List (Member Ty)}
      (has : ∀ wanted ∈ expected, (findMember? ([] : List (Member Ty)) wanted.name).isSome) :
      expected = [] :=
    List.eq_nil_iff_forall_not_mem.mpr fun wanted mem => by simpa [findMember?] using has wanted mem
  cases hab with
  | literal => cases hbc
  | arrayTable element =>
    cases hbc with
    | record has => exact memberless has ▸ .arrayTable element _
  | tupleTable elements =>
    cases hbc with
    | record has => exact memberless has ▸ .tupleTable elements _
  | array h =>
    cases hbc with
    | arrayTable => exact .arrayTable _ _
    | array h' =>
      exact .array (compose (List.mem_singleton_self _) (List.mem_singleton_self _)
        (List.mem_singleton_self _) h h')
  | tupleArray h =>
    cases hbc with
    | arrayTable => exact .tupleTable _ _
    | array h' =>
      exact .tupleArray fun e mem => compose mem (List.mem_singleton_self _)
        (List.mem_singleton_self _) (h e mem) h'
  | tuple len h =>
    cases hbc with
    | tupleTable => exact .tupleTable _ _
    | tupleArray h' =>
      refine .tupleArray fun e mem => ?_
      obtain ⟨y, pair⟩ := exists_mem_zip mem (Nat.le_of_eq len)
      have y_mem := (List.of_mem_zip pair).2
      exact compose mem y_mem (List.mem_singleton_self _) (h _ pair) (h' y y_mem)
    | tuple len' h' =>
      refine .tuple (len.trans len') ?_
      rintro ⟨x, z⟩ mem
      obtain ⟨y, left, right⟩ := mem_zip_through mem (.inl (Nat.le_of_eq len))
      exact compose (List.of_mem_zip mem).1 (List.of_mem_zip left).2 (List.of_mem_zip mem).2
        (h _ left) (h' _ right)
  | record has h =>
    cases hbc with
    | record has' h' =>
      refine .record (fun wanted mem => ?_) fun wanted mem found hfound => ?_
      · obtain ⟨between, hbetween⟩ := Option.isSome_iff_exists.mp (has' wanted mem)
        have := has between (List.mem_of_find?_eq_some hbetween)
        rwa [findMember?_name hbetween] at this
      · obtain ⟨between, hbetween⟩ := Option.isSome_iff_exists.mp (has' wanted mem)
        have between_mem := List.mem_of_find?_eq_some hbetween
        have below := h between between_mem found (by rwa [findMember?_name hbetween])
        exact compose (List.mem_map_of_mem (List.mem_of_find?_eq_some hfound))
          (List.mem_map_of_mem between_mem) (List.mem_map_of_mem mem) below
          (h' wanted mem between hbetween)
  | function shared missing result =>
    cases hbc with
    | function shared' missing' result' =>
      exact .function_trans wa wc bridged ih shared missing shared' missing' result result'

theorem Below.trans_definite (wb : b.WellFormed) (da : a.isDefinite = true)
    (db : b.isDefinite = true) (dc : c.isDefinite = true) (hab : Below a b) (hbc : Below b c) :
    Below a c := by
  rcases hab.eqv_or_shape da db with same | shape
  · rcases hbc.eqv_or_shape db dc with same' | shape'
    · exact .equal (eqv_trans same same')
    · rcases eqv_shape wa.tidy da same with rfl | shape | ⟨unshaped, -⟩
      · exact hbc
      · exact .shape (.trans wa wc bridged ih shape shape')
      · exact absurd shape' (unshaped c)
  · rcases hbc.eqv_or_shape db dc with same' | shape'
    · rcases eqv_shape wb.tidy db same' with rfl | shape' | ⟨-, unshaped⟩
      · exact hab
      · exact .shape (.trans wa wc bridged ih shape shape')
      · exact absurd shape (unshaped a)
    · exact .shape (.trans wa wc bridged ih shape shape')

theorem Below.trans_left (wb : b.WellFormed) (da : a.isDefinite = true) (hab : Below a b)
    (hbc : Below b c) : Below a c := by
  rcases b.definite_or with db | rfl | ⟨alts, rfl⟩
  · rcases c.definite_or with dc | rfl | ⟨alts, rfl⟩
    · exact hab.trans_definite wa wc bridged ih wb da db dc hbc
    · exact .top a
    · obtain ⟨alt, mem, h⟩ := hbc.exists_alternative db
      exact .unionRight da mem (hab.trans_definite wa (wc.part mem) (bridged.right mem) ih wb da db
        (wc.alternative_definite mem) h)
  · exact hbc.unknown_left ▸ .top a
  · -- a step through a union goes through one of its alternatives
    obtain ⟨alt, mem, h⟩ := hab.exists_alternative da
    exact ih alt mem a c wa wc (bridged.middle mem) h (hbc.alternative wb mem)

end Step

theorem composes (b : Ty) (wb : b.WellFormed) : Composes b := by
  induction b using induction_on_parts with
  | step b ih =>
    intro a c wa wc bridged hab hbc
    have ih (part : Ty) (mem : part ∈ b.parts) : Composes part := ih part mem (wb.part mem)
    rcases a.definite_or with da | rfl | ⟨alts, rfl⟩
    · exact hab.trans_left wa wc bridged ih wb da hbc
    · rw [hab.unknown_left] at hbc
      exact hbc
    · refine .unionLeft fun alt mem => ?_
      exact (hab.alternative wa mem).trans_left (wa.part mem) wc (bridged.left mem) ih wb
        (wa.alternative_definite mem) hbc

/-! ## Chains in the checker -/

open Subtyping

/-- Where one of the types has no record inside a record, what the checker accepts within its limits
holds by plain structural recursion. -/
theorem below_of_isSubtypeOf {a b : Ty} (ha : a.containsNamed = false)
    (hb : b.containsNamed = false) (unexceeded : (finalGuard a b).exceeded = false)
    (flat : a.nestsRecords = false ∨ b.nestsRecords = false) (h : a.isSubtypeOf b = true) :
    Below a b := by
  have clear : Clear [] a b := .outside flat (by simp) (by simp)
  exact ((isSubtypeOf_iff_of_unexceeded ha hb unexceeded).mp h).toBelow clear

/-- For types without named classes, compared within the limits, a chain of two comparisons that the
checker accepts can be made one, provided that one side of each has no record inside a record and
that every function inside the middle type bridges those inside the outer ones. -/
theorem isSubtypeOf_trans (a b c : Ty) (wa : a.WellFormed) (wb : b.WellFormed) (wc : c.WellFormed)
    (unnamed : a.containsNamed = false ∧ b.containsNamed = false ∧ c.containsNamed = false)
    (within : (finalGuard a b).exceeded = false ∧ (finalGuard b c).exceeded = false ∧
      (finalGuard a c).exceeded = false)
    (flat : b.nestsRecords = false ∨ a.nestsRecords = false ∧ c.nestsRecords = false)
    (bridged : Bridged a b c) (hab : a.isSubtypeOf b = true) (hbc : b.isSubtypeOf c = true) :
    a.isSubtypeOf c = true := by
  obtain ⟨ha, hb, hc⟩ := unnamed
  obtain ⟨withinLeft, withinRight, withinBoth⟩ := within
  have left : Below a b :=
    below_of_isSubtypeOf ha hb withinLeft (flat.symm.imp_left And.left) hab
  have right : Below b c :=
    below_of_isSubtypeOf hb hc withinRight (flat.imp_right And.right) hbc
  have both : Below a c := composes b wb a c wa wc bridged left right
  exact (isSubtypeOf_iff_of_unexceeded ha hc withinBoth).mpr (both.assuming [])

/-- A table with a size and a callback that takes a text and a number. -/
def callbackTable (size text result : Ty) : Ty :=
  .record [] [.ofTy "size" size, .ofTy "run" (.function [text, .number] result false [])]

/-- A chain in which sizes get more alternatives, texts get fewer and results more. -/
theorem isSubtypeOf_trans_callbacks :
    (callbackTable .number .string (.literal "ok")).isSubtypeOf
        (callbackTable (.union [.number, .nil]) .string .string) = true ∧
      (callbackTable (.union [.number, .nil]) .string .string).isSubtypeOf
        (callbackTable (.union [.nil, .boolean, .number]) (.literal "on") .unknown) = true ∧
      (callbackTable .number .string (.literal "ok")).isSubtypeOf
        (callbackTable (.union [.nil, .boolean, .number]) (.literal "on") .unknown) = true := by
  refine ⟨by decide +kernel, by decide +kernel, ?_⟩
  exact isSubtypeOf_trans _ (callbackTable (.union [.number, .nil]) .string .string) _
    (by decide +kernel) (by decide +kernel) (by decide +kernel) (by decide +kernel)
    (by decide +kernel) (.inl (by decide +kernel)) (by decide +kernel) (by decide +kernel)
    (by decide +kernel)

/-- Chains that break. A function without parameters drops an argument that the lower function
compares; a variadic one passes on an argument that is never passed; and tables whose inner tables
have the outlines of the outer ones are not compared at all. -/
theorem isSubtypeOf_not_trans :
    ((Ty.function [.union [.string, .nil]] .nil false []).isSubtypeOf
        (.function [] .nil false []) = true ∧
      (Ty.function [] .nil false []).isSubtypeOf (.function [.number] .nil false []) = true ∧
      (Ty.function [.union [.string, .nil]] .nil false []).isSubtypeOf
        (.function [.number] .nil false []) = false) ∧
    ((Ty.function [.number] .unknown false []).isSubtypeOf anyFunction = true ∧
      anyFunction.isSubtypeOf (.function [] .unknown false []) = true ∧
      (Ty.function [.number] .unknown false []).isSubtypeOf
        (.function [] .unknown false []) = false) ∧
    ∃ inner : Ty → Ty,
      (Ty.record [] [.ofTy "x" (inner .number), .ofTy "z" .nil]).isSubtypeOf
          (.record [] [.ofTy "x" (inner .string), .ofTy "z" .nil]) = true ∧
        (Ty.record [] [.ofTy "x" (inner .string), .ofTy "z" .nil]).isSubtypeOf
          (.record [] [.ofTy "x" (inner .string)]) = true ∧
        (Ty.record [] [.ofTy "x" (inner .number), .ofTy "z" .nil]).isSubtypeOf
          (.record [] [.ofTy "x" (inner .string)]) = false := by
  refine ⟨by decide, by decide, fun ty => .record [] [.ofTy "y" ty, .ofTy "w" .nil], ?_⟩
  decide

end LuaTyping.Ty
