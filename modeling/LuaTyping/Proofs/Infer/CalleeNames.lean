import LuaTyping.Infer.Call
import LuaTyping.Proofs.Ty.Binding

/-!
# The names of a callee's type parameters

What a call returns should not depend on how the called function names its type parameters. The
names are renamed by swapping each of them with its new name. Binding type parameters, putting in
what they are bound to and erasing the ones left over all commute with renaming, so the call of the
renamed function returns the renamed result; and where neither name occurs in the result, that is
the result itself (`returnType_renamed`).

Names are all there is to a type parameter, so this takes that the caller's own parameters are
called neither by the old nor by the new names: a parameter of the caller that comes in through an
argument and is called like one of the callee's is erased with those that were left unbound. A
function inside the signature must not declare a parameter by one of the old names either, for what
it declares is replaced as if it were the callee's (`returnType_not_renamed`).
-/

set_option autoImplicit false

namespace LuaTyping

open Ty

/-! ## Consistent renaming -/

namespace Ty

/-- The renaming inside a function that declares names of its own. -/
def shadowed (own : List String) (names : String → String) (name : String) : String :=
  if own.contains name then name else names name

mutual

/-- The type with type parameters renamed, except where a function inside declares them itself. -/
def renamedFree : Ty → (String → String) → Ty
  | .generic name, names => .generic (names name)
  | .function params ret variadic own, names =>
    .function (renamedFreeList params (shadowed own names)) (renamedFree ret (shadowed own names))
      variadic own
  | .named name supers members, names => .named name supers (renamedFreeMembers members names)
  | .record supers members, names => .record supers (renamedFreeMembers members names)
  | .union alts, names => .union (renamedFreeList alts names)
  | .aliasRef name args, names => .aliasRef name (renamedFreeList args names)
  | .array element, names => .array (renamedFree element names)
  | .tuple elements, names => .tuple (renamedFreeList elements names)
  | ty, _ => ty
termination_by structural ty => ty

/-- `renamedFree` over a list of types. -/
def renamedFreeList : List Ty → (String → String) → List Ty
  | [], _ => []
  | ty :: rest, names => renamedFree ty names :: renamedFreeList rest names
termination_by structural tys => tys

/-- `renamedFree` over the types of members. -/
def renamedFreeMembers : List (Member Ty) → (String → String) → List (Member Ty)
  | [], _ => []
  | ⟨name, ty, visibility, deprecated, site⟩ :: rest, names =>
    ⟨name, renamedFree ty names, visibility, deprecated, site⟩ :: renamedFreeMembers rest names
termination_by structural members => members

end

/-- Whether a function inside the type declares a type parameter of that name. -/
def declares (name : String) (ty : Ty) : Bool :=
  ty.anyNode fun
    | .function _ _ _ own => own.contains name
    | _ => false

theorem renamedFreeList_eq {names : String → String} : ∀ tys : List Ty,
    (∀ ty ∈ tys, ty.renamedFree names = ty.renamed names) →
      renamedFreeList tys names = tys.map (renamed names)
  | [], _ => rfl
  | ty :: rest, each => by
    obtain ⟨first, others⟩ := List.forall_mem_cons.mp each
    rw [renamedFreeList, first, renamedFreeList_eq rest others, List.map_cons]

theorem renamedFreeMembers_eq {names : String → String} : ∀ {members : List (Member Ty)},
    (∀ part ∈ members.map (·.ty), part.renamedFree names = part.renamed names) →
      renamedFreeMembers members names = members.map (renamedMember names)
  | [], _ => rfl
  | ⟨_, _, _, _, _⟩ :: _, each => by
    obtain ⟨first, others⟩ := List.forall_mem_cons.mp each
    rw [renamedFreeMembers, first, renamedFreeMembers_eq others]
    rfl

/-- Where no function inside declares a name that is changed, all occurrences are renamed. -/
theorem renamedFree_eq {names : String → String} {ty : Ty}
    (own : ∀ name, ty.declares name = true → names name = name) :
    ty.renamedFree names = ty.renamed names := by
  induction ty using induction_on_parts with
  | step ty ih =>
    have inside (part : Ty) (mem : part ∈ ty.parts) : part.renamedFree names = part.renamed names :=
      ih part mem fun name declared => own name (by
        by_contra none
        exact absurd declared (Bool.eq_false_iff.mp
          (anyNode_part mem (Bool.eq_false_iff.mpr none))))
    cases ty with
    | function params ret variadic own' =>
      have same : shadowed own' names = names := by
        funext name
        rw [shadowed]
        split
        · rename_i listed
          refine (own name ?_).symm
          rw [declares, anyNode_eq]
          simp only [listed, Bool.true_or]
        · rfl
      obtain ⟨result, params⟩ := List.forall_mem_cons.mp inside
      rw [renamedFree, same, renamedFreeList_eq _ params, result, renamed_function]
    | named name supers members => rw [renamedFree, renamedFreeMembers_eq inside, renamed_named]
    | record supers members => rw [renamedFree, renamedFreeMembers_eq inside, renamed_record]
    | union alts => rw [renamedFree, renamedFreeList_eq alts inside, renamed_union]
    | aliasRef name args => rw [renamedFree, renamedFreeList_eq args inside, renamed_aliasRef]
    | array element => exact congrArg array (inside element List.mem_cons_self)
    | tuple elements => rw [renamedFree, renamedFreeList_eq elements inside, renamed_tuple]
    | _ => rfl

end Ty

/-- Whether the name occurs in the type, as a type parameter or where a function declares it. -/
def Ty.usesName (name : String) (ty : Ty) : Bool := ty.hasParam name || ty.declares name

/-- A consistent renaming of a signature's type parameters to distinct other names that do not occur
in it. -/
structure Renames (names : String → String) (generics : List String) (signature : List Ty) :
    Prop where
  others : ∀ name, name ∉ generics → names name = name
  distinct : ∀ name ∈ generics, ∀ other ∈ generics, names name = names other → name = other
  new : ∀ name ∈ generics, names name ∉ generics ∧
    ∀ ty ∈ signature, ty.usesName (names name) = false

namespace Renames

variable {names : String → String} {generics : List String} {signature : List Ty}

/-- Swaps each of the type parameters with its new name. -/
def swap (names : String → String) (generics : List String) (name : String) : String :=
  if name ∈ generics then names name else (generics.find? fun old => names old == name).getD name

theorem swap_old {name : String} (mem : name ∈ generics) : swap names generics name = names name :=
  if_pos mem

theorem swap_new (renames : Renames names generics signature) {name : String}
    (mem : name ∈ generics) : swap names generics (names name) = name := by
  rw [swap, if_neg (renames.new name mem).1]
  cases found : generics.find? fun old => names old == names name with
  | none => exact absurd (beq_self_eq_true _) (List.find?_eq_none.mp found name mem)
  | some old =>
    have same : names old = names name := by simpa using List.find?_some found
    exact renames.distinct old (List.mem_of_find?_eq_some found) name mem same

/-- A name that is neither an old nor a new one stays. -/
theorem swap_other {name : String} (old : name ∉ generics)
    (new : ∀ other ∈ generics, names other ≠ name) : swap names generics name = name := by
  rw [swap, if_neg old, List.find?_eq_none.mpr fun other mem same => new other mem (eq_of_beq same)]
  rfl

theorem involutive_swap (renames : Renames names generics signature) :
    (swap names generics).Involutive := by
  intro name
  by_cases old : name ∈ generics
  · rw [swap_old old, renames.swap_new old]
  · by_cases new : ∃ other ∈ generics, names other = name
    · obtain ⟨other, mem, rfl⟩ := new
      rw [renames.swap_new mem, swap_old mem]
    · have new : ∀ other ∈ generics, names other ≠ name := fun other mem same =>
        new ⟨other, mem, same⟩
      rw [swap_other old new, swap_other old new]

/-- No new name occurs in the signature. -/
theorem paramsAll_signature (renames : Renames names generics signature) {ty : Ty}
    (mem : ty ∈ signature) : ty.ParamsAll fun name => ∀ other ∈ generics, names other ≠ name := by
  rintro name occurs other listed rfl
  have unused := (renames.new other listed).2 ty mem
  rw [usesName, occurs] at unused
  cases unused

/-- In the signature the renaming is as good as the swap. -/
theorem renamedFree_eq_swap (renames : Renames names generics signature) {ty : Ty}
    (mem : ty ∈ signature) (own : ∀ name ∈ generics, ty.declares name = false) :
    ty.renamedFree names = ty.renamed (swap names generics) := by
  have declared (name : String) (declared : ty.declares name = true) : names name = name := by
    refine renames.others name fun listed => ?_
    rw [own name listed] at declared
    cases declared
  rw [renamedFree_eq declared]
  refine renamed_congr ((renames.paramsAll_signature mem).mono fun name new => ?_)
  by_cases old : name ∈ generics
  · exact (swap_old old).symm
  · rw [swap_other old new, renames.others name old]

end Renames

/-! ## Calls -/

namespace Infer.Rule

theorem returnType_eq {options : Options} (enabled : options.genericsEnabled = true)
    (params : List Ty) (ret : Ty) (generics : List String) (args : List Ty) :
    returnType options params ret generics args
      = (if generics.isEmpty then ret
          else ret.instantiate (Bindings.infer generics params args)).eraseOnly generics := by
  simp [returnType, eraseUnbound, enabled]

/-- Everything renamed, a call returns what it returned before, if no type parameters but the
callee's are touched. -/
theorem returnType_permuted {options : Options} (enabled : options.genericsEnabled = true)
    {names : String → String} (involutive : names.Involutive) (params : List Ty) {ret : Ty}
    {generics : List String} {args : List Ty}
    (others : ∀ ty ∈ ret :: args, ty.ParamsAll fun name => name ∈ generics ∨ names name = name) :
    returnType options (params.map (renamed names)) (ret.renamed names) (generics.map names)
        (args.map (renamed names))
      = returnType options params ret generics args := by
  obtain ⟨result, given⟩ := List.forall_mem_cons.mp others
  have rebuilds := rebuilds_paramsAll fun name => name ∈ generics ∨ names name = name
  rw [returnType_eq enabled, returnType_eq enabled, List.isEmpty_map]
  split
  · exact eraseOnly_renamed involutive generics result
  · rw [instantiate_renamed involutive (infer_renamed involutive generics params args)]
    exact eraseOnly_renamed involutive generics
      (rebuilds.instantiate result (rebuilds.infer generics params given))

/-- The names of a callee's type parameters do not matter, if the caller's own type parameters are
called by neither the old nor the new ones and no function in the signature declares one by an old
name. -/
theorem returnType_renamed {options : Options} (enabled : options.genericsEnabled = true)
    {params : List Ty} {ret : Ty} {generics : List String} {args : List Ty}
    {names : String → String} (renames : Renames names generics (ret :: params))
    (own : ∀ ty ∈ ret :: params, ∀ name ∈ generics, ty.declares name = false)
    (apart : ∀ arg ∈ args, ∀ name ∈ generics,
      arg.hasParam name = false ∧ arg.hasParam (names name) = false) :
    returnType options (params.map (·.renamedFree names)) (ret.renamedFree names)
        (generics.map names) args
      = returnType options params ret generics args := by
  have signature (ty : Ty) (mem : ty ∈ ret :: params) :=
    renames.renamedFree_eq_swap mem (own ty mem)
  have declared : generics.map names = generics.map (Renames.swap names generics) :=
    List.map_congr_left fun name mem => (Renames.swap_old mem).symm
  have untouched (arg : Ty) (mem : arg ∈ args) :
      arg.ParamsAll fun name => Renames.swap names generics name = name := by
    refine fun name occurs => Renames.swap_other (fun old => ?_) ?_
    · rw [(apart arg mem name old).1] at occurs
      cases occurs
    · rintro other old rfl
      rw [(apart arg mem other old).2] at occurs
      cases occurs
  have given : args = args.map (renamed (Renames.swap names generics)) :=
    ((List.map_congr_left fun arg mem => renamed_eq_self (untouched arg mem)).trans
      (List.map_id args)).symm
  have others : ∀ ty ∈ ret :: args, ty.ParamsAll fun name =>
      name ∈ generics ∨ Renames.swap names generics name = name := by
    refine List.forall_mem_cons.mpr ⟨?_, fun arg mem => (untouched arg mem).mono fun _ => .inr⟩
    refine (renames.paramsAll_signature List.mem_cons_self).mono fun name new => ?_
    exact or_iff_not_imp_left.mpr fun old => Renames.swap_other old new
  have permuted := returnType_permuted enabled renames.involutive_swap params others
  rwa [← given, ← declared, ← signature ret List.mem_cons_self,
    ← List.map_congr_left fun param mem => signature param (List.mem_cons_of_mem ret mem)]
    at permuted

/-- Two names, each for one of two others. -/
def twoNames (old old' new new' : String) (name : String) : String :=
  if name = old then new else if name = old' then new' else name

theorem returnType_renamed_map :
    let params : List Ty :=
      [.array (.generic "T"), .function [.generic "T"] (.generic "U") false []]
    let args : List Ty := [.array .number, .function [.number] (.generic "V") false []]
    let names := twoNames "T" "U" "A" "B"
    Renames names ["T", "U"] (.array (.generic "U") :: params) ∧
      returnType .standard (params.map (·.renamedFree names))
          ((Ty.array (.generic "U")).renamedFree names) (["T", "U"].map names) args
        = .array (.generic "V") := by
  intro params args names
  have renames : Renames names ["T", "U"] (.array (.generic "U") :: params) := by
    refine ⟨fun name other => ?_, by decide, by decide⟩
    have differ : name ≠ "T" ∧ name ≠ "U" := by simpa using other
    simp [names, twoNames, differ]
  refine ⟨renames, ?_⟩
  exact (returnType_renamed rfl renames (by decide) (by decide)).trans rfl

/-- A type parameter of the caller that is called like one of the callee's is lost, and under
another name of the callee's it is kept. And what a function in the signature declares is replaced
with the callee's parameter of that name. -/
theorem returnType_not_renamed :
    let names := twoNames "T" "T" "U" "U"
    let param : Ty := .generic "T"
    let inner : Ty := .function [.generic "T"] (.generic "T") false ["T"]
    (Renames names ["T"] [param, param] ∧
      returnType .standard [param] param ["T"] [.generic "T"] = .unknown ∧
      returnType .standard [param.renamedFree names] (param.renamedFree names) (["T"].map names)
        [.generic "T"] = .generic "T") ∧
    (Renames names ["T"] [inner, param] ∧
      returnType .standard [param] inner ["T"] [.number]
        = .function [.number] .number false ["T"] ∧
      returnType .standard [param.renamedFree names] (inner.renamedFree names) (["T"].map names)
        [.number] = inner) := by
  intro names param inner
  have others (name : String) (other : name ∉ ["T"]) : names name = name := by
    have differ : name ≠ "T" := by simpa using other
    simp [names, twoNames, differ]
  exact ⟨⟨⟨others, by decide, by decide⟩, rfl, rfl⟩, ⟨others, by decide, by decide⟩, rfl, rfl⟩

end Infer.Rule

end LuaTyping
