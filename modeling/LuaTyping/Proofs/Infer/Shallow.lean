import LuaTyping.Proofs.Infer.ClassValues
import LuaTyping.Proofs.Infer.Comparing
import LuaTyping.Proofs.Ty.Proper

/-!
# A class by name and a class with its members

A class can be given by its name alone or with its supertypes and members. Comparisons tell the two
apart: a member that is listed is taken from the list, and every other one is looked up. Still they
come to the same, if the list shows what a lookup finds (`eval_decideFresh`). There is one
exception. A lookup does not tell a member of unknown type from a member that is not there, and the
list does; so a member of unknown type must not be asked for at unknown type, which is the only type
it is below.

The supertypes that are listed make no difference. They are among those that the name has anyway,
and a search for an ancestor comes to them last, when it has looked at them before.
-/

set_option autoImplicit false
namespace LuaTyping

/-! ## Supertypes that are given twice -/

section Search

variable {supertypes : String → List String} {target : String}

/-- A search that has only expanded classes left finds nothing. -/
theorem meets_expanded {steps : Nat} {visited pending : List String}
    (seen : ∀ name ∈ pending, name ∈ visited ∧ name ≠ target) (order : SearchOrder) :
    meets supertypes order target steps visited pending = false := by
  induction pending generalizing steps with
  | nil => cases steps <;> rfl
  | cons name rest ih =>
    obtain ⟨expanded, other⟩ := seen name List.mem_cons_self
    cases steps with
    | zero => simp [meets, other]
    | succ steps =>
      simp only [meets, beq_false_of_ne other, Bool.false_or, List.contains_iff_mem, expanded,
        if_true]
      exact ih fun name mem => seen name (List.mem_cons_of_mem _ mem)

/-- Classes that are pending already, or have been looked at, make no difference at the end. -/
theorem meets_depthFirst_append {steps : Nat} {visited pending again : List String}
    (seen : ∀ name ∈ again, name ∈ pending ∨ name ∈ visited ∧ name ≠ target) :
    meets supertypes .depthFirst target steps visited (pending ++ again)
      = meets supertypes .depthFirst target steps visited pending := by
  induction steps generalizing visited pending with
  | zero =>
    cases pending with
    | cons name rest => rfl
    | nil =>
      refine (meets_expanded (fun name mem => ?_) _).trans rfl
      exact (seen name mem).resolve_left List.not_mem_nil
  | succ steps ih =>
    cases pending with
    | nil =>
      refine (meets_expanded (fun name mem => ?_) _).trans rfl
      exact (seen name mem).resolve_left List.not_mem_nil
    | cons first rest =>
      by_cases found : first = target
      · simp [meets, found]
      · simp only [List.cons_append, meets, beq_false_of_ne found, Bool.false_or,
          List.contains_iff_mem]
        by_cases expanded : first ∈ visited
        · rw [if_pos expanded, if_pos expanded]
          refine ih fun name mem => ?_
          rcases seen name mem with pending | looked_at
          · rcases List.mem_cons.mp pending with rfl | pending
            · exact .inr ⟨expanded, found⟩
            · exact .inl pending
          · exact .inr looked_at
        · rw [if_neg expanded, if_neg expanded]
          show meets _ _ _ _ _ ((supertypes first).reverse ++ (rest ++ again)) = _
          rw [← List.append_assoc]
          refine ih fun name mem => ?_
          rcases seen name mem with pending | ⟨looked_at, other⟩
          · rcases List.mem_cons.mp pending with rfl | pending
            · exact .inr ⟨List.mem_cons_self, found⟩
            · exact .inl (List.mem_append_right _ pending)
          · exact .inr ⟨List.mem_cons_of_mem _ looked_at, other⟩

end Search

namespace Subtyping

theorem inherits_direct {m : Type → Type} (resolver : Resolver m) {name : String}
    {supers : List String} (direct : supers ⊆ resolver.supertypes name) (target : String) :
    inherits resolver name supers target = inherits resolver name [] target := by
  rw [inherits, inherits, List.reverse_append, List.nil_append]
  refine meets_depthFirst_append fun first mem => .inl ?_
  exact List.mem_reverse.mpr (direct (List.mem_reverse.mp mem))

end Subtyping

/-! ## What a type asks of a class -/

/-- The type, or an alternative of it, asks for the member of the given name at unknown type. -/
inductive Ty.AsksUnknown (name : String) : Ty → Prop
  | record {supers : List String} {members : List (Member Ty)} {member : Member Ty}
      (mem : member ∈ members) (named : member.name = name) (unknown : member.ty = .unknown) :
      AsksUnknown name (.record supers members)
  | alternative {alts : List Ty} {alt : Ty} (mem : alt ∈ alts) (asks : AsksUnknown name alt) :
      AsksUnknown name (.union alts)

/-- The members that a value of a class carries. -/
def Ty.listedMembers : Ty → List (Member Ty)
  | .named _ _ members => members
  | _ => []

/-- No listed member of unknown type is asked for at unknown type. -/
def AskedKnown (members : List (Member Ty)) (b : Ty) : Prop :=
  ∀ member ∈ members, member.ty = .unknown → ¬ b.AsksUnknown member.name

namespace Infer

open Subtyping

variable {κ : Type} {answer : κ → Option Ty}

/-! ## Comparisons that come to the same -/

/-- Where the first comparison comes to an answer, so does the second, and the guard is the same. -/
def Refines (answer : κ → Option Ty) (run run' : CompareM (Plan κ) Bool) : Prop :=
  ∀ guard result, (run guard).eval answer = some result → (run' guard).eval answer = some result

namespace Refines

variable {run run' yes yes' no no' : CompareM (Plan κ) Bool}

theorem refl (run : CompareM (Plan κ) Bool) : Refines answer run run := fun _ _ eval => eval

theorem branch (first : Refines answer run run') (hyes : Refines answer yes yes')
    (hno : Refines answer no no') :
    Refines answer (do if ← run then yes else no) (do if ← run' then yes' else no') := by
  intro guard result eval
  have eval := (Plan.eval_bind (run guard) _).symm.trans eval
  obtain ⟨⟨here, after⟩, ran, eval⟩ := Option.bind_eq_some_iff.mp eval
  refine (Plan.eval_bind (run' guard) _).trans ?_
  rw [first guard _ ran]
  cases here with
  | true => exact hyes after result eval
  | false => exact hno after result eval

theorem guarded (key : Key) (body : Refines answer run run') :
    Refines answer (guarded key run) (guarded key run') := by
  intro guard result eval
  rcases guarded_cases (κ := κ) key guard with ⟨here, after, -, refused⟩ | ⟨-, entered⟩
  · rw [refused] at eval ⊢
    exact eval
  · rw [entered, Plan.eval_bind] at eval ⊢
    obtain ⟨inside, ran, eval⟩ := Option.bind_eq_some_iff.mp eval
    rw [body _ _ ran]
    exact eval

theorem allM {α : Type} {test test' : α → CompareM (Plan κ) Bool} (xs : List α)
    (h : ∀ x ∈ xs, Refines answer (test x) (test' x)) :
    Refines answer (xs.allM test) (xs.allM test') := by
  induction xs with
  | nil => exact .refl _
  | cons x rest ih =>
    rw [allM_cons, allM_cons]
    exact .branch (h x List.mem_cons_self) (ih fun y mem => h y (List.mem_cons_of_mem x mem))
      (.refl _)

end Refines

/-! ## Members that are listed -/

section Listed

variable {rules : Rules (Plan κ)} {name : String} {supers : List String}
  {members : List (Member Ty)} {deeper : Ty → Ty → CompareM (Plan κ) Bool}

/-- A lookup of a member that is listed finds its type, or nothing if that is unknown. -/
def Listed (rules : Rules (Plan κ)) (answer : κ → Option Ty) (name : String)
    (members : List (Member Ty)) : Prop :=
  ∀ member ∈ members, ∀ found,
    (rules.resolver.lookupMember name member.name).eval answer = some found →
    found = if member.ty.isKnown then some member.ty else none

variable (listed : Listed rules answer name members)
  (direct : supers ⊆ rules.resolver.supertypes name)
  (unknown : ∀ b : Ty, b.isKnown = true → deeper .unknown b = pure false)
include listed unknown

theorem refines_hasMembers {supers' : List String} {expected : List (Member Ty)}
    (known : AskedKnown members (.record supers' expected)) :
    Refines answer (hasMembers rules deeper (some name) [] expected)
      (hasMembers rules deeper (some name) members expected) := by
  refine .allM expected fun wanted mem => ?_
  cases found : findMember? members wanted.name with
  | none =>
    have same : memberOf rules.resolver (some name) members wanted.name
        = memberOf rules.resolver (some name) [] wanted.name := by
      simp only [memberOf, found]
      rfl
    rw [same]
    exact .refl _
  | some member =>
    have member_mem : member ∈ members := List.mem_of_find?_eq_some found
    have named : member.name = wanted.name := by
      simpa using List.find?_some (show members.find? _ = some member from found)
    intro guard result eval
    rw [lift_bind_apply, Plan.eval_bind] at eval
    obtain ⟨looked_up, lookup, eval⟩ := Option.bind_eq_some_iff.mp eval
    have looked_up_eq := listed member member_mem looked_up (named ▸ lookup)
    rw [lift_bind_apply]
    simp only [memberOf, found]
    cases typed : member.ty.isKnown with
    | true =>
      rw [looked_up_eq, typed] at eval
      exact eval
    | false =>
      -- the lookup finds nothing, and the unknown type is below nothing that is known
      rw [looked_up_eq, typed] at eval
      have typed : member.ty = .unknown := Ty.eq_unknown_of_not_isKnown typed
      have asked : wanted.ty.isKnown = true := by
        rw [← Bool.not_eq_false]
        intro asked
        exact known member member_mem typed
          (.record mem named.symm (Ty.eq_unknown_of_not_isKnown asked))
      show (deeper member.ty wanted.ty guard).eval answer = _
      rw [typed, unknown wanted.ty asked]
      exact eval

include direct

theorem refines_compareShapes {b : Ty} (known : AskedKnown members b) :
    Refines answer (compareShapes rules deeper (.classRef name) b)
      (compareShapes rules deeper (.named name supers members) b) := by
  cases b with
  | named target supers' members' =>
    show Refines answer (pure (name == target || inherits rules.resolver name [] target))
      (pure (name == target || inherits rules.resolver name supers target))
    rw [inherits_direct rules.resolver direct]
    exact .refl _
  | record supers' expected =>
    exact refines_hasMembers listed unknown known
  | unknown | nil | boolean | number | string | literal | generic | aliasRef | array | tuple
  | function | union => exact .refl _

theorem refines_belowSimple_definite {b : Ty} (definite : b.isDefinite = true)
    (known : AskedKnown members b) :
    Refines answer (belowSimple rules deeper (.classRef name) b)
      (belowSimple rules deeper (.named name supers members) b) := by
  have same : (Ty.named name supers members).eqv b = (Ty.classRef name).eqv b := by cases b <;> rfl
  rw [belowSimple_definite rules deeper definite, belowSimple_definite rules deeper definite, same]
  by_cases equal : (Ty.classRef name).eqv b = true
  · rw [if_pos equal, if_pos equal]
    exact .refl _
  · rw [if_neg equal, if_neg equal]
    exact .guarded _ (refines_compareShapes listed direct unknown known)

omit listed direct unknown in
theorem refines_belowAny {bs : List Ty}
    (each : ∀ b ∈ bs, Refines answer (belowSimple rules deeper (.classRef name) b)
      (belowSimple rules deeper (.named name supers members) b)) :
    Refines answer (belowAny rules deeper (.classRef name) bs)
      (belowAny rules deeper (.named name supers members) bs) := by
  induction bs with
  | nil => exact .refl _
  | cons b rest ih =>
    obtain ⟨first, others⟩ := List.forall_mem_cons.mp each
    exact .branch first (.refl _) (ih others)

theorem refines_belowSimple (b : Ty) (known : AskedKnown members b) :
    Refines answer (belowSimple rules deeper (.classRef name) b)
      (belowSimple rules deeper (.named name supers members) b) := by
  induction b using Ty.induction_on_parts with
  | step b ih =>
    cases b with
    | unknown => exact .refl _
    | union alts =>
      exact refines_belowAny fun alt mem => ih alt mem fun member member_mem typed asks =>
        known member member_mem typed (.alternative mem asks)
    | _ => exact refines_belowSimple_definite listed direct unknown rfl known

end Listed

/-- The unknown type is below nothing that is known. -/
theorem compareWithin_unknown (rules : Rules (Plan κ)) (levels : Nat) (b : Ty)
    (known : b.isKnown = true) : compareWithin rules (levels + 1) .unknown b = pure false := by
  cases b with
  | unknown => simp [Ty.isKnown, Ty.isUnknown] at known
  | nil | boolean | number | string | literal | generic | aliasRef | array | tuple | function
  | named | record | union => rfl

/-- Where a comparison of the class by name comes to an answer, one with its members comes to the
same. -/
theorem eval_decideFresh {rules : Rules (Plan κ)} {name : String} {supers : List String}
    {members : List (Member Ty)} {b : Ty} (listed : Listed rules answer name members)
    (direct : supers ⊆ rules.resolver.supertypes name) (known : AskedKnown members b)
    {result : Bool} (eval : (decideFresh rules (.classRef name) b).eval answer = some result) :
    (decideFresh rules (.named name supers members) b).eval answer = some result := by
  have refined := refines_belowSimple listed direct
    (compareWithin_unknown rules (freshGuard.maxDepth - 1)) b known freshGuard
  have decide_eq (a : Ty) : (decideFresh rules a b).eval answer
      = ((compareWithin rules (freshGuard.maxDepth + 1) a b freshGuard).eval answer).bind
          fun r => some r.1 :=
    Plan.eval_bind (compareWithin rules (freshGuard.maxDepth + 1) a b freshGuard) _
  rw [decide_eq] at eval ⊢
  obtain ⟨compared, ran, hresult⟩ := Option.bind_eq_some_iff.mp eval
  exact Option.bind_eq_some_iff.mpr ⟨compared, refined compared ran, hresult⟩

/-- Comparing a class by name with a record of one member looks the member up. -/
theorem decideFresh_record {κ : Type} (rules : Rules (Plan κ)) (name : String)
    (supers : List String) (wanted : Member Ty) :
    decideFresh rules (.classRef name) (.record supers [wanted])
      = rules.resolver.lookupMember name wanted.name >>= fun found =>
          match found with
          | some actual => Prod.fst <$> compareWithin rules freshGuard.maxDepth actual wanted.ty
              (freshGuard.counted.pushed
                (Ty.outline (.classRef name), Ty.outline (.record supers [wanted])))
          | none => pure false := by
  let key : Key := (Ty.outline (.classRef name), Ty.outline (.record supers [wanted]))
  have once (test : Member Ty → CompareM (Plan κ) Bool) : [wanted].allM test = test wanted := by
    have answer (b : Bool) : (if b = true then pure true else pure false : CompareM (Plan κ) Bool)
        = pure b := by cases b <;> rfl
    rw [allM_cons, List.allM]
    simp only [answer, bind_pure]
  have shape : decideFresh rules (.classRef name) (.record supers [wanted])
      = (hasMembers rules (compareWithin rules freshGuard.maxDepth) (some name) [] [wanted]
          (freshGuard.counted.pushed key) >>= fun r => .done (r.1, (r.2.leave key).2)) >>=
            fun r => .done r.1 := rfl
  rw [shape, hasMembers, once, lift_bind_apply, bind_assoc, bind_assoc]
  refine congrArg (_ >>= ·) (funext fun found => ?_)
  cases found <;> rfl

/-! ## In a project -/

section Project

variable {ctx : Context} {name : String} {members : List (Member Ty)}

theorem listed_of_shows (shows : Rule.Shows ctx name members) (levels : Nat) :
    Listed ⟨Rule.resolver ctx, ctx.options.nilStrict⟩ (groundWithin ctx levels []) name
      members := by
  intro member mem found lookup
  have lookup := (Plan.eval_bind (Rule.classMember ctx name member.name) _).symm.trans lookup
  obtain ⟨ty, determined, hfound⟩ := Option.bind_eq_some_iff.mp lookup
  rw [shows member mem levels ty determined]
  exact (Option.some.inj hfound).symm

theorem acyclicSupertypes_subset (snapshot : Snapshot) (name : String) :
    Rule.acyclicSupertypes snapshot name ⊆ snapshot.supertypes name :=
  List.filter_sublist.subset

/-- A type without references is looked up as itself. -/
theorem groundWithin_resolve (ctx : Context) (levels : Nat) (path : List GuardKey) {ty : Ty}
    (resolved : ty.Resolved) : groundWithin ctx (levels + 1) path (.resolve ty) = some ty := by
  show (Ty.expandM (expandRef ctx) ty).eval _ = _
  rw [Ty.expandM, if_neg (by simpa [Ty.Resolved] using resolved)]
  rfl

/-- Where the rules determine whether the class by name is below a type, they determine the same for
the class with members that show what lookups find. -/
theorem determines_isSubtype (shows : Rule.Shows ctx name members)
    (resolved : (Ty.named name (Rule.acyclicSupertypes ctx.snapshot name) members).Resolved)
    {b wanted : Ty} (looked_up : (Rule.ask (.resolve b)).Determines ctx wanted)
    (known : AskedKnown members wanted) {answer : Bool}
    (determined : (Rule.isSubtype ctx (.classRef name) b).Determines ctx answer) :
    (Rule.isSubtype ctx (.named name (Rule.acyclicSupertypes ctx.snapshot name) members)
      b).Determines ctx answer := by
  obtain ⟨levels, eval⟩ := determined
  cases levels with
  | zero => cases eval
  | succ levels =>
    obtain ⟨a', left, eval⟩ := Option.bind_eq_some_iff.mp eval
    rw [groundWithin_resolve ctx levels [] (show (Ty.classRef name).Resolved from rfl)] at left
    cases left
    obtain ⟨b', right, eval⟩ := Option.bind_eq_some_iff.mp eval
    have asked : (Rule.ask (.resolve b)).Determines ctx b' :=
      ⟨levels + 1, (Plan.eval_question _).trans right⟩
    cases looked_up.unique asked
    refine ⟨levels + 1, Option.bind_eq_some_iff.mpr ⟨_, groundWithin_resolve ctx levels [] resolved,
      Option.bind_eq_some_iff.mpr ⟨wanted, right, ?_⟩⟩⟩
    exact eval_decideFresh (listed_of_shows shows (levels + 1))
      (acyclicSupertypes_subset ctx.snapshot name) known eval

end Project

end Infer

end LuaTyping
