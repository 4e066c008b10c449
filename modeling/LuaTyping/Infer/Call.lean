import LuaTyping.Infer.Member
import LuaTyping.Ty.Unify

/-!
# Calls

What a call returns, what the loop variables of an iteration are, and what a function expression
may expect of its parameters from the call it is passed to.

A call binds the type parameters of the function by its arguments. Type parameters that stay
unbound are unknown.
-/

set_option autoImplicit false

namespace LuaTyping.Infer.Rule

variable (ctx : Context)

/-- A result with the type parameters that a call leaves unbound replaced. Without generics all of
them are. -/
def eraseUnbound (options : Options) (generics : List String) (ty : Ty) : Ty :=
  if options.genericsEnabled then ty.eraseOnly generics else ty.eraseGenerics

/-- What a function with the given signature returns for arguments of the given types. -/
def returnType (options : Options) (params : List Ty) (ret : Ty) (generics : List String)
    (args : List Ty) : Ty :=
  let bound :=
    if generics.isEmpty || !options.genericsEnabled then ret
    else ret.instantiate (Bindings.infer generics params args)
  eraseUnbound options generics bound

/-- The types of arguments after those already `given`. The parameter in the place of an argument
says what is expected of it, and the last argument contributes all of its values. -/
def argumentTypes (file : FileId) (params : List Ty) : List Ty → List NodeRef → Rule (List Ty)
  | given, [] => pure given
  | given, arg :: rest => do
    let ty ← ask (.expr file arg params[given.length]?)
    match ty, rest with
    | .tuple values, [] => pure (given ++ values)
    | ty, _ => argumentTypes file params (given ++ [ty.firstValue]) rest

mutual

/-- What a call of a value returns. A class called like a function makes a value of the class. -/
def applyCall (file : FileId) (self : List Ty) (args : List NodeRef) : Ty → Rule Ty
  | .function params ret _ generics => do
    let argTypes ← argumentTypes file params self args
    pure (returnType ctx.options params ret generics argTypes)
  | .named name supers members => pure (.named name supers members)
  | .union alts => do pure (Ty.unionOf (← applyCalls file self args alts))
  | _ => pure .unknown
termination_by structural callee => callee

/-- `applyCall` over a list of types. -/
def applyCalls (file : FileId) (self : List Ty) (args : List NodeRef) :
    List Ty → Rule (List Ty)
  | [] => pure []
  | callee :: rest => do
    let ty ← applyCall file self args callee
    let tys ← applyCalls file self args rest
    pure (ty :: tys)
termination_by structural callees => callees

end

/-- What is called: its type, and the receiver and member it was reached through. -/
structure Callee where
  ty : Ty
  receiver : Option (Ty × String)
deriving Inhabited

/-- What a call calls. A member is looked up on its receiver with a colon and with a dot alike. -/
def calleeOf (file : FileId) (callee : NodeRef) (method : Option String) : Rule Callee := do
  match method, ctx.snapshot.form? file callee with
  | some member, _ =>
    let receiver ← value file callee
    pure ⟨← memberType ctx member receiver, some (receiver, member)⟩
  | none, some (.index base (.named member)) =>
    let receiver ← value file base
    pure ⟨← memberType ctx member receiver, some (receiver, member)⟩
  | none, _ => pure ⟨← value file callee, none⟩

/-- The receiver itself, when an unknown result comes from a member of a named class that is named
like a constructor. -/
def constructed? (options : Options) (result : Ty) (receiver : Option (Ty × String)) :
    Option Ty :=
  match receiver with
  | some (.named name supers members, member) =>
    if result.isUnknown && options.isConstructorName member then
      some (.named name supers members)
    else none
  | _ => none

/-- The type of a call. -/
def callType (file : FileId) (callee : NodeRef) (method : Option String) (args : List NodeRef) :
    Rule Ty := do
  let target ← calleeOf ctx file callee method
  let self := match method, target.receiver with
    | some _, some (receiver, _) => [receiver]
    | _, _ => []
  let result ← applyCall ctx file self args target.ty
  pure ((constructed? ctx.options result target.receiver).getD result)

/-- The position of an item in a list of references. -/
def positionOf? (refs : List NodeRef) (ref : NodeRef) : Option Nat :=
  refs.findIdx? fun other => other == ref

/-- The declared type of the parameter that an argument is passed to. Type parameters in it are
bound by the other arguments, function expressions aside. -/
def expectedArgument (file : FileId) (arg : NodeRef) : Rule (Option Ty) := do
  match ctx.snapshot.tree? file with
  | none => pure none
  | some tree =>
    match tree.form? (tree.parent arg) with
    | some (.call callee method args) =>
      match positionOf? args arg with
      | none => pure none
      | some position =>
        let receiver ← value file callee
        let (calleeTy, self) ← match method with
          | some member => do pure (← memberType ctx member receiver, [receiver])
          | none => pure (receiver, [])
        let calleeTy ← ask (.resolve calleeTy)
        match calleeTy.firstFunction? with
        | none => pure none
        | some (params, generics) =>
          match params[position + self.length]? with
          | none => pure none
          | some param =>
            if generics.isEmpty || !param.containsGeneric then pure (some param)
            else
              let others ← args.mapM fun other => do
                let isClosure := ((tree.form? other).map Form.isClosure).getD false
                if other == arg || isClosure then pure .unknown else value file other
              let bindings :=
                if ctx.options.genericsEnabled then Bindings.infer generics params (self ++ others)
                else .empty
              pure (some (eraseUnbound ctx.options generics (param.instantiate bindings)))
    | _ => pure none

/-- The type of an undocumented parameter of a function expression that is passed to a call. -/
def contextualParam (file : FileId) (param : NodeRef) : Rule (Option Ty) := do
  match ctx.snapshot.tree? file with
  | none => pure none
  | some tree =>
    let closure := tree.parent param
    match tree.form? closure with
    | some (.closure params _ _) =>
      match positionOf? params param with
      | none => pure none
      | some position =>
        let expected ← expectedArgument ctx file closure
        pure (((expected.bind Ty.params?).bind fun params => params[position]?).filter Ty.isKnown)
    | _ => pure none

/-- The type of the values of a table. -/
def elementType : Ty → Ty
  | .array element => element
  | .tuple elements => Ty.unionOf elements
  | .record _ members => Ty.unionOf (members.map Member.ty)
  | _ => .unknown

/-- The two functions that iterate over a table. -/
inductive TableIteration where
  | indexed
  | keyed
deriving DecidableEq, Inhabited, Repr

namespace TableIteration

def ofName? : String → Option TableIteration
  | "ipairs" => some .indexed
  | "pairs" => some .keyed
  | _ => none

/-- The type of the loop variable at a position, by the type of the table. -/
def variableType (iteration : TableIteration) (table : Ty) (index : Nat) : Ty :=
  match iteration, index with
  | .indexed, 0 => .number
  | .indexed, 1 =>
    match table with
    | .array element => element
    | _ => .unknown
  | .keyed, 0 =>
    match table with
    | .array _ | .tuple _ => .number
    | _ => .unknown
  | .keyed, 1 => elementType table
  | _, _ => .unknown

end TableIteration

/-- The iteration over a table that an expression calls for, with the arguments of the call. The
name must not be declared in the project. -/
def tableIteration? (snapshot : Snapshot) (file : FileId) (expr : NodeRef) :
    Option (TableIteration × List NodeRef) :=
  match snapshot.form? file expr with
  | some (.call callee none args) =>
    match snapshot.form? file callee with
    | some (.name name) =>
      match TableIteration.ofName? name with
      | some iteration =>
        if (snapshot.resolveName file name (snapshot.startOf file callee)).isEmpty then
          some (iteration, args)
        else none
      | none => none
    | _ => none
  | _ => none

/-- The type of the loop variable at a position of `for ... in expr`. -/
def iteratorType (file : FileId) (expr : NodeRef) (index : Nat) : Rule Ty := do
  match tableIteration? ctx.snapshot file expr with
  | some (iteration, args) =>
    match args with
    | [] => pure .unknown
    | table :: _ => do pure (iteration.variableType (← value file table) index)
  | none =>
    match ← value file expr with
    | .function _ ret _ _ => pure (ret.nthValue index)
    | _ => pure .unknown

end LuaTyping.Infer.Rule
