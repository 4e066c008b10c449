import LuaTyping.Infer.Declaration

/-!
# Solving goals

How the questions of the rules are answered. A task is carried out under the guard, which cuts
circles short, or under the limit on nested expressions. A goal is solved by carrying out tasks:
a task is its own only one, and a type with references needs one for each reference it looks up.

Carrying out a task enters a computation of the guard or goes a level deeper in the counter of
expressions before its rule asks for anything, and both are limited; so goals are solved level by
level, and with more levels than both limits admit together the last level is never reached.

A reference is looked up as a class, then as an alias, then, if the options allow it, as a global.
A class that is needed while its value is being built is given without members; classes are told
apart by name, so it is the same class. Everything else that is needed while it is computed is
unknown.
-/

set_option autoImplicit false

namespace LuaTyping.Infer

/-! ## References -/

/-- What a reference stands for. The arguments are looked up only if they are needed. -/
def expandRef (ctx : Context) (name : String) (args : Plan Task (List Ty)) : Plan Task Ty := do
  if ctx.cancelled then pure .unknown
  else
    Plan.noteName name
    if ctx.snapshot.isClass name then Plan.question (.classValue name)
    else
      match ctx.snapshot.aliasDecls name with
      | key :: _ =>
        match ctx.snapshot.entry? key with
        | none => pure .unknown
        | some entry =>
          let target := entry.declared.getD .unknown
          let bound := Bindings.ofArgs entry.generics (← args)
          Plan.question (.expansion name key.file (target.instantiate bound))
      | [] =>
        if ctx.options.globalNamesAsTypes && !(ctx.snapshot.globalDecls name).isEmpty then
          Plan.noteName name
          pure (Ty.unionOf
            (← (ctx.snapshot.globalDecls name).mapM fun key => Plan.question (.decl key)))
        else pure .unknown

/-- The tasks that a goal needs. -/
def Goal.plan (ctx : Context) : Goal → Plan Task Ty
  | .task needed => Plan.question needed
  | .resolve ty => ty.expandM (expandRef ctx)

/-! ## Tasks -/

section Level

variable (ctx : Context) (deeper : Solver)

/-- Where the type of a declaration is kept. -/
def cacheKey (key : DeclKey) : CacheKey :=
  { decl := key, generation := ctx.snapshot.generation key.file, fingerprint := ctx.fingerprint }

/-- The type of a declaration: a kept one, or one that is computed now and kept unless it depends
on something unfinished or a limit was met. -/
def performDecl (key : DeclKey) : InferM Ty := do
  if ctx.cancelled then pure .unknown
  else
    recordFile key.file
    match ← cached (cacheKey ctx key) with
    | some ty => pure ty
    | none =>
      match ← within (.decl key) (inFile key.file ((Rule.declType ctx key).run deeper)) with
      | none => pure .unknown
      | some (computed, provisional) =>
        let ty := computed.instantiate ctx.bindings
        if provisional || !(← mayCache ctx) then pure ty else keep (cacheKey ctx key) ty

/-- The type of an expression, nested no deeper than the options allow. -/
def performExpr (file : FileId) (node : NodeRef) (expected : Option Ty) : InferM Ty := do
  if ctx.cancelled then pure .unknown
  else pure ((← nested ((Rule.exprType ctx file node expected).run deeper)).getD .unknown)

/-- The value of a class: one built before by this query, or one that is built now. -/
def performClass (name : String) : InferM Ty := do
  recordName name
  match (← get).classes[name]? with
  | some ty => pure ty
  | none =>
    match ← within (.className name) ((Rule.classValue ctx name).run deeper) with
    | none => pure (.named name (Rule.acyclicSupertypes ctx.snapshot name) [])
    | some (ty, provisional) =>
      if !provisional && (← mayCache ctx) then
        modify fun state => { state with classes := state.classes.insert name ty }
      pure ty

/-- What an alias stands for. -/
def performExpansion (name : String) (file : FileId) (target : Ty) : InferM Ty := do
  let expanded ← within (.aliasName name) do
    recordFile file
    deeper (.resolve target)
  pure ((expanded.map Prod.fst).getD .unknown)

/-- Carries out a task, where `deeper` solves the goals its rule asks for. -/
def perform : Task → InferM Ty
  | .decl key => performDecl ctx deeper key
  | .expr file node expected => performExpr ctx deeper file node expected
  | .classValue name => performClass ctx deeper name
  | .expansion name file target => performExpansion deeper name file target

end Level

/-! ## Goals -/

/-- Solves a goal with `levels` of tasks inside it. -/
def solveWithin (ctx : Context) : (levels : Nat) → Solver
  | 0 => fun _ => pure .unknown
  | levels + 1 => fun goal => (goal.plan ctx).run (perform ctx (solveWithin ctx levels))

/-- Solves a goal. -/
def solve (ctx : Context) : Solver := solveWithin ctx (2 * ctx.options.maxDepth + 1)

namespace Rule

variable (ctx : Context)

/-- The type of a node: of the declaration it introduces, or else of the expression it is. The
result holds no reference that is not looked up. -/
def nodeType (file : FileId) (node : NodeRef) : Rule Ty := do
  if ctx.cancelled then pure .unknown
  else
    let goal := match (ctx.snapshot.decls? file).bind fun decls => decls.declForNode? node with
      | some decl => Goal.decl ⟨file, decl⟩
      | none => Goal.expr file node none
    let ty ← ask goal
    let ty ← ask (.resolve ty)
    pure ty.eraseRefs

/-- Whether the first type is below the second in the project, with the leniency of the options. -/
def isSubtype (a b : Ty) : Rule Bool := do
  let a ← ask (.resolve a)
  let b ← ask (.resolve b)
  Subtyping.decideFresh ⟨resolver ctx, ctx.options.nilStrict⟩ a b

end Rule

/-! ## Rules asked on their own -/

section Asking

variable (ctx : Context) (solve : Solver)

def value (file : FileId) (node : NodeRef) : InferM Ty := (Rule.value file node).run solve

def memberType (member : String) (base : Ty) : InferM Ty :=
  (Rule.memberType ctx member base).run solve

def classMember (className member : String) : InferM Ty :=
  (Rule.classMember ctx className member).run solve

def projectUnion (tys : List Ty) : InferM Ty := (Rule.projectUnion ctx tys).run solve

def resolver : Resolver InferM where
  supertypes := ctx.snapshot.supertypes
  lookupMember className member := ((Rule.resolver ctx).lookupMember className member).run solve

end Asking

/-- The type of a node. -/
def nodeType (ctx : Context) (file : FileId) (node : NodeRef) : InferM Ty :=
  (Rule.nodeType ctx file node).run (solve ctx)

/-- Whether the first type is below the second. -/
def isSubtype (ctx : Context) (a b : Ty) : InferM Bool :=
  (Rule.isSubtype ctx a b).run (solve ctx)

end LuaTyping.Infer
