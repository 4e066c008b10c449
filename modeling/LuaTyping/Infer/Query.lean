import LuaTyping.Decl.Resolve
import LuaTyping.Guard.Basic
import LuaTyping.Guard.Depth
import LuaTyping.Infer.Cache
import LuaTyping.Infer.Options

/-!
# Queries

A query infers types over one snapshot with fixed options and bindings. While it runs it keeps what
is being computed, so that circular declarations end, the class values it has built, and the cache
it shares with other queries.

Inference is a handful of tasks that need each other: the type of a declaration, the type of an
expression, the value of a class, and what an alias stands for. What a task needs is written as a
*plan*, which asks for other tasks and for types with their references looked up, and goes on with
the answers. A plan has no state of its own. So each rule can be read by itself, and both how the
questions of a plan are answered and why it all ends are left to one place, `LuaTyping.Infer.Solve`.
-/

set_option autoImplicit false

namespace LuaTyping

namespace Infer

/-- What identifies a computation in progress. One guard watches over all three kinds, so a circle
through any mix of them is noticed. -/
inductive GuardKey where
  | decl (key : DeclKey)
  | aliasName (name : String)
  | className (name : String)
deriving DecidableEq, Inhabited, Repr

/-- What a query is asked about. -/
structure Context where
  snapshot : Snapshot
  options : Options
  /-- The bindings in effect. -/
  bindings : Bindings
  /-- The fingerprint of the bindings. -/
  fingerprint : Fingerprint
  /-- Whether the query has been called off. -/
  cancelled : Bool
deriving Inhabited

/-- What a query keeps while it runs. -/
structure State where
  guard : Guard GuardKey
  /-- The nesting of expressions. -/
  depth : DepthCounter
  /-- The class values built by this query. -/
  classes : Std.HashMap String Ty
  cache : Cache
  /-- The files of the declarations being inferred, innermost first. -/
  files : List FileId
deriving Inhabited

/-- The context of a query with the given bindings. -/
def Context.make (snapshot : Snapshot) (options : Options) (bindings : Bindings)
    (cancelled : Bool) : Context :=
  { snapshot, options, bindings, fingerprint := bindings.fingerprint, cancelled }

/-- The state in which a query starts. -/
def State.start (options : Options) (cache : Cache) : State :=
  { guard := Guard.withLimits options.maxDepth Profile.declarationInference.maxIterations
    depth := DepthCounter.withLimit options.maxDepth
    classes := ∅, cache, files := [] }

/-- A step of inference. -/
abbrev InferM := StateM State

/-- What is computed under a guard or a limit. -/
inductive Task where
  /-- The type of a declaration. -/
  | decl (key : DeclKey)
  /-- The type of an expression, where a type may be expected of it. -/
  | expr (file : FileId) (node : NodeRef) (expected : Option Ty)
  /-- The value of a class. -/
  | classValue (name : String)
  /-- What an alias declared in a file stands for: its target, with the arguments filled in. -/
  | expansion (name : String) (file : FileId) (target : Ty)
deriving Inhabited

/-- What there is to infer. -/
inductive Goal where
  | task (task : Task)
  /-- A type with its references looked up. -/
  | resolve (ty : Ty)
deriving Inhabited

namespace Goal

abbrev decl (key : DeclKey) : Goal := .task (.decl key)

abbrev expr (file : FileId) (node : NodeRef) (expected : Option Ty) : Goal :=
  .task (.expr file node expected)

abbrev classValue (name : String) : Goal := .task (.classValue name)

end Goal

/-- A way to solve goals. -/
abbrev Solver := Goal → InferM Ty

/-- Whether what is computed now may be kept. -/
def mayCache (ctx : Context) : InferM Bool := do
  let state ← get
  pure (!ctx.cancelled && !state.guard.exceeded && !state.depth.exceeded)

/-- Changes the cache. -/
def modifyCache (f : Cache → Cache) : InferM Unit :=
  modify fun state => { state with cache := f state.cache }

/-- Records that the declaration being inferred reads declarations of a file. -/
def recordFile (file : FileId) : InferM Unit := do
  match (← get).files with
  | current :: _ => modifyCache fun cache => cache.recordFile current file
  | [] => pure ()

/-- Records that the declaration being inferred looks up a name. -/
def recordName (name : String) : InferM Unit := do
  match (← get).files with
  | current :: _ => modifyCache fun cache => cache.recordName current name
  | [] => pure ()

/-- Tries to enter a computation. -/
def enter (key : GuardKey) : InferM Admission := fun state =>
  let (answer, guard) := state.guard.enter key
  (answer, { state with guard })

/-- Leaves a computation, and says whether its result is provisional. -/
def leave (key : GuardKey) : InferM Bool := fun state =>
  let (provisional, guard) := state.guard.leave key
  (provisional, { state with guard })

/-- Runs a computation under the guard. Says whether its result is provisional, or nothing if the
guard does not admit it. -/
def within {α : Type} (key : GuardKey) (body : InferM α) : InferM (Option (α × Bool)) := do
  match ← enter key with
  | .entered =>
    let answer ← body
    let provisional ← leave key
    pure (some (answer, provisional))
  | _ => pure none

/-- Runs a computation one level of expressions deeper, if the limit allows it. -/
def nested {α : Type} (body : InferM α) : InferM (Option α) := do
  match (← get).depth.enter with
  | (true, depth) =>
    modify fun state => { state with depth }
    let answer ← body
    modify fun state => { state with depth := state.depth.leave }
    pure (some answer)
  | (false, depth) =>
    modify fun state => { state with depth }
    pure none

/-- Runs a computation on behalf of a declaration of a file. -/
def inFile {α : Type} (file : FileId) (body : InferM α) : InferM α := do
  modify fun state => { state with files := file :: state.files }
  let answer ← body
  modify fun state => { state with files := state.files.tail }
  pure answer

/-- The type kept for a declaration. -/
def cached (key : CacheKey) : InferM (Option Ty) := fun state =>
  let (found, cache) := state.cache.get key
  (found, { state with cache })

/-- Keeps the type of a declaration, and gives the one that is kept then. -/
def keep (key : CacheKey) (ty : Ty) : InferM Ty := fun state =>
  let (kept, cache) := state.cache.insert key ty
  (kept, { state with cache })

/-- A computation that asks questions of type `κ`, is answered with types and notes the names it
looks up. -/
inductive Plan (κ : Type) (α : Type) where
  | done (answer : α)
  | note (name : String) (next : Plan κ α)
  | ask (question : κ) (next : Ty → Plan κ α)

namespace Plan

variable {κ α β : Type}

/-- The first plan, and then the plan for its answer. -/
def bind : Plan κ α → (α → Plan κ β) → Plan κ β
  | .done answer, next => next answer
  | .note name plan, next => .note name (plan.bind next)
  | .ask question plan, next => .ask question fun ty => (plan ty).bind next

instance : Monad (Plan κ) where
  pure := .done
  bind := Plan.bind

/-- Asks one question. -/
def question (asked : κ) : Plan κ Ty := .ask asked .done

/-- Notes one name. -/
def noteName (name : String) : Plan κ Unit := .note name (.done ())

/-- Carries out a plan, given a way to answer its questions. -/
def run (answer : κ → InferM Ty) : Plan κ α → InferM α
  | .done result => pure result
  | .note name next => do
    recordName name
    run answer next
  | .ask question next => do
    let ty ← answer question
    run answer (next ty)

end Plan

/-- A plan that asks for goals. -/
abbrev Rule := Plan Goal

namespace Rule

/-- Asks for a goal. -/
def ask (goal : Goal) : Rule Ty := Plan.question goal

/-- Notes that a name is looked up. -/
def note (name : String) : Rule Unit := Plan.noteName name

/-- The one value that an expression contributes. -/
def value (file : FileId) (node : NodeRef) : Rule Ty := do
  pure (← ask (.expr file node none)).firstValue

/-- The types of declarations, in order. -/
def declTypes (keys : List DeclKey) : Rule (List Ty) := keys.mapM fun key => ask (.decl key)

end Rule

end Infer

end LuaTyping
