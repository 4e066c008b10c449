import LuaTyping.Infer.Solve

/-!
# References

The declarations that a node refers to: those of a name, or those of a member behind a dot or a
colon.
-/

set_option autoImplicit false

namespace LuaTyping.Infer

namespace Rule

variable (ctx : Context)

/-- What the members reached through a variable belong to. -/
def ownerBehind? (key : DeclKey) (entry : Entry) : Option Owner :=
  match entry.kind with
  | .localVar => some (.ofTable key.decl)
  | .global => some (.ofGlobal entry.name)
  | .parameter => entry.owner
  | _ => none

/-- The declarations of a member that belongs to the table of a variable. -/
def tableReferences (file : FileId) (base : NodeRef) (member : String) : List DeclKey :=
  match ctx.snapshot.form? file base with
  | some (.name name) =>
    (ctx.snapshot.resolveName file name (ctx.snapshot.startOf file base)).flatMap fun key =>
      match (ctx.snapshot.entry? key).bind (ownerBehind? key) with
      | some owner => ctx.snapshot.resolveMember key.file owner member
      | none => []
  | _ => []

/-- A sorted list with each run of equal declarations cut to one. -/
def dedupKeys : List DeclKey → List DeclKey
  | [] => []
  | [key] => [key]
  | a :: b :: rest => if a = b then dedupKeys (b :: rest) else a :: dedupKeys (b :: rest)

/-- The declarations behind `base.member`: those of the classes that the base may be a value of, or
else those of the table it is bound to. -/
def memberReferences (file : FileId) (base : NodeRef) (member : String) :
    Rule (List DeclKey) := do
  let ty ← value file base
  let ty ← ask (.resolve ty)
  let ofClasses := ty.alternatives.flatMap fun alt =>
    match alt.className? with
    | some name => ctx.snapshot.resolveClassMember name member
    | none => []
  let found := if ofClasses.isEmpty then tableReferences ctx file base member else ofClasses
  pure (dedupKeys (found.mergeSort DeclKey.le))

/-- The declarations that a node refers to. A node that declares refers to its declaration. -/
def references (file : FileId) (node : NodeRef) : Rule (List DeclKey) := do
  match ctx.snapshot.file? file with
  | none => pure []
  | some indexed =>
    match indexed.decls.declForNode? node with
    | some decl => pure [⟨file, decl⟩]
    | none =>
      match indexed.tree.form? node with
      | some (.name name) =>
        pure (ctx.snapshot.resolveName file name (indexed.tree.span node).start)
      | some (.index base (.named member)) => memberReferences ctx file base member
      | some (.call callee (some member) _) => memberReferences ctx file callee member
      | _ => pure []

end Rule

/-- The declarations that a node refers to. -/
def references (ctx : Context) (file : FileId) (node : NodeRef) : InferM (List DeclKey) :=
  (Rule.references ctx file node).run (solve ctx)

end LuaTyping.Infer
