import LuaTyping.Proofs.Infer.Interchangeable
import LuaTyping.Proofs.Workspace.History

/-!
# Documented types are authoritative

Where the type of a declaration is documented, nothing that a query finds out depends on how the
declaration is initialised: not the type of a node, not what it refers to, not how two types
compare. This holds from every state of a query, so neither a type that is kept nor a circle that is
cut lets an initialiser in.
-/

set_option autoImplicit false

namespace LuaTyping.Infer

/-- Contexts made alike over two snapshots that differ in overridden initialisers only. -/
theorem interchangeable_make {before after : Snapshot} (same : before.UpToOverridden after)
    (options : Options) (bindings : Bindings) (cancelled : Bool) :
    (Context.make before options bindings cancelled).Interchangeable
      (Context.make after options bindings cancelled) :=
  ⟨same, rfl, rfl, rfl, rfl⟩

/-- Two snapshots differ in nothing but initialisers of declarations whose types are documented.
Then every query has the same answer over both, and leaves the same state behind. -/
theorem query_eq_of_upToOverridden (before after : Snapshot) (same : before.UpToOverridden after)
    (options : Options) (bindings : Bindings) (cancelled : Bool) (s : State) :
    let ctx := Context.make before options bindings cancelled
    let other := Context.make after options bindings cancelled
    (∀ file node, exec (nodeType other file node) s = exec (nodeType ctx file node) s) ∧
    (∀ file node, exec (references other file node) s = exec (references ctx file node) s) ∧
    ∀ a b, exec (isSubtype other a b) s = exec (isSubtype ctx a b) s := by
  intro ctx other
  have h : ctx.Interchangeable other := interchangeable_make same options bindings cancelled
  have solved : solve other = solve ctx := h.solveWithin_eq _
  refine ⟨fun file node => ?_, fun file node => ?_, fun a b => ?_⟩
  · rw [nodeType, nodeType, Rule.Interchangeable.nodeType_eq h, solved]
  · rw [references, references, Rule.Interchangeable.references_eq h, solved]
  · rw [isSubtype, isSubtype, Rule.Interchangeable.isSubtype_eq h, solved]

open Workspace Workspace.CircularPair in
open Workspace.GlobalPair (key) in
/-- Two globals that are documented as lists of each other, with and without their initialisers. -/
theorem query_eq_of_upToOverridden_circle :
    let before := Snapshot.ofFiles [indexed]
    let after := Snapshot.ofFiles [indexed.withoutOverridden]
    ((before.entry? (key false)).bind Entry.initializer = some ⟨some 1, 0, .literal⟩ ∧
      (after.entry? (key false)).bind Entry.initializer = none) ∧
    exec (nodeType (.make after .standard .empty false) ⟨1⟩ (some 0)) (.start .standard .empty)
      = exec (nodeType (.make before .standard .empty false) ⟨1⟩ (some 0))
          (.start .standard .empty) := by
  intro before after
  have same : before.UpToOverridden after :=
    Snapshot.upToOverridden_ofFiles (.cons indexed.upToOverridden_withoutOverridden .nil)
      (List.pairwise_singleton _ _)
  have found : before.entry? (key false) = some (entry false) :=
    GlobalPair.entry?_eq (.array (.name "a" [])) false
  have file : after.file? ⟨1⟩ = some indexed.withoutOverridden :=
    Snapshot.file?_ofFiles (List.pairwise_singleton _ _) ⟨1⟩
  have bare : after.entry? (key false) = some (entry false).withoutOverridden := by
    show ((after.file? ⟨1⟩).map IndexedFile.decls).bind _ = _
    rw [file]
    show ((Collect.run circleTree).table.entries.map Entry.withoutOverridden)[0]? = _
    rw [circleTree, GlobalsTree.entries_eq, Array.getElem?_map]
    rfl
  refine ⟨⟨?_, ?_⟩, (query_eq_of_upToOverridden before after same .standard .empty false
    (.start .standard .empty)).1 ⟨1⟩ (some 0)⟩
  · rw [found]
    rfl
  · rw [bare]
    rfl

end LuaTyping.Infer
