import LuaTyping.Proofs.Decl.Ancestors
import LuaTyping.Proofs.Decl.Scopes
import LuaTyping.Proofs.Decl.Snapshot
import LuaTyping.Proofs.Infer.Frames
import Mathlib.Data.List.Basic

/-!
# Inheritance

Whether a class is below another one, and in which classes its members are looked up, both follow
its supertype links. The two answers come from different searches. A comparison takes the classes
found last first and counts each class that it takes, repeats included; the chain for members lists
the classes found first first and counts each once. Both find nothing but ancestors. They agree if a
class has few enough ancestors with few enough links between them, which is
`isSubtype_iff_mem_classChain`; in a hierarchy with many links, a comparison can run out of its
count before it comes to a direct supertype (`not_isSubtype_knot`).
-/

set_option autoImplicit false

namespace LuaTyping.Infer

open Snapshot Subtyping

/-! ## Comparing classes -/

theorem decideFresh_named {rules : Rules (Plan Goal)} {name target : String} (other : name ≠ target)
    (supers supers' : List String) (members members' : List (Member Ty)) :
    decideFresh rules (.named name supers members) (.named target supers' members')
      = .done (inherits rules.resolver name supers target) := by
  have distinct : (name == target) = false := by simpa using other
  have shapes (deeper : Ty → Ty → CompareM (Plan Goal) Bool) :
      compareShapes rules deeper (.named name supers members) (.named target supers' members')
        = pure (inherits rules.resolver name supers target) := by
    rw [compareShapes, distinct, Bool.false_or]
  have below_eq (deeper : Ty → Ty → CompareM (Plan Goal) Bool) :
      below rules deeper (.named name supers members) (.named target supers' members')
        = guarded
            (Ty.outline (.named name supers members), Ty.outline (.named target supers' members'))
            (pure (inherits rules.resolver name supers target)) := by
    show (if (name == target) = true then pure true else guarded _ _) = _
    rw [distinct, shapes]
    rfl
  show Plan.bind (below rules _ _ _ freshGuard) _ = _
  rw [below_eq]
  rfl

/-- A class stays itself when the references in its members are looked up. -/
theorem exec_resolve_named (ctx : Context) (levels : Nat) (name : String) (supers : List String)
    (members : List (Member Ty)) (s : State) :
    ∃ members', (exec (solveWithin ctx (levels + 1) (.resolve (.named name supers members))) s).1
      = .named name supers members' := by
  show ∃ members', (exec ((Ty.expandM (expandRef ctx) (.named name supers members)).run _) s).1 = _
  rw [Ty.expandM]
  split
  · rw [Ty.expandRefsM, exec_run_bind]
    exact ⟨_, rfl⟩
  · exact ⟨members, rfl⟩

/-- Comparing two classes of different names is a search for one among the ancestors of the
other. -/
theorem exec_isSubtype_named (ctx : Context) (s : State) {name target : String}
    (other : name ≠ target) (supers supers' : List String) (members members' : List (Member Ty)) :
    (exec (isSubtype ctx (.named name supers members) (.named target supers' members')) s).1
      = inherits (Rule.resolver ctx) name supers target := by
  have rule : Rule.isSubtype ctx (.named name supers members) (.named target supers' members')
      = Plan.ask (.resolve (.named name supers members)) fun a =>
          Plan.ask (.resolve (.named target supers' members')) fun b =>
            decideFresh ⟨Rule.resolver ctx, ctx.options.nilStrict⟩ a b := rfl
  rw [isSubtype, rule, exec_run_ask, exec_run_ask]
  obtain ⟨left, left_eq⟩ := exec_resolve_named ctx (2 * ctx.options.maxDepth) name supers members s
  obtain ⟨right, right_eq⟩ := exec_resolve_named ctx (2 * ctx.options.maxDepth) target supers'
    members' (exec (solve ctx (.resolve (.named name supers members))) s).2
  rw [solve] at right_eq ⊢
  rw [left_eq, right_eq, decideFresh_named other]
  rfl

/-! ## Both searches -/

section Ancestors

variable {ctx : Context} {name target : String} {supers : List String}

theorem ancestor_of_inherits (direct : supers ⊆ ctx.snapshot.supertypes name)
    (h : inherits (Rule.resolver ctx) name supers target = true) :
    Ancestor ctx.snapshot.supertypes name target := by
  obtain ⟨first, mem, above⟩ := ancestor_of_meets _ h
  have link : first ∈ ctx.snapshot.supertypes name := by
    rcases List.mem_append.mp (List.mem_reverse.mp mem) with given | link
    · exact direct given
    · exact link
  exact .head link above

variable {classes : List String}
  (known : ∀ ancestor, Ancestor ctx.snapshot.supertypes name ancestor → ancestor ∈ classes)
include known

/-- A comparison meets every ancestor if there are no more links than it may follow. -/
theorem inherits_of_ancestor (direct : supers ⊆ ctx.snapshot.supertypes name)
    (other : name ≠ target) (links : supers.length
      + (classes.map fun name => (ctx.snapshot.supertypes name).length).sum
        ≤ Limits.supertypeChain + 1)
    (above : Ancestor ctx.snapshot.supertypes name target) :
    inherits (Rule.resolver ctx) name supers target = true := by
  have pending (first : String) : first ∈ (supers ++ ctx.snapshot.supertypes name).reverse
      ↔ first ∈ ctx.snapshot.supertypes name := by
    rw [List.mem_reverse, List.mem_append, or_iff_right_of_imp fun given => direct given]
  -- the class itself counts as expanded, and its links are pending
  have frontier : Frontier ctx.snapshot.supertypes [name]
      (supers ++ ctx.snapshot.supertypes name).reverse := by
    intro visited mem next link
    rw [List.mem_singleton.mp mem] at link
    exact .inr ((pending next).mpr link)
  have outside : (ctx.snapshot.supertypes name).length
        + linksOutside ctx.snapshot.supertypes classes [name]
      ≤ linksOutside ctx.snapshot.supertypes classes [] :=
    weightOutside_cons (fun name => (ctx.snapshot.supertypes name).length) (known name .refl)
      List.not_mem_nil
  have all : linksOutside ctx.snapshot.supertypes classes []
      = (classes.map fun name => (ctx.snapshot.supertypes name).length).sum := by
    simp [weightOutside]
  have room : (supers ++ ctx.snapshot.supertypes name).reverse.length
      + linksOutside ctx.snapshot.supertypes classes [name] ≤ Limits.supertypeChain + 1 := by
    rw [List.length_reverse, List.length_append]
    omega
  refine meets_of_ancestor .depthFirst frontier (by simpa using Ne.symm other) ?_ room ?_
  · intro first mem ancestor further
    exact known ancestor (.head ((pending first).mp mem) further)
  · obtain ⟨next, link, further⟩ := above.exists_supertype other
    exact ⟨next, (pending next).mpr link, further⟩

end Ancestors

/-- A class is accepted below another one, and its chain for members lists the other one, only if
the other one is its ancestor. The two answers agree if all ancestors are among `classes`, there are
no more of those than a chain lists, and they have no more links than a comparison follows. -/
theorem isSubtype_iff_mem_classChain (ctx : Context) (s : State) (name target : String)
    (other : name ≠ target) (supers supers' : List String) (members members' : List (Member Ty))
    (direct : supers ⊆ ctx.snapshot.supertypes name) :
    let supertypes := ctx.snapshot.supertypes
    let accepted :=
      (exec (isSubtype ctx (.named name supers members) (.named target supers' members')) s).1
    (accepted = true → Ancestor supertypes name target) ∧
    (target ∈ ctx.snapshot.classChain name → Ancestor supertypes name target) ∧
    ∀ classes : List String,
      (∀ ancestor, Ancestor supertypes name ancestor → ancestor ∈ classes) →
      classes.length ≤ Limits.supertypeChain →
      supers.length + (classes.map fun name => (supertypes name).length).sum
        ≤ Limits.supertypeChain + 1 →
      (accepted = true ↔ target ∈ ctx.snapshot.classChain name) := by
  intro supertypes accepted
  have compared : accepted = inherits (Rule.resolver ctx) name supers target :=
    exec_isSubtype_named ctx s other supers supers' members members'
  rw [compared]
  refine ⟨ancestor_of_inherits direct, ancestor_of_mem_classChain, ?_⟩
  intro classes known few links
  constructor
  · intro found
    exact mem_classChain_of_ancestor known few (ancestor_of_inherits direct found)
  · intro listed
    exact inherits_of_ancestor known direct other links (ancestor_of_mem_classChain listed)

/-! ## Documented hierarchies -/

/-- A file that documents classes with their direct supertypes. -/
def hierarchyTree (classes : List (String × List String)) : Tree where
  nodes := #[⟨.docOnly, ⟨0, 1⟩, some 1⟩, ⟨.block [some 0], ⟨0, 3⟩, some 2⟩,
    ⟨.chunk (some 1), ⟨0, 5⟩, none⟩]
  docs := .ofList [(0, ⟨classes.map fun cls => .classTag cls.1 cls.2⟩)]
  root := some 2

namespace Hierarchy

variable (classes : List (String × List String))

def indexed : IndexedFile := ⟨⟨1⟩, 1, hierarchyTree classes, .ofTree ⟨1⟩ (hierarchyTree classes)⟩

def context : Context := .make (.ofFiles [indexed classes]) .standard .empty false

/-- The supertypes that a comment gives to a class, each once. -/
def direct (name : String) : List String :=
  (classes.filter fun cls => cls.1 == name).foldl
    (fun supers cls => Snapshot.addNew supers (cls.2.filter fun parent => !parent.isEmpty)) []

/-- What the walk records of a class in a comment, which is given with its number. -/
def entry (tree : Tree) (stmt : NodeRef) (doc : DocComment) (scope : Option Nat)
    (cls : (String × List String) × Nat) : Entry :=
  { Entry.plain cls.2 .classDecl cls.1.1 scope stmt (tree.span stmt) with
    supers := cls.1.2.filter fun parent => !parent.isEmpty
    deprecated := doc.isDeprecated
    hoisted := true }

/-- What the walk records of the whole comment. -/
def recorded : List Entry :=
  classes.zipIdx.map (entry (hierarchyTree classes) (some 0)
    ⟨classes.map fun cls => .classTag cls.1 cls.2⟩ (some 0))

variable {classes} (named : ∀ cls ∈ classes, cls.1.isEmpty = false)
include named

theorem entries_declareTags (tree : Tree) (stmt : NodeRef) (doc : DocComment)
    (className : Option String) (c : Collector) :
    (Collect.declareTags.go tree stmt doc className
        (classes.map fun cls => .classTag cls.1 cls.2) c).2.table.entries
      = c.table.entries
          ++ ((classes.zipIdx c.table.entries.size).map (entry tree stmt doc c.scope)).toArray := by
  induction classes generalizing className c with
  | nil => exact (Array.append_empty).symm
  | cons cls rest ih =>
    have name : cls.1.isEmpty = false := named cls List.mem_cons_self
    rw [List.map_cons, Collect.declareTags.go]
    simp only [name, Bool.false_eq_true, if_false]
    let found := entry tree stmt doc c.scope (cls, c.table.entries.size)
    refine (ih (fun cls mem => named cls (List.mem_cons_of_mem _ mem)) (some cls.1)
      (Collect.declare found c).2).trans ?_
    simp [Collect.declare, ScopeTable.declare, found]

theorem entries_eq :
    (Collect.run (hierarchyTree classes)).table.entries = (recorded classes).toArray := by
  have doc : (hierarchyTree classes).doc? (some 0)
      = some ⟨classes.map fun cls => .classTag cls.1 cls.2⟩ :=
    Std.HashMap.getElem?_ofList_of_mem (k := 0) rfl (by simp) (by simp)
  rw [Collect.run_docOnly rfl rfl rfl doc]
  refine (congrArg ScopeTable.entries (Collect.table_closeScope _)).trans
    ((entries_declareTags named _ _ _ none _).trans ?_)
  exact Array.empty_append

theorem classDecls_eq (name : String) : (context classes).snapshot.classDecls name
    = ((recorded classes).zipIdx.filter
        fun pair => Entry.nameIf .classDecl pair.1 == some name).map
          fun pair => ⟨⟨1⟩, pair.2⟩ := by
  have entries : (indexed classes).decls.table.entries = (recorded classes).toArray :=
    entries_eq named
  show (Snapshot.ofFiles [indexed classes]).classDecls name = _
  rw [Snapshot.classDecls_ofFiles, List.flatMap_singleton, IndexedFile.listed_eq, entries]
  rfl

theorem snapshot_entry {pair : Entry × Nat} (mem : pair ∈ (recorded classes).zipIdx) :
    (context classes).snapshot.entry? ⟨⟨1⟩, pair.2⟩ = some pair.1 := by
  have entries : (indexed classes).decls.table.entries = (recorded classes).toArray :=
    entries_eq named
  refine (Snapshot.entry?_of_file? (Snapshot.file?_singleton (indexed classes)) pair.2).trans ?_
  show (indexed classes).decls.table.entries[pair.2]? = _
  rw [entries, List.getElem?_toArray]
  exact List.mk_mem_zipIdx_iff_getElem?.mp mem

/-- The supertypes of a class are those that the comment gives to it. -/
theorem supertypes_eq : (context classes).snapshot.supertypes = direct classes := by
  funext name
  let declares (entry : Entry) : Bool := Entry.nameIf .classDecl entry == some name
  have numbered : (recorded classes).filter declares
      = ((recorded classes).zipIdx.filter fun pair => declares pair.1).map Prod.fst := by
    have all : (recorded classes).zipIdx.map Prod.fst = recorded classes :=
      List.zipIdx_map_fst 0 (recorded classes)
    conv_lhs => rw [← all, List.filter_map]
    rfl
  rw [Snapshot.supertypes, classDecls_eq named, List.foldl_map]
  calc ((recorded classes).zipIdx.filter fun pair => declares pair.1).foldl _ []
    _ = ((recorded classes).zipIdx.filter fun pair => declares pair.1).foldl
          (fun supers pair => Snapshot.addNew supers pair.1.supers) [] := by
      refine List.foldl_ext _ _ _ fun supers pair mem => ?_
      rw [snapshot_entry named (List.mem_filter.mp mem).1]
    _ = ((recorded classes).filter declares).foldl
          (fun supers entry => Snapshot.addNew supers entry.supers) [] := by
      rw [numbered, List.foldl_map]
    _ = _ := by
      have unnumbered : classes = classes.zipIdx.map Prod.fst :=
        (List.zipIdx_map_fst 0 classes).symm
      conv_rhs => rw [direct, unnumbered, List.filter_map, List.foldl_map]
      rw [recorded, List.filter_map, List.foldl_map]
      rfl

end Hierarchy

/-! ## A knot -/

/-- Eight classes that all extend each other. -/
def knotted : List String := ["A1", "A2", "A3", "A4", "A5", "A6", "A7", "A8"]

/-- A class that extends a simple class and the eight knotted ones. -/
def knot : List (String × List String) :=
  ("C", "S" :: knotted) :: ("S", []) :: knotted.map fun name => (name, knotted)

theorem supertypes_knot :
    (Hierarchy.context knot).snapshot.supertypes = Hierarchy.direct knot :=
  Hierarchy.supertypes_eq (by decide)

/-- Among the knotted classes, whose links a comparison can just follow to the end, the answers
agree. -/
theorem isSubtype_iff_mem_classChain_knot :
    let ctx := Hierarchy.context knot
    let accepted target :=
      (exec (isSubtype ctx (.classRef "A1") (.classRef target)) (.start .standard .empty)).1
    (accepted "A8" = true ∧ "A8" ∈ ctx.snapshot.classChain "A1") ∧
      accepted "S" = false ∧ "S" ∉ ctx.snapshot.classChain "A1" := by
  intro ctx accepted
  have closed : ∀ name ∈ knotted, ctx.snapshot.supertypes name ⊆ knotted := by
    rw [supertypes_knot]
    decide +kernel
  have links : ([] : List String).length
      + (knotted.map fun name => (ctx.snapshot.supertypes name).length).sum
        ≤ Limits.supertypeChain + 1 := by
    rw [supertypes_knot]
    decide +kernel
  have agree (target : String) (other : "A1" ≠ target) :
      accepted target = true ↔ target ∈ ctx.snapshot.classChain "A1" :=
    (isSubtype_iff_mem_classChain ctx (.start .standard .empty) "A1" target other [] [] [] []
      (List.nil_subset _)).2.2 knotted (fun _ above => above.mem_of_closed closed (by decide))
      (by decide) links
  have listed : "A8" ∈ ctx.snapshot.classChain "A1" := by
    rw [Snapshot.classChain, supertypes_knot]
    decide +kernel
  have unlisted : "S" ∉ ctx.snapshot.classChain "A1" := by
    rw [Snapshot.classChain, supertypes_knot]
    decide +kernel
  refine ⟨⟨(agree "A8" (by decide)).mpr listed, listed⟩, ?_, unlisted⟩
  rw [← Bool.not_eq_true, agree "S" (by decide)]
  exact unlisted

/-- The class that extends a simple one and the knotted ones has the simple one in its chain. But a
comparison looks at the knotted ones first, and does not come to the simple one. -/
theorem not_isSubtype_knot :
    let ctx := Hierarchy.context knot
    "S" ∈ ctx.snapshot.supertypes "C" ∧ "S" ∈ ctx.snapshot.classChain "C" ∧
    (exec (isSubtype ctx (.classRef "C") (.classRef "S")) (.start .standard .empty)).1 = false := by
  intro ctx
  refine ⟨?_, ?_, ?_⟩
  · rw [supertypes_knot]
    decide +kernel
  · rw [Snapshot.classChain, supertypes_knot]
    decide +kernel
  · rw [Ty.classRef, Ty.classRef, exec_isSubtype_named _ _ (by decide)]
    show meets ctx.snapshot.supertypes _ _ _ _ ([] ++ ctx.snapshot.supertypes _).reverse = _
    rw [supertypes_knot]
    decide +kernel

end LuaTyping.Infer
