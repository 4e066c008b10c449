import LuaTyping.Decl.Resolve
import LuaTyping.Proofs.Decl.Scopes
import LuaTyping.Proofs.Decl.Tables
import LuaTyping.Proofs.Tree.SourceOrder
import LuaTyping.Proofs.Workspace.Invalidation

/-!
# Names and the scopes around them

A name is resolved by its position: the innermost scope whose span holds the position is the first
in which it is looked up. Declarations are put into scopes by a walk along the tree. In a tree built
in source order the two agree: a local variable or parameter that a name resolves to is declared in
the scope of a node around the name.

They disagree in one place. The span of a block of an `if` statement runs on over the conditions and
blocks after it, so that a name there may resolve to a local variable of the earlier block. The last
part has the smallest such program.
-/

set_option autoImplicit false

namespace LuaTyping

/-! ## Where the declarations of a name come from -/

namespace Entry

theorem isMember_of_memberOwner? {entry : Entry} {owner : Owner}
    (h : entry.memberOwner? = some owner) : entry.kind.isMember := by
  rw [memberOwner?] at h
  split at h
  · assumption
  · cases h

theorem isMember_of_ownerClass? {entry : Entry} {name : String}
    (h : entry.ownerClass? = some name) : entry.kind.isMember := by
  rw [ownerClass?] at h
  split at h
  · rename_i owned
    exact isMember_of_memberOwner? owned
  · cases h

theorem isMember_of_ownerGlobal? {entry : Entry} {name : String}
    (h : entry.ownerGlobal? = some name) : entry.kind.isMember := by
  rw [ownerGlobal?] at h
  split at h
  · rename_i owned
    exact isMember_of_memberOwner? owned
  · cases h

end Entry

theorem Workspace.Reachable.collected {workspace : Workspace} (reachable : workspace.Reachable) :
    ∀ indexed ∈ workspace.index.files, indexed.Collected := by
  induction reachable with
  | start options => exact fun indexed mem => by cases mem
  | @edit workspace _ edit ih =>
    cases edit with
    | set file tree =>
      intro indexed mem
      rcases Index.mem_place mem with rfl | mem
      · rfl
      · exact ih indexed mem
    | remove file =>
      intro indexed mem
      refine ih indexed ?_
      rw [afterEdit, removeFile, Index.removeFile] at mem
      split at mem
      · rename_i removed
        split at removed
        · cases removed
          exact (List.mem_filter.mp mem).1
        · cases removed
      · exact mem
  | @query workspace _ query ih =>
    rw [← workspace.index.files_snapshot] at ih
    cases query <;> exact ih
  | @snapshot workspace _ ih =>
    rw [← workspace.index.files_snapshot] at ih
    exact ih
  | clearCache _ ih => exact ih

namespace Snapshot

variable {files : List IndexedFile} (distinct : files.Pairwise fun a b => a.file ≠ b.file)
  {key : DeclKey} {entry : Entry} (found : Snapshot.entry? (ofFiles files) key = some entry)
include distinct found

theorem isMember_of_mem_globalMembers {name : String}
    (mem : key ∈ (ofFiles files).globalMembers name) : entry.kind.isMember := by
  rw [globalMembers_ofFiles] at mem
  exact Entry.isMember_of_ownerGlobal? (entry?_of_listed distinct mem found)

theorem isMember_of_mem_classMembers {name : String}
    (mem : key ∈ (ofFiles files).classMembers name) : entry.kind.isMember := by
  have attached (mem : key ∈ (ofFiles files).attachedToClass.list name) :
      entry.kind.isMember := by
    rw [attachedToClass_ofFiles] at mem
    exact Entry.isMember_of_ownerClass? (entry?_of_listed distinct mem found)
  rw [classMembers] at mem
  split at mem
  · rcases List.mem_append.mp (List.mem_mergeSort.mp mem) with mem | mem
    · exact attached mem
    · exact isMember_of_mem_globalMembers distinct found mem
  · exact attached mem

variable (collected : ∀ indexed ∈ files, indexed.Collected)
include collected

theorem isMember_of_mem_tableMembers {table : DeclKey}
    (mem : key ∈ (ofFiles files).tableMembers table) : entry.kind.isMember := by
  rw [tableMembers, file?_ofFiles distinct] at mem
  split at mem
  · rename_i indexed is_file
    have file_mem := List.mem_of_find?_eq_some is_file
    obtain ⟨decl, decl_mem, rfl⟩ := List.mem_map.mp mem
    rw [FileDecls.memberDecls, collected indexed file_mem] at decl_mem
    have members := (Collect.tabulated_run indexed.tree).members (.ofTable table.decl)
    obtain ⟨entry', at_decl, owned⟩ := (members.mem_iff decl).mp decl_mem
    have same : Snapshot.entry? (ofFiles files) ⟨indexed.file, decl⟩ = some entry' := by
      rw [Snapshot.entry?, decls?, file?_ofFiles distinct, find?_of_mem distinct file_mem,
        Option.map_some, Option.bind_some, collected indexed file_mem]
      exact at_decl
    cases same.symm.trans found
    exact Entry.isMember_of_memberOwner? owned
  · cases mem

theorem isMember_of_mem_resolveMember {file : FileId} {owner : Owner} {member : String}
    (mem : key ∈ (ofFiles files).resolveMember file owner member) : entry.kind.isMember := by
  have of_named {keys : List DeclKey} (mem : key ∈ (ofFiles files).named keys member) :
      key ∈ keys := (List.mem_filter.mp (List.mem_of_mem_take mem)).1
  cases owner with
  | ofClass name =>
    rw [resolveMember, resolveClassMember] at mem
    generalize chosen : List.findSome? _ _ = members at mem
    cases members with
    | none => cases mem
    | some members =>
      obtain ⟨name, -, nonempty⟩ := List.exists_of_findSome?_eq_some chosen
      split at nonempty
      · cases nonempty
      · cases nonempty
        exact isMember_of_mem_classMembers distinct found (of_named mem)
  | ofGlobal name => exact isMember_of_mem_globalMembers distinct found (of_named mem)
  | ofTable decl => exact isMember_of_mem_tableMembers distinct found collected (of_named mem)

/-- A local variable or parameter is found in the scopes around the reference. -/
theorem lookup_of_mem_resolveName {file : FileId} {name : String} {pos : Nat}
    (mem : key ∈ (ofFiles files).resolveName file name pos)
    (lexical : entry.kind = .localVar ∨ entry.kind = .parameter) :
    ∃ decls, (ofFiles files).decls? file = some decls ∧
      decls.table.lookup name pos (decls.table.scopeAt pos) = some key.decl := by
  have not_member : ¬ entry.kind.isMember := by
    rcases lexical with kind | kind <;> simp [kind, DeclKind.isMember]
  rw [resolveName] at mem
  split at mem
  · cases mem
  · rename_i decls is_file
    dsimp only at mem
    refine ⟨decls, is_file, ?_⟩
    split at mem
    · rename_i decl bound
      cases List.mem_singleton.mp mem
      exact bound
    · have not_global : key ∉ ((ofFiles files).globalDecls name).take Limits.candidates := by
        intro mem
        have kind := kind_of_mem_globalDecls distinct (List.mem_of_mem_take mem) found
        rcases lexical with lexical | lexical <;> cases kind.symm.trans lexical
      split at mem
      · split at mem
        · exact absurd mem not_global
        · exact absurd (isMember_of_mem_resolveMember distinct found collected mem) not_member
      · exact absurd mem not_global

end Snapshot

/-! ## Names inside scopes -/

/-- The node `m` is a block of an `if` statement, and `n` lies in a part that comes after it. -/
def Tree.InEarlierArm (tree : Tree) (m n : Nat) : Prop :=
  ∃ whole arms elseBlock stmts, tree.form? (some m) = some (.block stmts) ∧
    tree.form? (some whole) = some (.ifElse arms elseBlock) ∧ tree.PartOf m whole ∧
    tree.FollowsIn whole m n

namespace Tree.Nested

variable {tree : Tree} (nested : tree.Nested)
include nested

/-- Only one node has the span of a node. -/
theorem span_eq_iff {m k : Nat} (less : m < tree.size) :
    tree.span (some k) = tree.span (some m) ↔ k = m := by
  refine ⟨fun same => ?_, fun same => same ▸ rfl⟩
  have stops := congrArg Span.stop same
  rw [nested.stop m less] at stops
  by_cases there : k < tree.size
  · rw [nested.stop k there] at stops
    omega
  · have : tree.nodes[k]? = none := Array.getElem?_eq_none (Nat.not_lt.mp there)
    simp [Tree.span, Tree.node?, this] at stops

/-- The root, or a node whose span holds the start of a name and that may have variables in its
scope, lies around the name; or it is a block of an `if` statement, and the name is in a later part
of the statement. -/
theorem around_name {m n : Nat} (named : tree.IsName n) (hosts : tree.Hosts m)
    (holds : tree.span (some m) = tree.span tree.root ∨
      (tree.span (some m)).contains (tree.span (some n)).start) :
    tree.Inside n m ∨ tree.InEarlierArm m n := by
  have inside (under : tree.Under n m) : tree.Inside n m := by
    rcases Relation.reflTransGen_iff_eq_or_transGen.mp under with rfl | inside
    · exact absurd named hosts.2
    · exact inside
  rcases holds with at_root | holds
  · obtain ⟨root, is_root, less, under⟩ := nested.rooted
    rw [is_root, nested.span_eq_iff less] at at_root
    exact .inl (inside (at_root ▸ under n named))
  · refine (nested.held m n named hosts.1.1 holds).imp inside ?_
    rintro ⟨whole, form, stmts, block, part, found, late, follows⟩
    cases form with
    | ifElse arms elseBlock => exact ⟨whole, arms, elseBlock, stmts, block, found, part, follows⟩
    | repeatLoop body cond => exact absurd ⟨whole, stmts, body, cond, block, part, found⟩ hosts.1.2
    | _ => cases late

end Tree.Nested

namespace Workspace

/-- A local variable or parameter that a name resolves to stands in the scope of a node around the
name, or in that of an earlier block of an `if` statement around the name. -/
theorem resolveName_scope {workspace : Workspace} (reachable : workspace.Reachable) {file : FileId}
    {indexed : IndexedFile} (found : workspace.index.file? file = some indexed)
    (composed : indexed.tree.Composed) {n : Nat} (named : indexed.tree.IsName n) {name : String}
    {key : DeclKey} {entry : Entry}
    (resolved : key ∈ workspace.snapshot.1.resolveName file name
      (indexed.tree.span (some n)).start)
    (here : key.file = file) (declared : Snapshot.entry? workspace.snapshot.1 key = some entry)
    (is_variable : entry.kind = .localVar ∨ entry.kind = .parameter) :
    ∃ s scope m, entry.scope = some s ∧ indexed.decls.table.scopes[s]? = some scope ∧
      (∀ k, indexed.tree.span (some k) = scope.span ↔ k = m) ∧
      (indexed.tree.Inside n m ∨ indexed.tree.InEarlierArm m n) := by
  have distinct := reachable.valid.distinct
  have nested := composed.nested
  have in_file : (Snapshot.ofFiles workspace.index.files).file? file = some indexed := by
    rw [Snapshot.file?_ofFiles distinct]
    exact found
  have collected : indexed.decls.table = (Collect.run indexed.tree).table := by
    rw [reachable.collected indexed (List.mem_of_find?_eq_some found)]
    rfl
  rw [show workspace.snapshot.1 = _ from reachable.valid.snapshot_eq] at resolved declared
  obtain ⟨decls, is_decls, bound⟩ :=
    Snapshot.lookup_of_mem_resolveName distinct declared reachable.collected resolved is_variable
  have is_entry : indexed.decls.table.entry? key.decl = some entry := by
    simpa [Snapshot.entry?, Snapshot.decls?, here, in_file, FileDecls.entry?] using declared
  obtain rfl : indexed.decls = decls := by simpa [Snapshot.decls?, in_file] using is_decls
  rw [collected] at bound is_entry ⊢
  rcases Collect.fits_run nested.linked with empty | fits
  · rw [empty] at is_entry
    cases is_entry
  · obtain ⟨s, scope, m, home, at_s, hosts, span, holds⟩ :=
      fits.lookup_scopeAt bound is_entry is_variable
    refine ⟨s, scope, m, home, at_s, fun k => ?_, nested.around_name named hosts holds⟩
    rw [span, nested.span_eq_iff hosts.1.1]

/-! ## Branches -/

namespace Branches

/-- The calls for `if a then local x = 1 return x else return x end`. -/
def calls : List Construct :=
  [.plain (.name "a"), .plain .number, .locals ["x"] [some 1], .plain (.name "x"),
    .plain (.ret [some 4]), .plain (.name "x"), .plain (.ret [some 6]),
    .ifStat [(some 0, [some 3, some 5])] (some [some 7])]

def builder : Builder := calls.foldl (fun builder call => (call.make builder).2) .empty

/-- The first `return` is the node 5 and in the block 8, the second is 7 and in the block 9. -/
def tree : Tree := (BuildM.finish [some 10] builder).2.tree

theorem composed_tree : tree.Composed := by
  have cond := @InSourceOrder.make _ [] (.plain (.name "a")) .empty
  have number := @InSourceOrder.make _ [0] (.plain .number) cond
  have declared := @InSourceOrder.make _ [0] (.locals ["x"] [some 1]) number
  have first := @InSourceOrder.make _ [0, 3] (.plain (.name "x")) declared
  have returned := @InSourceOrder.make _ [0, 3] (.plain (.ret [some 4])) first
  have second := @InSourceOrder.make _ [0, 3, 5] (.plain (.name "x")) returned
  have returned' := @InSourceOrder.make _ [0, 3, 5] (.plain (.ret [some 6])) second
  refine ⟨builder, [some 10], ?_, rfl⟩
  exact @InSourceOrder.make _ [] (.ifStat [(some 0, [some 3, some 5])] (some [some 7])) returned'

/-- What the walk records of the variable. -/
def entry : Entry :=
  { Entry.plain 0 .localVar "x" (some 1) (some 2) ⟨4, 5⟩ with
    initializer := some ⟨some 1, 0, .literal⟩
    visibleFrom := 7 }

/-- The span of the first block runs on to the offset 17, over the second `return` at 12. -/
theorem collect_tree : (Collect.run tree).table
    = ⟨#[entry],
        #[⟨.file, none, ⟨0, 25⟩, #[], #[1, 2], none⟩,
          ⟨.block, some 0, ⟨2, 17⟩, #[0], #[], none⟩,
          ⟨.block, some 0, ⟨12, 19⟩, #[], #[], none⟩]⟩ := by
  have root : tree.form? tree.root = some (.chunk (some 11)) := rfl
  have depth : Collect.depthBound tree = 45 := rfl
  -- comments are kept in a map that does not evaluate, but here there are none
  have doc (node : Nat) : tree.doc? (some node) = none := Std.HashMap.getElem?_empty
  have whole := @Collect.visitWithin_stmts tree 11 [some 10] rfl
  have branches :=
    @Collect.visitWithin_stmt tree 10 (.ifElse [⟨some 0, some 8⟩] (some 9)) rfl (doc _)
  have first := @Collect.visitWithin_stmts tree 8 [some 3, some 5] rfl
  have second := @Collect.visitWithin_stmts tree 9 [some 7] rfl
  have declared := @Collect.visitWithin_stmt tree 3 (.localVars [some 2] [some 1]) rfl (doc _)
  have returned := @Collect.visitWithin_stmt tree 5 (.ret [some 4]) rfl (doc _)
  have returned' := @Collect.visitWithin_stmt tree 7 (.ret [some 6]) rfl (doc _)
  simp only [Collect.run, root, depth, whole, branches, Collect.visitForm, Collect.visitBlock,
    first, second, declared, returned, returned', List.forM_eq_forM, List.forM_cons, List.forM_nil]
  rfl

def indexed : IndexedFile := ⟨⟨1⟩, 1, tree, .ofTree ⟨1⟩ tree⟩

/-- A workspace with the program as its only file. -/
def workspace : Workspace := (ofOptions .standard).afterEdit (.set ⟨1⟩ tree)

theorem reachable_workspace : workspace.Reachable := (Reachable.start .standard).edit _

def key : DeclKey := ⟨⟨1⟩, 0⟩

theorem decls?_snapshot : workspace.snapshot.1.decls? ⟨1⟩ = some indexed.decls :=
  decls?_context reachable_workspace rfl

theorem entry?_key : Snapshot.entry? workspace.snapshot.1 key = some entry := by
  have table : indexed.decls.table = _ := collect_tree
  rw [Snapshot.entry?, key, decls?_snapshot, Option.bind_some, FileDecls.entry?, table]
  rfl

/-- Both names are taken for the variable. -/
theorem mem_resolveName {n : Nat} (used : n = 4 ∨ n = 6) :
    key ∈ workspace.snapshot.1.resolveName ⟨1⟩ "x" (indexed.tree.span (some n)).start := by
  have table : indexed.decls.table = _ := collect_tree
  rw [Snapshot.resolveName, decls?_snapshot]
  dsimp only
  rw [table]
  rcases used with rfl | rfl <;> exact List.mem_singleton_self key

theorem mem_of_inside {m : Nat} (inside : tree.Inside 6 m) : m ∈ [7, 9, 10, 11, 12] := by
  induction inside with
  | single part =>
    cases part
    decide
  | tail _ part ih =>
    simp only [List.mem_cons, List.not_mem_nil, or_false] at ih
    rcases ih with rfl | rfl | rfl | rfl | rfl <;> cases part <;> decide

end Branches

open Branches in
/-- The name in the `else` block resolves to the variable of the block before it. -/
theorem not_inside_resolveName :
    workspace.Reachable ∧ workspace.index.file? ⟨1⟩ = some indexed ∧ indexed.tree.Composed ∧
      indexed.tree.form? (some 6) = some (.name "x") ∧
      key ∈ workspace.snapshot.1.resolveName ⟨1⟩ "x" (indexed.tree.span (some 6)).start ∧
      key.file = ⟨1⟩ ∧ Snapshot.entry? workspace.snapshot.1 key = some entry ∧
      entry.kind = .localVar ∧
      ¬ ∃ s scope m, entry.scope = some s ∧ indexed.decls.table.scopes[s]? = some scope ∧
        (∀ k, indexed.tree.span (some k) = scope.span ↔ k = m) ∧ indexed.tree.Inside 6 m := by
  refine ⟨reachable_workspace, rfl, composed_tree, rfl, mem_resolveName (.inr rfl), rfl, entry?_key,
    rfl, ?_⟩
  rintro ⟨s, scope, m, home, at_s, only, inside⟩
  have table : indexed.decls.table = _ := collect_tree
  rw [table] at at_s
  cases home
  cases at_s
  obtain rfl : 8 = m := (only 8).mp rfl
  exact absurd (mem_of_inside inside) (by decide)

open Branches in
/-- The name in the block of the variable resolves to it as well. -/
theorem resolveName_scope_branches :
    workspace.Reachable ∧ workspace.index.file? ⟨1⟩ = some indexed ∧ indexed.tree.Composed ∧
      indexed.tree.IsName 4 ∧
      key ∈ workspace.snapshot.1.resolveName ⟨1⟩ "x" (indexed.tree.span (some 4)).start ∧
      ∃ s scope m, entry.scope = some s ∧ indexed.decls.table.scopes[s]? = some scope ∧
        (∀ k, indexed.tree.span (some k) = scope.span ↔ k = m) ∧
        (indexed.tree.Inside 4 m ∨ indexed.tree.InEarlierArm m 4) :=
  have found : workspace.index.file? ⟨1⟩ = some indexed := rfl
  have named : indexed.tree.IsName 4 := ⟨"x", rfl⟩
  ⟨reachable_workspace, found, composed_tree, named, mem_resolveName (.inl rfl),
    resolveName_scope reachable_workspace found composed_tree named (mem_resolveName (.inl rfl)) rfl
      entry?_key (.inl rfl)⟩

end Workspace

end LuaTyping
