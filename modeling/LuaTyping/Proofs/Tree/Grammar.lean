import LuaTyping.Proofs.Tree.TextOrder

/-!
# Trees that follow the grammar

A program of Lua is made of statements and expressions in fixed places: each part of a form has a
role, and a role admits some forms only. A tree follows the grammar if its nodes have roles in this
way. Parts may be absent wherever they stand.

The function of a function statement is reached through names alone, so the target of one is a
name or a member of something that is such a target itself.
-/

set_option autoImplicit false

namespace LuaTyping

/-- What a node stands for. -/
inductive Role where
  | chunk
  /-- The statements of a file, a function, a branch or a loop. -/
  | body
  | stmt
  | expr
  /-- A name that is declared. -/
  | name
  /-- The target of a function statement. -/
  | path
  /-- The function of a statement that declares one. -/
  | func
  /-- A field of a table constructor. -/
  | field
deriving DecidableEq, Inhabited, Repr

/-- The forms that a node in the role may have. -/
def Role.admits : Role → Form → Bool
  | .chunk, .chunk _ => true
  | .body, .block _ => true
  | .stmt, .chunk _ => false
  | .stmt, form => form.isStatement
  | .expr, .tableField _ _ => false
  | .expr, form => !form.isStatement
  | .name, .name _ => true
  | .path, .name _ => true
  | .path, .index _ (.named _) => true
  | .func, .closure _ _ _ => true
  | .field, .tableField _ _ => true
  | _, _ => false

/-- The parts of a form in the given role, each with its own role. -/
def Form.roles (role : Role) : Form → List (Role × NodeRef)
  | .chunk body => [(.body, body)]
  | .block stmts => stmts.map (.stmt, ·)
  | .localVars names exprs => names.map (.name, ·) ++ exprs.map (.expr, ·)
  | .localFunction declared func => [(.name, declared), (.func, func)]
  | .functionStat target _ func => [(.path, target), (.func, func)]
  | .assign targets exprs => targets.map (.expr, ·) ++ exprs.map (.expr, ·)
  | .ret exprs => exprs.map (.expr, ·)
  | .ifElse arms elseBlock =>
    arms.flatMap (fun arm => [(.expr, arm.cond), (.body, arm.block)]) ++ [(.body, elseBlock)]
  | .whileLoop cond body => [(.expr, cond), (.body, body)]
  | .repeatLoop body cond => [(.body, body), (.expr, cond)]
  | .numericFor var start limit step body =>
    [(.name, var), (.expr, start), (.expr, limit), (.expr, step), (.body, body)]
  | .genericFor names exprs body =>
    names.map (.name, ·) ++ exprs.map (.expr, ·) ++ [(.body, body)]
  | .doBlock body => [(.body, body)]
  | .exprStat expr => [(.expr, expr)]
  | .index base key => (if role = .path then .path else .expr, base) :: key.parts.map (.expr, ·)
  | .call callee _ args => (.expr, callee) :: args.map (.expr, ·)
  | .closure params _ body => params.map (.name, ·) ++ [(.body, body)]
  | .table fields => fields.map (.field, ·)
  | .tableField key value => key.parts.map (.expr, ·) ++ [(.expr, value)]
  | .binary _ lhs rhs => [(.expr, lhs), (.expr, rhs)]
  | .unary _ operand => [(.expr, operand)]
  | .paren expr => [(.expr, expr)]
  | .breakStat | .docOnly | .nil | .boolean _ | .number | .string _ | .vararg | .name _ => []

/-- Every part has a role, and only parts have one. -/
theorem Form.map_snd_roles (role : Role) (form : Form) :
    (form.roles role).map Prod.snd = form.parts := by
  cases form <;> simp [roles, parts, List.map_flatMap, Function.comp_def]

theorem Form.role_ne_chunk {form : Form} {role : Role} {part : Role × NodeRef}
    (mem : part ∈ form.roles role) : part.1 ≠ .chunk := by
  cases form <;> grind [roles]

/-- The parts of an expression are expressions, those of functions and tables apart. -/
theorem Form.role_eq_expr {form : Form} (is_expr : Role.expr.admits form)
    (no_closure : form.isClosure = false) (no_table : ∀ fields, form ≠ .table fields)
    {part : Role × NodeRef} (mem : part ∈ form.roles .expr) : part.1 = .expr := by
  cases form <;> simp [Role.admits, isStatement, isClosure, roles] at * <;> grind

/-- The targets of an assignment or a function statement. -/
def Form.targets : Form → List NodeRef
  | .assign targets _ => targets
  | .functionStat target _ _ => [target]
  | _ => []

theorem Form.mem_parts_of_targets {form : Form} {ref : NodeRef} (mem : ref ∈ form.targets) :
    ref ∈ form.parts := by
  cases form <;> simp_all [targets, parts]

namespace Tree

/-- The nodes that are reached have the roles that the grammar gives them. -/
structure GrammaticalAs (tree : Tree) (role : Nat → Role) : Prop where
  root : ∀ root, tree.root = some root → role root = .chunk
  admits : ∀ n form, tree.Reached n → tree.form? (some n) = some form → (role n).admits form
  parts : ∀ n form, tree.Reached n → tree.form? (some n) = some form →
    ∀ part ∈ form.roles (role n), ∀ p, part.2 = some p → role p = part.1

/-- The tree follows the statement and expression grammar. -/
def Grammatical (tree : Tree) : Prop := ∃ role, tree.GrammaticalAs role

/-- Roles can be checked node by node. -/
theorem grammaticalAs_of_all {tree : Tree} {role : Nat → Role}
    (root : tree.root.all fun root => role root = .chunk)
    (all : (List.range tree.size).all fun n => (tree.form? (some n)).all fun form =>
      (role n).admits form && (form.roles (role n)).all fun part =>
        part.2.all fun p => role p = part.1) : tree.GrammaticalAs role := by
  have node {n : Nat} {form : Form} (found : tree.form? (some n) = some form) :
      (role n).admits form ∧ ∀ part ∈ form.roles (role n), ∀ p, part.2 = some p →
        role p = part.1 := by
    have there := List.all_eq_true.mp all n (List.mem_range.mpr (lt_size_of_form? found))
    simpa [found, Option.all_eq_true_iff_get, Option.forall] using there
  refine ⟨fun r is_root => ?_, fun n form _ found => (node found).1,
    fun n form _ found => (node found).2⟩
  simpa [is_root] using root

/-- There is nothing but names under the node. -/
inductive Bare (tree : Tree) : NodeRef → Prop
  | absent {ref : NodeRef} (found : tree.form? ref = none) : Bare tree ref
  | name {ref : NodeRef} {text : String} (found : tree.form? ref = some (.name text)) :
      Bare tree ref
  | member {ref base : NodeRef} {text : String}
      (found : tree.form? ref = some (.index base (.named text))) (bare : Bare tree base) :
      Bare tree ref

/-- Only names and members are listed under such a node. -/
theorem listing_of_bare {tree : Tree} {picks enters : Form → Bool}
    (unnamed : ∀ text, picks (.name text) = false)
    (unindexed : ∀ base key, picks (.index base key) = false) {ref : NodeRef}
    (bare : tree.Bare ref) (height : Nat) : tree.listing picks enters height ref = [] := by
  induction bare generalizing height with
  | absent found => exact listing_of_absent found
  | @name ref text found =>
    cases height with
    | zero => rfl
    | succ height =>
      cases ref with
      | none => cases found
      | some n => simp [listing_of_form? found, unnamed, Form.parts]
  | @member ref base text found _ ih =>
    cases height with
    | zero => rfl
    | succ height =>
      cases ref with
      | none => cases found
      | some n => simp [listing_of_form? found, unindexed, Form.parts, IndexKey.parts, ih]

namespace GrammaticalAs

variable {tree : Tree} {role : Nat → Role} (grammatical : tree.GrammaticalAs role)
include grammatical

/-- The root is a chunk, and a chunk is part of nothing. -/
theorem rooted (branching : tree.Branching) : tree.Rooted where
  toBranching := branching
  top root whole is_root reached part := by
    obtain ⟨form, found, -⟩ := exists_form_of_childOf part
    have mem := (childOf_iff found).mp part
    rw [← form.map_snd_roles (role whole)] at mem
    obtain ⟨own, own_mem, is_part⟩ := List.mem_map.mp mem
    have chunk : own.1 = .chunk :=
      (grammatical.parts whole form reached found own own_mem root is_part).symm.trans
        (grammatical.root root is_root)
    exact Form.role_ne_chunk own_mem chunk

/-- The induction is on the height, which bounds how many members lead to a member. -/
theorem bare_of_role {n height : Nat} (reached : tree.Reached n) (h : tree.HeightLE n height)
    (is_path : role n = .name ∨ role n = .path) : tree.Bare (some n) := by
  induction height generalizing n with
  | zero => exact h.elim
  | succ height ih =>
    cases found : tree.form? (some n) with
    | none => exact .absent found
    | some form =>
      have admits := grammatical.admits n form reached found
      cases form with
      | name text => exact .name found
      | index base key =>
        rcases is_path with is_name | is_path
        · simp [is_name, Role.admits] at admits
        · cases key with
          | expr key => simp [is_path, Role.admits] at admits
          | named text =>
            refine .member found ?_
            cases base with
            | none => exact .absent rfl
            | some base =>
              have part : tree.ChildOf base n := (childOf_iff found).mpr (by simp [Form.parts])
              refine ih (reached.of_childOf part) (h base part) (.inr ?_)
              have parts := grammatical.parts n _ reached found
              simpa [Form.roles, is_path, IndexKey.parts] using parts
      | _ => rcases is_path with is_path | is_path <;> simp [is_path, Role.admits] at admits

end GrammaticalAs

end Tree

end LuaTyping
