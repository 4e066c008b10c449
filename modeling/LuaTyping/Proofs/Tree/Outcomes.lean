import LuaTyping.Tree.Basic

/-!
# How statements end

Control leaves a statement in one of three ways: it goes on to what follows, it returns from the
function, or it breaks off the loop around it. Conditions are not looked at. So any arm of an `if`
statement may be taken, or the block after `else`, which completes where there is none; and a loop
may run its block any number of times, only a `repeat` loop no less than once.

`Ends` has one rule for each way through a statement. What it takes for control to reach the end of
a statement of a given form is read off the rules in `completes_iff`.
-/

set_option autoImplicit false

namespace LuaTyping

/-- How control leaves a statement. -/
inductive Outcome where
  | completes
  | returns
  | breaks
deriving DecidableEq, Repr

namespace Form

/-- Control goes through the statement to the next one, whatever its parts are. -/
def passes : Form → Bool
  | .localVars _ _ | .localFunction _ _ | .functionStat _ _ _ | .assign _ _ | .exprStat _
  | .docOnly => true
  | _ => false

/-- The block of a loop. -/
def loopBlock? : Form → Option NodeRef
  | .whileLoop _ body | .repeatLoop body _ | .numericFor _ _ _ _ body | .genericFor _ _ body =>
    some body
  | _ => none

/-- The loop may be over before its block has run. -/
def mayRunNever : Form → Bool
  | .whileLoop _ _ | .numericFor _ _ _ _ _ | .genericFor _ _ _ => true
  | _ => false

end Form

namespace Tree

/-- Control may leave the statement, or the block, in this way. -/
inductive Ends (tree : Tree) : NodeRef → Outcome → Prop
  | absent {ref : NodeRef} (found : tree.form? ref = none) : Ends tree ref .completes
  | passes {ref : NodeRef} {form : Form} (found : tree.form? ref = some form)
      (passes : form.passes = true) : Ends tree ref .completes
  | ret {ref : NodeRef} {exprs : List NodeRef} (found : tree.form? ref = some (.ret exprs)) :
      Ends tree ref .returns
  | breakStat {ref : NodeRef} (found : tree.form? ref = some .breakStat) : Ends tree ref .breaks
  /-- All statements of a block complete. -/
  | through {ref : NodeRef} {stmts : List NodeRef} (found : tree.form? ref = some (.block stmts))
      (each : ∀ stmt ∈ stmts, Ends tree stmt .completes) : Ends tree ref .completes
  /-- The first statement of a block that does not complete ends it. -/
  | stops {ref : NodeRef} {before after : List NodeRef} {stmt : NodeRef} {outcome : Outcome}
      (found : tree.form? ref = some (.block (before ++ stmt :: after)))
      (passed : ∀ other ∈ before, Ends tree other .completes) (last : Ends tree stmt outcome)
      (stopped : outcome ≠ .completes) : Ends tree ref outcome
  | doBlock {ref block : NodeRef} {outcome : Outcome}
      (found : tree.form? ref = some (.doBlock block)) (inside : Ends tree block outcome) :
      Ends tree ref outcome
  | arm {ref elseBlock : NodeRef} {arms : List Arm} {taken : Arm} {outcome : Outcome}
      (found : tree.form? ref = some (.ifElse arms elseBlock)) (mem : taken ∈ arms)
      (inside : Ends tree taken.block outcome) : Ends tree ref outcome
  | otherwise {ref elseBlock : NodeRef} {arms : List Arm} {outcome : Outcome}
      (found : tree.form? ref = some (.ifElse arms elseBlock))
      (inside : Ends tree elseBlock outcome) : Ends tree ref outcome
  | never {ref : NodeRef} {form : Form} (found : tree.form? ref = some form)
      (never : form.mayRunNever = true) : Ends tree ref .completes
  /-- A loop is over after its block has run. -/
  | once {ref block : NodeRef} {form : Form} (found : tree.form? ref = some form)
      (loop : form.loopBlock? = some block) (inside : Ends tree block .completes) :
      Ends tree ref .completes
  /-- A loop goes on after its block has run. -/
  | again {ref block : NodeRef} {form : Form} {outcome : Outcome}
      (found : tree.form? ref = some form) (loop : form.loopBlock? = some block)
      (inside : Ends tree block .completes) (more : Ends tree ref outcome) : Ends tree ref outcome
  | brokenOff {ref block : NodeRef} {form : Form} (found : tree.form? ref = some form)
      (loop : form.loopBlock? = some block) (inside : Ends tree block .breaks) :
      Ends tree ref .completes
  | returned {ref block : NodeRef} {form : Form} (found : tree.form? ref = some form)
      (loop : form.loopBlock? = some block) (inside : Ends tree block .returns) :
      Ends tree ref .returns

/-- What it takes for control to reach the end of a statement of the form. -/
def Completes (tree : Tree) : Form → Prop
  | .block stmts => ∀ stmt ∈ stmts, tree.Ends stmt .completes
  | .doBlock body => tree.Ends body .completes
  | .ifElse arms elseBlock =>
    (∃ taken ∈ arms, tree.Ends taken.block .completes) ∨ tree.Ends elseBlock .completes
  | .repeatLoop body _ => tree.Ends body .completes ∨ tree.Ends body .breaks
  | form => form.passes = true ∨ form.mayRunNever = true

theorem completes_iff {tree : Tree} {ref : NodeRef} {form : Form}
    (found : tree.form? ref = some form) : tree.Ends ref .completes ↔ tree.Completes form := by
  constructor
  · intro ends
    cases ends with
    | absent missing => cases found.symm.trans missing
    | passes found' passes =>
      cases found.symm.trans found'
      cases form <;> simp_all [Completes, Form.passes]
    | through found' each =>
      cases found.symm.trans found'
      exact each
    | stops _ _ _ stopped => exact absurd rfl stopped
    | doBlock found' inside =>
      cases found.symm.trans found'
      exact inside
    | arm found' mem inside =>
      cases found.symm.trans found'
      exact .inl ⟨_, mem, inside⟩
    | otherwise found' inside =>
      cases found.symm.trans found'
      exact .inr inside
    | never found' never =>
      cases found.symm.trans found'
      cases form <;> simp_all [Completes, Form.mayRunNever]
    | once found' loop inside | again found' loop inside more =>
      cases found.symm.trans found'
      cases form <;> simp_all [Completes, Form.loopBlock?, Form.mayRunNever]
    | brokenOff found' loop inside =>
      cases found.symm.trans found'
      cases form <;> simp_all [Completes, Form.loopBlock?, Form.mayRunNever]
  · intro completes
    cases form with
    | block stmts => exact .through found completes
    | doBlock body => exact .doBlock found completes
    | ifElse arms elseBlock =>
      rcases completes with ⟨taken, mem, inside⟩ | inside
      · exact .arm found mem inside
      · exact .otherwise found inside
    | repeatLoop body cond =>
      rcases completes with inside | inside
      · exact .once found rfl inside
      · exact .brokenOff found rfl inside
    | _ => exact completes.elim (.passes found) (.never found)

end Tree

end LuaTyping
