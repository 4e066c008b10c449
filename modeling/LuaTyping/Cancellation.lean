/-!
# Cancellation

A query carries a token and stops early once the token's flag is raised. Copies of a token share
one flag. The table below keeps the flags apart from the tokens that name them, so sharing is plain
data: two tokens share exactly when they name the same flag.
-/

set_option autoImplicit false

namespace LuaTyping

/-- Tokens, each with the flag it shares, and the state of each flag. -/
structure Cancellation where
  tokens : Array Nat
  flags : Array Bool
deriving Inhabited, Repr

namespace Cancellation

/-- One token with a lowered flag of its own. -/
def single : Cancellation := ⟨#[0], #[false]⟩

/-- A further token with a lowered flag of its own. -/
def fresh (table : Cancellation) : Cancellation :=
  ⟨table.tokens.push table.flags.size, table.flags.push false⟩

/-- A further token that shares the flag of `token`. -/
def share (table : Cancellation) (token : Nat) : Cancellation :=
  match table.tokens[token]? with
  | some flag => { table with tokens := table.tokens.push flag }
  | none => table

/-- Sets the flag that `token` shares. -/
def write (table : Cancellation) (token : Nat) (raised : Bool) : Cancellation :=
  match table.tokens[token]? with
  | some flag => { table with flags := table.flags.setIfInBounds flag raised }
  | none => table

/-- Raises the flag that `token` shares. -/
def cancel (table : Cancellation) (token : Nat) : Cancellation := table.write token true

/-- Lowers the flag that `token` shares, so that the token can serve another query. -/
def reset (table : Cancellation) (token : Nat) : Cancellation := table.write token false

/-- Whether the flag of each token is raised, in order of the tokens. -/
def states (table : Cancellation) : List Bool :=
  table.tokens.toList.map fun flag => table.flags.getD flag false

end Cancellation

end LuaTyping
