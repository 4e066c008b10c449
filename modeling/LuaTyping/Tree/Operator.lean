/-!
# Operators

The operators of Lua expressions. What a type inference has to know of them is whether they compare
or compute.
-/

set_option autoImplicit false

namespace LuaTyping

/-- A binary operator. -/
inductive BinaryOp where
  | add
  | sub
  | mul
  | div
  | floorDiv
  | mod
  | pow
  | concat
  | eq
  | ne
  | lt
  | le
  | gt
  | ge
  | and
  | or
  | bitAnd
  | bitOr
  | bitXor
  | shiftLeft
  | shiftRight
deriving DecidableEq, Inhabited, Repr

namespace BinaryOp

/-- The operators whose result is a number when both operands are. -/
def isArithmetic : BinaryOp → Bool
  | .add | .sub | .mul | .div | .floorDiv | .mod | .pow
  | .bitAnd | .bitOr | .bitXor | .shiftLeft | .shiftRight => true
  | _ => false

/-- The operators whose result is a truth value. -/
def isComparison : BinaryOp → Bool
  | .eq | .ne | .lt | .le | .gt | .ge => true
  | _ => false

end BinaryOp

/-- A unary operator. -/
inductive UnaryOp where
  | neg
  | not
  | len
  | bitNot
deriving DecidableEq, Inhabited, Repr

end LuaTyping
