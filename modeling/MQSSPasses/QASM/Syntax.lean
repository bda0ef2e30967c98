import MQSSPasses.Quake.Operations

/-!
# OpenQASM programs

The syntax tree of the OpenQASM parser, as far as the conversion to Quake
looks at it.  Pointers of the tree that may be null are optional here.
Integer and floating-point constants are separate alternatives, and reading
a constant as the wrong one is a fault.

`FloatArithmetic` is what the conversion computes with parameters.
-/

namespace MQSSPasses.QASM.Syntax

open MQSSPasses.Quake.Operations

/-- The arithmetic of parameters, with the constant `PI`. -/
class FloatArithmetic (A : Type) extends
    Neg A, Add A, Sub A, Mul A, Div A, IntCast A, One A where
  pi : A
  /-- The conversion to `float` and back. -/
  narrow : A → A

/-- Rational parameters; `pi` is the `double` nearest to the constant. -/
instance : FloatArithmetic ℚ where
  pi := 884279719003555 / 281474976710656
  narrow := id

/-- `qasm3::Constant`. -/
inductive Constant (A : Type) where
  | integer (value : ℤ)
  | floating (value : A)
  deriving DecidableEq, Repr

/-- The value of an integer constant. -/
def Constant.getSInt {A : Type} : Constant A → Except Fault ℤ
  | .integer value => .ok value
  | .floating _ => .error .badVariantAccess

inductive UnaryOp where
  | negate
  | bitwiseNot
  | logicalNot
  | sin
  | cos
  | tan
  | exp
  | ln
  | sqrt
  deriving DecidableEq, Repr

inductive BinaryOp where
  | add
  | subtract
  | multiply
  | divide
  | power
  | modulo
  | other (symbol : String)
  deriving DecidableEq, Repr

/--
`qasm3::Expression`.  A measurement holds the measured operand: the name of
its register and the expression of its index, if it has one.
-/
inductive Expression (A : Type) where
  | constant (value : Constant A)
  | identifier (name : String)
  | unary (op : UnaryOp) (operand : Expression A)
  | binary (op : BinaryOp) (lhs rhs : Expression A)
  | measure (gate : Option (String × Option (Expression A)))
  | declaration (expression : Option (Expression A))
  | other (text : String)

/-- `qasm3::GateOperand`: a register and the index of a qubit in it. -/
structure GateOperand (A : Type) where
  identifier : String
  expression : Option (Expression A)

/-- `qasm3::GateModifier`; `ctrlType` tells `ctrl` from `negctrl`. -/
inductive GateModifier (A : Type) where
  | inv
  | pow (expression : Expression A)
  | ctrl (ctrlType : Bool) (expression : Option (Expression A))

/-- `qasm3::GateCallStatement`. -/
structure GateCall (A : Type) where
  identifier : String
  modifiers : List (GateModifier A)
  arguments : List (Expression A)
  operands : List (GateOperand A)

/-- `qasm3::AssignmentStatement`. -/
structure Assignment (A : Type) where
  identifier : String
  indexExpression : Option (Expression A)
  expression : Option (Expression A)

/--
The type of a declaration: still with a designator expression, as the
parser leaves it, or resolved.
-/
inductive DeclaredType (A : Type) where
  | designated (text : String) (designator : Option (Expression A))
  | resolved (text : String) (designator : ℕ)

/-- `qasm3::DeclarationStatement`. -/
structure Declaration (A : Type) where
  type : DeclaredType A
  identifier : String
  expression : Option (Expression A)

/-- `qasm3::Statement`. -/
inductive Statement (A : Type) where
  | declaration (statement : Declaration A)
  | gateCall (statement : GateCall A)
  | assignment (statement : Assignment A)
  | reset (gate : GateOperand A)
  | barrier (gates : List (GateOperand A))
  | ifStatement (condition : Expression A)
      (thenStatements elseStatements : List (Statement A))
  /-- Versions, gate declarations, layouts and permutations. -/
  | other (text : String)

/-- A program as the parser returns it. -/
abbrev Program (A : Type) : Type := List (Statement A)

end MQSSPasses.QASM.Syntax
