import SmallScheme.Value

/-! # Expressions

Programs after parsing: six special forms, calls, variables and literals. A literal is a value, since
quoted data are shared with the program that holds them.
-/

namespace SmallScheme

/-- Parameters bound to arguments one by one, and one for the list of all further arguments. -/
structure Formals where
  parameters : List Symbol
  rest : Option Symbol
  deriving DecidableEq

inductive Expression
  | literal (value : Value)
  | reference (name : Symbol)
  | define (name : Symbol) (source : Expression)
  | assign (name : Symbol) (source : Expression)
  | ifElse (test consequent alternate : Expression)
  | ifOnly (test consequent : Expression)
  | lambda (formals : Formals) (body : Expression)
  | call (operator : Expression) (operands : List Expression)
  | sequence (members : List Expression)

namespace Expression

mutual

/-- A definition, or a sequence of nothing but definitions. -/
def isDefinition : Expression → Bool
  | define .. => true
  | sequence members => areDefinitions members
  | _ => false

def areDefinitions : List Expression → Bool
  | [] => true
  | e :: rest => isDefinition e && areDefinitions rest

end

/-- What sort of expression it is. -/
def kindName : Expression → String
  | literal _ => "literal"
  | reference _ => "variable"
  | define .. => "definition"
  | assign .. => "assignment"
  | ifElse .. | ifOnly .. => "conditional"
  | lambda .. => "lambda"
  | call .. => "call"
  | sequence _ => "sequence"

end Expression

end SmallScheme
