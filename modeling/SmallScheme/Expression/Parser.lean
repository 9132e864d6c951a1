import SmallScheme.Store.External

/-! # Parsing values as expressions

A symbol is a reference, a pair a special form or a call, anything else a literal. Definitions are
legal at top level and at the start of a body, that is until the first member of the body that is no
definition; every part of another form is parsed as a plain expression. Data may be of any depth
that the store allows: each level of nesting goes through a cell.
-/

namespace SmallScheme

/-- Where a form stands, as far as it matters for definitions. -/
inductive Context
  | topLevel
  | startOfBody
  | expression
  deriving DecidableEq

/-- The context of the next member of a sequence. -/
def Context.behind : Context → Expression → Context
  | .startOfBody, member => if member.isDefinition then .startOfBody else .expression
  | context, _ => context

/-- The form that a keyword introduces. -/
def Form.ofKeyword? (name : Symbol) : Option Form :=
  [lambda, assignment, definition, conditional, quotation, sequence].find?
    (·.keyword = name.text)

namespace Store

def malformed {α : Type} (s : Store) (form : Form) (v : Value) : Except SyntaxError α :=
  .error (.malformed form (s.written v))

def expectSymbol (s : Store) (v : Value) : Except SyntaxError Symbol :=
  match v with
  | .atom (.symbol name) => .ok name
  | _ => .error (.unmetExpectation (s.written v) .symbol)

/-- What stands behind the head of a form, which has to be a proper list. -/
def operands (s : Store) (form : Form) (ref : CellRef) : Except SyntaxError (List Value) :=
  match s.walk (s.cdr ref) with
  | (operands, .null) => .ok operands
  | _ => s.malformed form (.pair ref)

/-- A symbol for all arguments, or a list of parameters whose tail may name the further arguments. -/
def formals (s : Store) (v : Value) : Except SyntaxError Formals :=
  match v with
  | .atom (.symbol rest) => .ok ⟨[], some rest⟩
  | .null => .ok ⟨[], none⟩
  | .pair _ => do
    let (parameters, tail) := s.walk v
    let parameters ← parameters.mapM s.expectSymbol
    match tail with
    | .null => return ⟨parameters, none⟩
    | tail => return ⟨parameters, some (← s.expectSymbol tail)⟩
  | _ => .error (.unmetExpectation (s.written v) .formals)

end Store

/-- Parses the members of a sequence one after the other, each in the context that those before it
leave. -/
def parseMembers (parse : Context → Value → Except SyntaxError Expression) :
    Context → List Value → Except SyntaxError (List Expression)
  | _, [] => .ok []
  | context, v :: rest => do
    let member ← parse context v
    let members ← parseMembers parse (context.behind member) rest
    return member :: members

/-- The body of a procedure: its only member, or a sequence. -/
def parseBody (parse : Context → Value → Except SyntaxError Expression) :
    List Value → Except SyntaxError Expression
  | [single] => parse .startOfBody single
  | members => .sequence <$> parseMembers parse .startOfBody members

namespace Store

def parseLambda (s : Store) (parse : Context → Value → Except SyntaxError Expression)
    (formals : Value) (body : List Value) : Except SyntaxError Expression := do
  let formals ← s.formals formals
  return .lambda formals (← parseBody parse body)

/-- A definition of a name by an expression, or of a procedure by its formals and body. -/
def parseDefinition (s : Store) (parse : Context → Value → Except SyntaxError Expression)
    (ref : CellRef) : Except SyntaxError Expression := do
  match ← s.operands .definition ref with
  | [.atom (.symbol name), source] => return .define name (← parse .expression source)
  | .atom (.symbol _) :: _ => s.malformed .definition (.pair ref)
  | .pair signature :: first :: body =>
    let name ← s.expectSymbol (s.car signature)
    return .define name (← s.parseLambda parse (s.cdr signature) (first :: body))
  | .pair _ :: [] | [] => s.malformed .definition (.pair ref)
  | target :: _ => .error (.unmetExpectation (s.written target) .symbol)

/-- The expression that a special form is in a context. -/
def parseForm (s : Store) (parse : Context → Value → Except SyntaxError Expression)
    (context : Context) (ref : CellRef) : Form → Except SyntaxError Expression
  | .lambda => do
    match ← s.operands .lambda ref with
    | formals :: first :: body => s.parseLambda parse formals (first :: body)
    | _ => s.malformed .lambda (.pair ref)
  | .assignment => do
    match ← s.operands .assignment ref with
    | [target, source] =>
      let name ← s.expectSymbol target
      return .assign name (← parse .expression source)
    | _ => s.malformed .assignment (.pair ref)
  | .definition =>
    if context = .expression then .error (.illegalDefinition (s.written (.pair ref)))
    else s.parseDefinition parse ref
  | .conditional => do
    match ← s.operands .conditional ref with
    | [test, consequent] =>
      return .ifOnly (← parse .expression test) (← parse .expression consequent)
    | [test, consequent, alternate] =>
      return .ifElse (← parse .expression test) (← parse .expression consequent)
        (← parse .expression alternate)
    | _ => s.malformed .conditional (.pair ref)
  | .quotation => do
    match ← s.operands .quotation ref with
    | [quoted] => return .literal quoted
    | _ => s.malformed .quotation (.pair ref)
  | .sequence => do
    match ← s.operands .sequence ref with
    | [] => s.malformed .sequence (.pair ref)
    | members => .sequence <$> parseMembers parse context members
  | .call => do
    let operator ← parse .expression (s.car ref)
    let operands ← s.operands .call ref
    return .call operator (← operands.mapM (parse .expression))

/-- Parses a value through so many levels of nesting. Only a value that contains itself can have more
levels than the store has cells; parsing it would never end, and here it is an error. -/
def parseWithin (s : Store) : Nat → Context → Value → Except SyntaxError Expression
  | _, _, .atom (.symbol name) => .ok (.reference name)
  | 0, _, .pair _ => .error (.nestingTooDeep s.cells.size)
  | levels + 1, context, .pair ref =>
    let form := ((s.car ref).symbol?.bind Form.ofKeyword?).getD .call
    s.parseForm (s.parseWithin levels) context ref form
  | _, _, v => .ok (.literal v)

/-- Parses a value at top level. -/
def parse (s : Store) (v : Value) : Except SyntaxError Expression :=
  s.parseWithin s.cells.size .topLevel v

end Store

end SmallScheme
