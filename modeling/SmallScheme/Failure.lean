import SmallScheme.Token

/-! # Failures

What can go wrong while a text is read and parsed, and while an expression is evaluated. Each
failure is a cause with what is needed to report it; `message` holds the wording.
-/

namespace SmallScheme

/-- The kinds of data that the grammar asks for by name. -/
inductive Expectation
  | symbol
  | number
  | formals
  deriving DecidableEq

def Expectation.name : Expectation → String
  | symbol => "symbol"
  | number => "number"
  | formals => "formals"

/-- The forms that have a shape of their own; anything else with parentheses is a call. -/
inductive Form
  | lambda
  | assignment
  | definition
  | conditional
  | quotation
  | sequence
  | call
  deriving DecidableEq

/-- The keyword that heads a special form; calls have none and are named in words. -/
def Form.keyword : Form → String
  | lambda => "lambda"
  | assignment => "set!"
  | definition => "define"
  | conditional => "if"
  | quotation => "quote"
  | sequence => "begin"
  | call => "procedure call"

inductive SyntaxError
  | invalidToken (text : String)
  | expectedDelimiter (found : Char)
  | invalidEscape (found : Char)
  | unexpectedEnd
  | expectedClose (found : Token)
  | unexpectedToken (found : Token)
  | unmetExpectation (found : String) (expected : Expectation)
  | malformed (form : Form) (written : String)
  | nestingTooDeep (limit : Nat)
  | illegalDefinition (written : String)
  deriving DecidableEq

def SyntaxError.message : SyntaxError → String
  | invalidToken text => s!"Error: Invalid token: \"{text}\"."
  | expectedDelimiter found =>
    s!"Error: Expected whitespace, parenthesis, semicolon, or double-quote, found \"{found}\"."
  | invalidEscape found => s!"Error: Expected backslash or double quote, found \"{found}\"."
  | unexpectedEnd => "Error: Unexpected end of file."
  | expectedClose found => s!"Error: Expected closing parenthesis, found \"{found.text}\"."
  | unexpectedToken found => s!"Error: Unexpected token \"{found.text}\"."
  | unmetExpectation found expected => s!"Error: {found} is not a valid {expected.name}."
  | malformed form written => s!"Error: Bad syntax in {form.keyword}: {written}."
  | nestingTooDeep limit => s!"Error: Data nested deeper than {limit} levels."
  | illegalDefinition written => s!"Error: Illegal definition in expression context: {written}."

/-- The types that values are told apart by. -/
inductive Kind
  | boolean
  | number
  | string
  | character
  | symbol
  | pair
  | vector
  | null
  | void
  | primitive
  | closure
  deriving DecidableEq

/-- Closures bear the name of all procedures. -/
def Kind.name : Kind → String
  | boolean => "boolean"
  | number => "number"
  | string => "string"
  | character => "char"
  | symbol => "symbol"
  | pair => "pair"
  | vector => "vector"
  | null => "null"
  | void => "void"
  | primitive => "primitive"
  | closure => "procedure"

/-- What evaluation can report. A missing argument is only reported by operations of the host. -/
inductive EvalError
  | unbound (name : Symbol)
  | notAProcedure (written : String)
  | arityMismatch (expected given : Nat)
  | tooFewArguments (expected given : Nat)
  | tooManyArguments (expected given : Nat)
  | wrongType (expected got : Kind)
  | indexOutOfRange
  | noExitCode
  | noArgument
  | stackOverflow (depth limit : Nat)
  | outputFailed (reason : String)
  | exit (code : Int)
  deriving DecidableEq

namespace EvalError

/-- A value of one sort where another sort was needed. -/
def isTypeError : EvalError → Bool
  | wrongType .. | indexOutOfRange | noExitCode | noArgument => true
  | _ => false

def typeMessage (expected got : String) : String := s!"Type error: expected {expected}, got {got}"

def message : EvalError → String
  | unbound name => s!"Error: Unbound variable: {name.text}."
  | notAProcedure written => s!"Error: {written} is not a procedure."
  | arityMismatch expected given =>
    s!"Error: Procedure expects {expected} argument(s), given {given}."
  | tooFewArguments expected given =>
    s!"Error: Procedure expects at least {expected} argument(s), given {given}."
  | tooManyArguments expected given =>
    s!"Error: Procedure expects at most {expected} argument(s), given {given}."
  | wrongType expected got => typeMessage expected.name got.name
  | indexOutOfRange => typeMessage "vector index" "out-of-range index"
  | noExitCode => typeMessage "exit code" "number"
  | noArgument => typeMessage "argument" "null"
  | stackOverflow depth limit =>
    s!"Stack overflow: continuation depth {depth} exceeds maximum {limit}"
  | outputFailed reason => s!"Error: Output failed: {reason}"
  | exit code => s!"Exit requested with code {code}"

end EvalError

/-- What ends the evaluation of a text. -/
inductive Failure
  | reading (error : SyntaxError)
  | evaluation (error : EvalError)
  deriving DecidableEq

namespace Failure

def message : Failure → String
  | reading error => error.message
  | evaluation error => error.message

def isTypeError : Failure → Bool
  | reading _ => false
  | evaluation error => error.isTypeError

/-- The status that a program asked to exit with. -/
def exitCode? : Failure → Option Int
  | evaluation (.exit code) => some code
  | _ => none

end Failure

end SmallScheme
