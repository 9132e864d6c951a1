/-! # The command line of the batch runner

Options and at most one file, read from left to right. The first thing that is wrong, or a question
for the version, decides.
-/

namespace SmallScheme.Batch

structure Options where
  file : Option String
  expressions : List String
  trace : Bool
  depth : Option Nat
  quiet : Bool
  deriving DecidableEq

def Options.none : Options := ⟨.none, [], false, .none, false⟩

/-- What a command line asks for. -/
inductive Command
  | run (options : Options)
  | version
  | misuse
  deriving DecidableEq

/-- A decimal number that fits 64 bits; it may have a plus sign. -/
def limit? (text : String) : Option Nat :=
  let digits :=
    match text.toList with
    | '+' :: digits => digits
    | digits => digits
  if digits.isEmpty || !digits.all Char.isDigit then none
  else some (Nat.ofDigitChars 10 digits 0) |>.filter (· < UInt64.size)

/-- An argument of its own that may be a value or a file: a dash is, an option is not. -/
def isPlain (argument : String) : Bool := argument = "-" || !argument.startsWith "-"

/-- What reading an argument leads to: more reading, perhaps with the next argument as a value. -/
inductive Reading
  | go (options : Options)
  | wantExpression (options : Options)
  | wantDepth (options : Options)
  | stop (command : Command)

namespace Options

def addExpression (options : Options) (expression : String) : Options :=
  { options with expressions := options.expressions ++ [expression] }

def setDepth (options : Options) (value : String) : Reading :=
  match options.depth, limit? value with
  | .none, some depth => .go { options with depth := some depth }
  | _, _ => .stop .misuse

def setQuiet (options : Options) : Reading :=
  if options.quiet then .stop .misuse else .go { options with quiet := true }

def setTrace (options : Options) : Reading :=
  if options.trace then .stop .misuse else .go { options with trace := true }

def setFile (options : Options) (path : String) : Reading :=
  if options.file.isSome || path = "" then .stop .misuse
  else .go { options with file := some path }

/-- Letters behind one dash. The value of an option follows it directly, perhaps behind an equals
sign, or is the next argument. -/
def readShort (options : Options) : List Char → Reading
  | [] => .go options
  | 'q' :: rest =>
    match options.setQuiet with
    | .go options => readShort options rest
    | reading => reading
  | 'V' :: _ => .stop .version
  | ['e'] => .wantExpression options
  | 'e' :: '=' :: value => .go (options.addExpression (String.ofList value))
  | 'e' :: value => .go (options.addExpression (String.ofList value))
  | _ => .stop .misuse

/-- A word behind two dashes, with the value that follows it behind an equals sign. -/
def readLong (options : Options) (word : String) (value : Option String) : Reading :=
  match word, value with
  | "eval", some value => .go (options.addExpression value)
  | "eval", .none => .wantExpression options
  | "max-stack-depth", some value => options.setDepth value
  | "max-stack-depth", .none => .wantDepth options
  | "quiet", .none => options.setQuiet
  | "trace", .none => options.setTrace
  | "version", .none => .stop .version
  | _, _ => .stop .misuse

/-- An argument before the options are over. -/
def readArgument (options : Options) (argument : String) : Reading :=
  match argument.toList with
  | '-' :: '-' :: long =>
    let word := String.ofList (long.takeWhile (· != '='))
    match long.dropWhile (· != '=') with
    | [] => options.readLong word .none
    | _ :: value => options.readLong word (some (String.ofList value))
  | '-' :: letter :: letters => options.readShort (letter :: letters)
  | _ => options.setFile argument

/-- Arguments behind the end of the options. -/
def readFiles (options : Options) : List String → Command
  | [] => .run options
  | path :: rest =>
    match options.setFile path with
    | .go options => readFiles options rest
    | _ => .misuse

/-- Reads the arguments that are left. -/
def read (options : Options) : List String → Command
  | [] => .run options
  | "--" :: rest => options.readFiles rest
  | argument :: rest =>
    match options.readArgument argument with
    | .go options => read options rest
    | .stop command => command
    | .wantExpression options =>
      match rest with
      | value :: rest => if isPlain value then read (options.addExpression value) rest else .misuse
      | [] => .misuse
    | .wantDepth options =>
      match rest with
      | value :: rest =>
        if isPlain value then
          match options.setDepth value with
          | .go options => read options rest
          | _ => .misuse
        else .misuse
      | [] => .misuse

end Options

/-- The command that the arguments stand for. -/
def Command.ofArguments (arguments : List String) : Command := Options.none.read arguments

end SmallScheme.Batch
