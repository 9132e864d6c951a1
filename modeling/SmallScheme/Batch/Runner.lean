import SmallScheme.Batch.Options
import SmallScheme.Program

/-! # The batch runner

Evaluates expressions from the command line, then a file, or standard input if there are neither, all
in one environment. The written form of each value that is not void makes a line of output, and the
first failure ends the run. All texts are read before any is evaluated.
-/

namespace SmallScheme.Batch

/-- What a run can read: files by their path, or the reason why one cannot be read, and standard
input. -/
structure Inputs where
  file : String → Except String ByteArray
  standardInput : ByteArray

/-- What a run leaves behind. -/
structure Report where
  status : Nat
  output : String
  errors : String
  deriving DecidableEq

/-- Why a run ends before its last datum. -/
inductive Stop
  | failed (message : String)
  | exit (code : Int)
  | outOfFuel
  deriving DecidableEq

def programName : String := "schemer"

def version : String := "0.0.1"

def decode (source : String) (bytes : ByteArray) : Except String String :=
  match String.fromUTF8? bytes with
  | some text => .ok text
  | none => .error s!"reading {source}: stream did not contain valid UTF-8"

def readFile (inputs : Inputs) (path : String) : Except String String :=
  match inputs.file path with
  | .ok bytes => decode path bytes
  | .error reason => .error s!"reading {path}: {reason}"

/-- The texts to evaluate, in order. -/
def sources (options : Options) (inputs : Inputs) : Except String (List String) :=
  match options.file with
  | some path => (fun text => options.expressions ++ [text]) <$> readFile inputs path
  | none =>
    if options.expressions.isEmpty then
      (fun text => [text]) <$> decode "standard input" inputs.standardInput
    else .ok options.expressions

/-- Writes a value on a line of its own. -/
def printResult (w : World) (v : Value) : Option Stop × World :=
  let ⟨store, output⟩ := w
  match output.write ((store.written v).push '\n') with
  | (.ok _, output) => (none, ⟨store, output⟩)
  | (.error reason, output) => (some (.failed s!"writing result: {reason}"), ⟨store, output⟩)

/-- What a failure of the evaluation means for the run. -/
def Stop.ofFailure (failure : Failure) : Stop :=
  match failure.exitCode? with
  | some code => .exit code
  | none => .failed failure.message

/-- Evaluates one datum and prints its value. -/
def runDatum (limits : Limits) (quiet : Bool) (environment : ScopeRef) (w : World)
    (d : Except SyntaxError Datum) : Option Stop × World :=
  match w.evaluateDatum limits environment d with
  | .finished (.ok value) w =>
    if quiet || value = .void then (none, w) else printResult w value
  | .finished (.error failure) w => (some (.ofFailure failure), w)
  | .unfinished w => (some .outOfFuel, w)

def runData (limits : Limits) (quiet : Bool) (environment : ScopeRef) (w : World) :
    List (Except SyntaxError Datum) → Option Stop × World
  | [] => (none, w)
  | d :: rest =>
    match runDatum limits quiet environment w d with
    | (none, w) => runData limits quiet environment w rest
    | stopped => stopped

def runTexts (limits : Limits) (quiet : Bool) (environment : ScopeRef) (w : World) :
    List String → Option Stop × World
  | [] => (none, w)
  | text :: rest =>
    match runData limits quiet environment w (Datum.readEach text) with
    | (none, w) => runTexts limits quiet environment w rest
    | stopped => stopped

/-- The status that the system gets; it takes eight bits. -/
def exitStatus (code : Int) : Nat := if 0 ≤ code && code ≤ 255 then code.toNat else 1

def Report.ofStop (output : String) : Option Stop → Option Report
  | none => some ⟨0, output, ""⟩
  | some (.exit code) => some ⟨exitStatus code, output, ""⟩
  | some (.failed message) => some ⟨1, output, message.push '\n'⟩
  | some .outOfFuel => none

/-- Runs the texts that the options name, with an output that may be full. There is no report if an
evaluation uses up its fuel. -/
def run (fuel : Nat) (options : Options) (inputs : Inputs) (full : Bool) : Option Report :=
  match sources options inputs with
  | .error message => Report.ofStop "" (some (.failed message))
  | .ok texts =>
    let (environment, w) := World.withPrelude
    let w := { w with output := { w.output with full } }
    let (stop, w) := runTexts ⟨options.depth, fuel⟩ options.quiet environment w texts
    Report.ofStop w.output.text stop

end SmallScheme.Batch
