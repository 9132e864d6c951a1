import SmallScheme.Store.Environment
import SmallScheme.Store.External

/-! # Inspection

Texts that show what is inside procedures, vectors and environments, for people who debug programs.
-/

namespace SmallScheme

def bracketed (texts : List String) : String := "[" ++ ", ".intercalate texts ++ "]"

def Formals.inspect (formals : Formals) : String :=
  let parameters := bracketed (formals.parameters.map (·.text))
  let rest :=
    match formals.rest with
    | some name => "Some(" ++ name.text ++ ")"
    | none => "None"
  "Formals \x7b parameters: " ++ parameters ++ ", rest: " ++ rest ++ " \x7d"

namespace Store

def inspectScope (s : Store) (ref : ScopeRef) : String :=
  let names := bracketed ((s.names ref).map (·.text))
  "Environment \x7b depth: " ++ toString (s.depth ref) ++ ", names: " ++ names ++ " \x7d"

def inspectProcedure (s : Store) : Procedure → String
  | .primitive ref => "Primitive(" ++ (s.primitiveAt ref).name ++ ")"
  | .closure ref => "Closure(" ++ (s.closureAt ref).formals.inspect ++ ")"

/-- What a pair is taken apart into, with each value in its written form. -/
def inspectPair (s : Store) (ref : CellRef) : String :=
  String.join <| (s.layer (.pair ref)).map fun
    | .text t => t
    | .value v => s.written v

/-- The inside of a value, for an atom its written form. -/
def inspect (s : Store) (v : Value) : String :=
  match v with
  | .pair ref => s.inspectPair ref
  | .vector ref => bracketed ((s.items ref).map s.written)
  | .procedure procedure => s.inspectProcedure procedure
  | _ => s.written v

end Store

end SmallScheme
