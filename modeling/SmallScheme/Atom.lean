import SmallScheme.Symbol
import SmallScheme.Number.Decimal

/-! # Atoms

The data without parts. The written form of an atom can be read back; the displayed form gives the
contents of strings and characters as they are, and agrees with the written form on all others.
-/

namespace SmallScheme

/-- The two external representations of a value. -/
inductive Style
  | write
  | display
  deriving DecidableEq

inductive Atom
  | boolean (value : Bool)
  | number (value : Float)
  | string (contents : String)
  | character (value : Char)
  | symbol (name : Symbol)
  deriving DecidableEq

/-- The contents of a string literal: a backslash before each backslash and each double quote. -/
def escaped : List Char → List Char
  | [] => []
  | c :: rest => if c = '\\' || c = '"' then '\\' :: c :: escaped rest else c :: escaped rest

/-- A string literal. -/
def quoted (contents : String) : String :=
  String.ofList ('"' :: escaped contents.toList ++ ['"'])

namespace Atom

def text (style : Style) : Atom → String
  | .boolean true => "#t"
  | .boolean false => "#f"
  | .number x => String.ofList (Float.external x)
  | .string contents => if style = .write then quoted contents else contents
  | .character c =>
    match style with
    | .display => c.toString
    | .write =>
      if c = ' ' then "#\\space" else if c = '\n' then "#\\newline" else "#\\".push c
  | .symbol name => name.text

end Atom

end SmallScheme
