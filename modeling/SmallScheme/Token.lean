import SmallScheme.Atom

/-! # Tokens

What a text is made of once blanks and comments are gone.
-/

namespace SmallScheme

/-- A mark in front of a datum, short for a list of a keyword and the datum. -/
inductive Abbreviation
  | quote
  | quasiquote
  | unquote
  | unquoteSplicing
  | syntaxQuote
  | syntaxQuasiquote
  | syntaxUnquote
  | syntaxUnquoteSplicing
  deriving DecidableEq

namespace Abbreviation

def all : List Abbreviation :=
  [quote, quasiquote, unquote, unquoteSplicing, syntaxQuote, syntaxQuasiquote, syntaxUnquote,
    syntaxUnquoteSplicing]

/-- The mark in the text. -/
def mark : Abbreviation → String
  | quote => "'"
  | quasiquote => "\x60"
  | unquote => ","
  | unquoteSplicing => ",@"
  | syntaxQuote => "#'"
  | syntaxQuasiquote => "#\x60"
  | syntaxUnquote => "#,"
  | syntaxUnquoteSplicing => "#,@"

/-- The keyword that the mark stands for. -/
def keyword : Abbreviation → Symbol
  | quote => ⟨"quote"⟩
  | quasiquote => ⟨"quasiquote"⟩
  | unquote => ⟨"unquote"⟩
  | unquoteSplicing => ⟨"unquote-splicing"⟩
  | syntaxQuote => ⟨"syntax"⟩
  | syntaxQuasiquote => ⟨"quasisyntax"⟩
  | syntaxUnquote => ⟨"unsyntax"⟩
  | syntaxUnquoteSplicing => ⟨"unsyntax-splicing"⟩

def ofKeyword? (name : Symbol) : Option Abbreviation := all.find? (·.keyword = name)

theorem ofKeyword?_keyword (a : Abbreviation) : ofKeyword? a.keyword = some a := by
  cases a <;> decide

theorem ofKeyword?_eq_some_iff {name : Symbol} {a : Abbreviation} :
    ofKeyword? name = some a ↔ name = a.keyword := by
  refine ⟨fun h => ?_, fun h => h ▸ ofKeyword?_keyword a⟩
  have found : a.keyword = name := by simpa using List.find?_some h
  exact found.symm

end Abbreviation

inductive Token
  | atom (value : Atom)
  | listOpen
  | vectorOpen
  | close
  | dot
  | abbreviation (mark : Abbreviation)
  deriving DecidableEq

/-- How a token is written, atoms in their written form. -/
def Token.text : Token → String
  | atom value => value.text .write
  | listOpen => "("
  | vectorOpen => "#("
  | close => ")"
  | dot => "."
  | abbreviation a => a.mark

end SmallScheme
