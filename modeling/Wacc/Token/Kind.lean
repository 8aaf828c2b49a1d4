/-
  Kinds of tokens.

  The kinds are listed once, in `Kind.all`; the code of a kind is its place in that list.
-/
import Wacc.Text.Basic

namespace Wacc

inductive Kind where
  | invalid
  | eof
  | ident
  | intLit
  | charLit
  | strLit
  | kwBegin
  | kwEnd
  | kwIs
  | kwSkip
  | kwRead
  | kwFree
  | kwReturn
  | kwExit
  | kwPrint
  | kwPrintln
  | kwIf
  | kwThen
  | kwElse
  | kwFi
  | kwWhile
  | kwDo
  | kwDone
  | kwFor
  | kwNewpair
  | kwCall
  | kwFst
  | kwSnd
  | kwInt
  | kwBool
  | kwChar
  | kwString
  | kwPair
  | kwTrue
  | kwFalse
  | kwNull
  | kwLen
  | kwOrd
  | kwChr
  | lparen
  | rparen
  | lbracket
  | rbracket
  | comma
  | semicolon
  | assign
  | bang
  | plus
  | minus
  | star
  | slash
  | percent
  | gt
  | gtEq
  | lt
  | ltEq
  | eqEq
  | bangEq
  | andAnd
  | orOr
  deriving DecidableEq, Repr, Inhabited

namespace Kind

def keywords : List Kind :=
  [.kwBegin, .kwEnd, .kwIs, .kwSkip, .kwRead, .kwFree, .kwReturn, .kwExit, .kwPrint, .kwPrintln,
   .kwIf, .kwThen, .kwElse, .kwFi, .kwWhile, .kwDo, .kwDone, .kwFor, .kwNewpair, .kwCall, .kwFst,
   .kwSnd, .kwInt, .kwBool, .kwChar, .kwString, .kwPair, .kwTrue, .kwFalse, .kwNull, .kwLen,
   .kwOrd, .kwChr]

def symbols : List Kind :=
  [.lparen, .rparen, .lbracket, .rbracket, .comma, .semicolon, .assign, .bang, .plus, .minus,
   .star, .slash, .percent, .gt, .gtEq, .lt, .ltEq, .eqEq, .bangEq, .andAnd, .orOr]

def all : List Kind :=
  [.invalid, .eof, .ident, .intLit, .charLit, .strLit] ++ keywords ++ symbols

def code (k : Kind) : Nat := all.idxOf k

def ofCode? (n : Nat) : Option Kind := all[n]?

/-- The spelling of a keyword or symbol, a description of any other kind. -/
def name : Kind → Text
  | .invalid => lit "invalid"
  | .eof => lit "end of file"
  | .ident => lit "identifier"
  | .intLit => lit "integer literal"
  | .charLit => lit "character literal"
  | .strLit => lit "string literal"
  | .kwBegin => lit "begin"
  | .kwEnd => lit "end"
  | .kwIs => lit "is"
  | .kwSkip => lit "skip"
  | .kwRead => lit "read"
  | .kwFree => lit "free"
  | .kwReturn => lit "return"
  | .kwExit => lit "exit"
  | .kwPrint => lit "print"
  | .kwPrintln => lit "println"
  | .kwIf => lit "if"
  | .kwThen => lit "then"
  | .kwElse => lit "else"
  | .kwFi => lit "fi"
  | .kwWhile => lit "while"
  | .kwDo => lit "do"
  | .kwDone => lit "done"
  | .kwFor => lit "for"
  | .kwNewpair => lit "newpair"
  | .kwCall => lit "call"
  | .kwFst => lit "fst"
  | .kwSnd => lit "snd"
  | .kwInt => lit "int"
  | .kwBool => lit "bool"
  | .kwChar => lit "char"
  | .kwString => lit "string"
  | .kwPair => lit "pair"
  | .kwTrue => lit "true"
  | .kwFalse => lit "false"
  | .kwNull => lit "null"
  | .kwLen => lit "len"
  | .kwOrd => lit "ord"
  | .kwChr => lit "chr"
  | .lparen => lit "("
  | .rparen => lit ")"
  | .lbracket => lit "["
  | .rbracket => lit "]"
  | .comma => lit ","
  | .semicolon => lit ";"
  | .assign => lit "="
  | .bang => lit "!"
  | .plus => lit "+"
  | .minus => lit "-"
  | .star => lit "*"
  | .slash => lit "/"
  | .percent => lit "%"
  | .gt => lit ">"
  | .gtEq => lit ">="
  | .lt => lit "<"
  | .ltEq => lit "<="
  | .eqEq => lit "=="
  | .bangEq => lit "!="
  | .andAnd => lit "&&"
  | .orOr => lit "||"

/-- The name of the kind with a code; codes without a kind are shown as numbers. -/
def nameOfCode (n : Nat) : Text :=
  match ofCode? n with
  | some k => k.name
  | none => lit "Kind(" ++ decimal n ++ lit ")"

def isKeyword (k : Kind) : Bool := keywords.contains k

def keyword? (word : Text) : Option Kind := keywords.find? (·.name == word)

def isBaseType : Kind → Bool
  | .kwInt | .kwBool | .kwChar | .kwString => true
  | _ => false

def isLiteral : Kind → Bool
  | .intLit | .charLit | .strLit | .kwTrue | .kwFalse | .kwNull => true
  | _ => false

end Kind

end Wacc
