/-!
# Kinds of tokens and nodes

The kinds that the scanner gives to tokens serve as the kinds of tree nodes too. Three of them are
made by the parser alone: statement lists, calls and method calls.
-/

namespace Scripting

/-- What a token or a node of a tree is. -/
inductive Kind where
  /-- Stands for a token that no source can hold. -/
  | illegal
  /-- The end of the input. -/
  | finish
  | identifier
  | int
  | float
  | string
  /-- `:=` -/
  | assign
  /-- `?=` -/
  | default
  /-- `+=` -/
  | accumulate
  | plus
  | minus
  | times
  | divide
  | modulo
  | not
  | and
  | or
  | equal
  | notEqual
  | less
  | lessEqual
  | greater
  | greaterEqual
  | comma
  | semicolon
  | period
  | leftParen
  | rightParen
  | leftBracket
  | rightBracket
  | leftBrace
  | rightBrace
  | funcWord
  | ifWord
  | elseWord
  | whileWord
  | returnWord
  | breakWord
  | continueWord
  | externWord
  | trueWord
  | falseWord
  | nilWord
  /-- A list of statements. -/
  | statements
  /-- The application of a function to arguments. -/
  | application
  /-- The application of a method of an object to arguments. -/
  | methodCall
  deriving DecidableEq, Repr, Inhabited

namespace Kind

/-- How a kind is spelled in trees and messages. -/
def name : Kind → String
  | illegal => "ILLEGAL"
  | finish => "EOF"
  | identifier => "IDENT"
  | int => "INT"
  | float => "FLOAT"
  | string => "STRING"
  | assign => ":="
  | default => "?="
  | accumulate => "+="
  | plus => "+"
  | minus => "-"
  | times => "*"
  | divide => "/"
  | modulo => "%"
  | not => "!"
  | and => "&&"
  | or => "||"
  | equal => "=="
  | notEqual => "!="
  | less => "<"
  | lessEqual => "<="
  | greater => ">"
  | greaterEqual => ">="
  | comma => ","
  | semicolon => ";"
  | period => "."
  | leftParen => "("
  | rightParen => ")"
  | leftBracket => "["
  | rightBracket => "]"
  | leftBrace => "\x7b"
  | rightBrace => "\x7d"
  | funcWord => "func"
  | ifWord => "if"
  | elseWord => "else"
  | whileWord => "while"
  | returnWord => "return"
  | breakWord => "break"
  | continueWord => "continue"
  | externWord => "extern"
  | trueWord => "true"
  | falseWord => "false"
  | nilWord => "nil"
  | statements => "stmts"
  | application => "f-apply"
  | methodCall => "m-apply"

/-- Every kind, once. -/
def all : List Kind :=
  [illegal, finish, identifier, int, float, string, assign, default, accumulate, plus, minus, times,
    divide, modulo, not, and, or, equal, notEqual, less, lessEqual, greater, greaterEqual, comma,
    semicolon, period, leftParen, rightParen, leftBracket, rightBracket, leftBrace, rightBrace,
    funcWord, ifWord, elseWord, whileWord, returnWord, breakWord, continueWord, externWord,
    trueWord, falseWord, nilWord, statements, application, methodCall]

/-- The kind with the given spelling. -/
def ofName? (name : String) : Option Kind :=
  all.find? (·.name = name)

/-- The words that are not names. -/
def keywords : List Kind :=
  [funcWord, ifWord, elseWord, whileWord, returnWord, breakWord, continueWord, externWord,
    trueWord, falseWord, nilWord]

/-- The kind of a word: a keyword's own kind, and `identifier` for any other. -/
def ofWord (word : String) : Kind :=
  (keywords.find? (·.name = word)).getD identifier

/-- Can a token of this kind end an expression? A line whose last token can is closed by a
semicolon. -/
def endsExpression : Kind → Bool
  | identifier | int | float | string | trueWord | falseWord | nilWord
  | breakWord | continueWord | returnWord | rightParen | rightBracket | rightBrace => true
  | _ => false

end Kind

end Scripting
