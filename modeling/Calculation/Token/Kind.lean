namespace Calculation

inductive Token.Kind where
  | whitespace | lineComment | blockComment
  | identifier | number | string | date | field
  | leftParen | rightParen | leftBrace | rightBrace | rightBracket | comma | colon | dot
  | plus | minus | star | slash | percent | caret
  | equal | equalEqual | bangEqual | lessGreater | less | greater | lessEqual | greaterEqual
  | if_ | then_ | elseIf | else_ | end_ | case_ | when_ | fixed | include_ | exclude
  | true_ | false_ | null
  | and_ | or_ | not_ | in_
  | invalid
deriving DecidableEq, Repr, Inhabited

namespace Token.Kind

def isComment : Kind → Bool
  | lineComment | blockComment => true
  | _ => false

/-- Blanks and comments: they are tokens, so that tokens cover the text, but statements skip them. -/
def isTrivia (k : Kind) : Bool :=
  k == whitespace || k.isComment

/-- Operators that join two operands. -/
def isBinaryOperator : Kind → Bool
  | plus | minus | star | slash | percent | caret
  | equal | equalEqual | bangEqual | lessGreater | less | greater | lessEqual | greaterEqual
  | and_ | or_ | in_ => true
  | _ => false

/-- Operators written as words; they alone become symbols. -/
def isLogicalOperator : Kind → Bool
  | and_ | or_ | not_ | in_ => true
  | _ => false

def isOperator (k : Kind) : Bool :=
  k.isBinaryOperator || k == not_

def isKeyword : Kind → Bool
  | if_ | then_ | elseIf | else_ | end_ | case_ | when_ | fixed | include_ | exclude
  | true_ | false_ | null | and_ | or_ | not_ | in_ => true
  | _ => false

/-- Keywords that continue or close an open IF or CASE block. -/
def isBlockContinuation : Kind → Bool
  | end_ | else_ | elseIf | when_ | then_ => true
  | _ => false

def isLodKeyword : Kind → Bool
  | fixed | include_ | exclude => true
  | _ => false

def isClosingDelimiter : Kind → Bool
  | rightParen | rightBrace | rightBracket => true
  | _ => false

def startsExpression : Kind → Bool
  | identifier | number | string | date | field | leftParen | leftBrace
  | if_ | case_ | true_ | false_ | null | not_ | minus | plus => true
  | _ => false

/-- The name by which messages call a token. -/
def displayName : Kind → String
  | whitespace => "whitespace"
  | lineComment => "comment"
  | blockComment => "comment"
  | identifier => "identifier"
  | number => "number"
  | string => "string"
  | date => "date literal"
  | field => "field reference"
  | leftParen => "'('"
  | rightParen => "')'"
  | leftBrace => "'\x7b'"
  | rightBrace => "'\x7d'"
  | rightBracket => "']'"
  | comma => "','"
  | colon => "':'"
  | dot => "'.'"
  | plus => "'+'"
  | minus => "'-'"
  | star => "'*'"
  | slash => "'/'"
  | percent => "'%'"
  | caret => "'^'"
  | equal => "'='"
  | equalEqual => "'=='"
  | bangEqual => "'!='"
  | lessGreater => "'<>'"
  | less => "'<'"
  | greater => "'>'"
  | lessEqual => "'<='"
  | greaterEqual => "'>='"
  | if_ => "IF"
  | then_ => "THEN"
  | elseIf => "ELSEIF"
  | else_ => "ELSE"
  | end_ => "END"
  | case_ => "CASE"
  | when_ => "WHEN"
  | fixed => "FIXED"
  | include_ => "INCLUDE"
  | exclude => "EXCLUDE"
  | true_ => "TRUE"
  | false_ => "FALSE"
  | null => "NULL"
  | and_ => "AND"
  | or_ => "OR"
  | not_ => "NOT"
  | in_ => "IN"
  | invalid => "invalid character"

end Token.Kind

end Calculation
