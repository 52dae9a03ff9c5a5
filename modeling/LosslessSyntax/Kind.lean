/-!
# Kinds of tokens and nodes

* `Kind` : the category of a token or of a node, in one enumeration; its order is the order of
  declaration (`Kind.index`);
* `Kind.isTrivia` : kinds that may stand in front of a token as its leading trivia;
* `Kind.text` : the name under which a kind is shown; `Kind.ofText?` reads it back.
-/

set_option autoImplicit false

namespace LosslessSyntax

/-- The category of a token or a node of the tree. -/
inductive Kind where
  | leftParen | rightParen | leftBracket | rightBracket | leftBrace | rightBrace | less | greater
  | comma | colon | semicolon | eq | dot
  | funKw | ifKw | loopKw | valKw | whileKw
  | name | number | binaryOperator | postfixOperator | prefixOperator | unknown | eof
  | whitespace | newline | lineComment | skippedTokens
  | list | module | valStmt | exprStmt | nameRef | literal | binaryExpr | postfixExpr | prefixExpr
  | parenExpr | callExpr | argList | typeArgs | error | tombstone
deriving DecidableEq, Repr, Inhabited

namespace Kind

/-- Every kind, in order of declaration. -/
def all : List Kind :=
  [.leftParen, .rightParen, .leftBracket, .rightBracket, .leftBrace, .rightBrace, .less, .greater,
   .comma, .colon, .semicolon, .eq, .dot, .funKw, .ifKw, .loopKw, .valKw, .whileKw, .name,
   .number, .binaryOperator, .postfixOperator, .prefixOperator, .unknown, .eof, .whitespace,
   .newline, .lineComment, .skippedTokens, .list, .module, .valStmt, .exprStmt, .nameRef,
   .literal, .binaryExpr, .postfixExpr, .prefixExpr, .parenExpr, .callExpr, .argList, .typeArgs,
   .error, .tombstone]

/-- The position of a kind in the order of declaration, from 0. -/
def index (k : Kind) : Nat := k.ctorIdx

/-- Trivia is text without meaning that is attached in front of the token that follows it. -/
def isTrivia : Kind → Bool
  | whitespace | newline | lineComment | skippedTokens => true
  | _ => false

def isList : Kind → Bool
  | list => true
  | _ => false

def text : Kind → String
  | leftParen => "LEFT_PAREN"
  | rightParen => "RIGHT_PAREN"
  | leftBracket => "LEFT_BRACKET"
  | rightBracket => "RIGHT_BRACKET"
  | leftBrace => "LEFT_BRACE"
  | rightBrace => "RIGHT_BRACE"
  | less => "LESS"
  | greater => "GREATER"
  | comma => "COMMA"
  | colon => "COLON"
  | semicolon => "SEMICOLON"
  | eq => "EQ"
  | dot => "DOT"
  | funKw => "FUN_KW"
  | ifKw => "IF_KW"
  | loopKw => "LOOP_KW"
  | valKw => "VAL_KW"
  | whileKw => "WHILE_KW"
  | name => "NAME"
  | number => "NUMBER"
  | binaryOperator => "BINARY_OPERATOR"
  | postfixOperator => "POSTFIX_OPERATOR"
  | prefixOperator => "PREFIX_OPERATOR"
  | unknown => "UNKNOWN"
  | eof => "EOF"
  | whitespace => "WHITESPACE"
  | newline => "NEWLINE"
  | lineComment => "LINE_COMMENT"
  | skippedTokens => "SKIPPED_TOKENS"
  | list => "LIST"
  | module => "MODULE"
  | valStmt => "VAL_STMT"
  | exprStmt => "EXPR_STMT"
  | nameRef => "NAME_REF"
  | literal => "LITERAL"
  | binaryExpr => "BINARY_EXPR"
  | postfixExpr => "POSTFIX_EXPR"
  | prefixExpr => "PREFIX_EXPR"
  | parenExpr => "PAREN_EXPR"
  | callExpr => "CALL_EXPR"
  | argList => "ARG_LIST"
  | typeArgs => "TYPE_ARGS"
  | error => "ERROR"
  | tombstone => "TOMBSTONE"

def ofText? (s : String) : Option Kind := all.find? (·.text == s)

end Kind

end LosslessSyntax
