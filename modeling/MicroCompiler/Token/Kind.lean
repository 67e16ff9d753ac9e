/-! Kinds of tokens. Fixed lexemes carry their spelling; malformed pieces of text are kinds too, so
that scanning never fails and whoever reads the tokens decides what an error token means. -/

namespace MicroCompiler.Token

inductive Kind where
  | identifier | number | string
  | kwIf | kwElse | kwWhile | kwStruct | kwFunc | kwVar | kwDefer | kwReturn
  | kwBreak | kwContinue | kwNil
  | loadDirective | foreignDirective | opaqueDirective | externDirective | exportScope | moduleScope
  | colonColon | colonEqual | colon | semicolon | comma | dot | ellipsis
  | leftParen | rightParen | leftBrace | rightBrace | leftBracket | rightBracket
  | plus | minus | star | slash | percent | ampersand | pipe | caret | tilde | bang
  | equal | equalEqual | bangEqual | less | lessEqual | greater | greaterEqual
  | shiftLeft | shiftRight | ampAmp | pipePipe
  | unexpected | unterminatedString | newlineInString | unknownEscape | unknownDirective
  | eof
  deriving DecidableEq, Repr, Inhabited

namespace Kind

/-- Whether the kind stands for a malformed piece of text. -/
def isError : Kind → Bool
  | .unexpected | .unterminatedString | .newlineInString | .unknownEscape | .unknownDirective =>
    true
  | _ => false

/-- The reserved words. -/
def keywords : List Kind :=
  [.kwIf, .kwElse, .kwWhile, .kwStruct, .kwFunc, .kwVar, .kwDefer, .kwReturn, .kwBreak,
    .kwContinue, .kwNil]

/-- The words that a number sign may introduce. -/
def directives : List Kind :=
  [.loadDirective, .foreignDirective, .opaqueDirective, .externDirective,
    .exportScope, .moduleScope]

/-- Operators and punctuation. A spelling stands before every spelling that begins it, so the first
match in this order is the longest. -/
def symbols : List Kind :=
  [.colonColon, .colonEqual, .colon, .ellipsis, .dot, .equalEqual, .equal, .bangEqual, .bang,
    .shiftLeft, .lessEqual, .less, .shiftRight, .greaterEqual, .greater, .ampAmp, .ampersand,
    .pipePipe, .pipe, .semicolon, .comma, .leftParen, .rightParen, .leftBrace, .rightBrace,
    .leftBracket, .rightBracket, .plus, .minus, .star, .slash, .percent, .caret, .tilde]

/-- The spelling of a fixed lexeme. -/
def spelling? : Kind → Option String
  | .kwIf => some "if"
  | .kwElse => some "else"
  | .kwWhile => some "while"
  | .kwStruct => some "struct"
  | .kwFunc => some "func"
  | .kwVar => some "var"
  | .kwDefer => some "defer"
  | .kwReturn => some "return"
  | .kwBreak => some "break"
  | .kwContinue => some "continue"
  | .kwNil => some "nil"
  | .loadDirective => some "#load"
  | .foreignDirective => some "#foreign"
  | .opaqueDirective => some "#opaque"
  | .externDirective => some "#extern"
  | .exportScope => some "#export_scope"
  | .moduleScope => some "#module_scope"
  | .colonColon => some "::"
  | .colonEqual => some ":="
  | .colon => some ":"
  | .semicolon => some ";"
  | .comma => some ","
  | .dot => some "."
  | .ellipsis => some "..."
  | .leftParen => some "("
  | .rightParen => some ")"
  | .leftBrace => some "\x7b"
  | .rightBrace => some "\x7d"
  | .leftBracket => some "["
  | .rightBracket => some "]"
  | .plus => some "+"
  | .minus => some "-"
  | .star => some "*"
  | .slash => some "/"
  | .percent => some "%"
  | .ampersand => some "&"
  | .pipe => some "|"
  | .caret => some "^"
  | .tilde => some "~"
  | .bang => some "!"
  | .equal => some "="
  | .equalEqual => some "=="
  | .bangEqual => some "!="
  | .less => some "<"
  | .lessEqual => some "<="
  | .greater => some ">"
  | .greaterEqual => some ">="
  | .shiftLeft => some "<<"
  | .shiftRight => some ">>"
  | .ampAmp => some "&&"
  | .pipePipe => some "||"
  | _ => none

/-- The bytes of a fixed lexeme, empty for the other kinds. -/
def spellingBytes (k : Kind) : List UInt8 := (k.spelling?.getD "").toByteArray.data.toList

/-- How messages name a token of this kind: a fixed lexeme in backticks, any other by its class. -/
def describe (k : Kind) : String :=
  match k.spelling? with
  | some s => "`" ++ s ++ "`"
  | none =>
    match k with
    | .identifier => "identifier"
    | .number => "number literal"
    | .string => "string literal"
    | .unexpected => "unexpected characters"
    | .unterminatedString => "unterminated string literal"
    | .newlineInString => "newline in string literal"
    | .unknownEscape => "unknown escape sequence"
    | .unknownDirective => "unknown directive"
    | _ => "end of file"

/-- The name under which token listings show a kind. -/
def name : Kind → String
  | .identifier => "Identifier"
  | .number => "Number"
  | .string => "StringLiteral"
  | .kwIf => "If"
  | .kwElse => "Else"
  | .kwWhile => "While"
  | .kwStruct => "Struct"
  | .kwFunc => "Func"
  | .kwVar => "Var"
  | .kwDefer => "Defer"
  | .kwReturn => "Return"
  | .kwBreak => "Break"
  | .kwContinue => "Continue"
  | .kwNil => "Nil"
  | .loadDirective => "Load"
  | .foreignDirective => "Foreign"
  | .opaqueDirective => "Opaque"
  | .externDirective => "Extern"
  | .exportScope => "ExportScope"
  | .moduleScope => "ModuleScope"
  | .colonColon => "ColonColon"
  | .colonEqual => "ColonEqual"
  | .colon => "Colon"
  | .semicolon => "Semicolon"
  | .comma => "Comma"
  | .dot => "Dot"
  | .ellipsis => "Ellipsis"
  | .leftParen => "LeftParen"
  | .rightParen => "RightParen"
  | .leftBrace => "LeftBrace"
  | .rightBrace => "RightBrace"
  | .leftBracket => "LeftBracket"
  | .rightBracket => "RightBracket"
  | .plus => "Plus"
  | .minus => "Minus"
  | .star => "Star"
  | .slash => "Slash"
  | .percent => "Percent"
  | .ampersand => "Ampersand"
  | .pipe => "Pipe"
  | .caret => "Caret"
  | .tilde => "Tilde"
  | .bang => "Bang"
  | .equal => "Equal"
  | .equalEqual => "EqualEqual"
  | .bangEqual => "BangEqual"
  | .less => "Less"
  | .lessEqual => "LessEqual"
  | .greater => "Greater"
  | .greaterEqual => "GreaterEqual"
  | .shiftLeft => "ShiftLeft"
  | .shiftRight => "ShiftRight"
  | .ampAmp => "AmpAmp"
  | .pipePipe => "PipePipe"
  | .unexpected => "UnexpectedSequenceOfChars"
  | .unterminatedString => "UnterminatedString"
  | .newlineInString => "NewlineInString"
  | .unknownEscape => "UnknownEscapeSequence"
  | .unknownDirective => "UnknownDirective"
  | .eof => "Eof"

end Kind

end MicroCompiler.Token
