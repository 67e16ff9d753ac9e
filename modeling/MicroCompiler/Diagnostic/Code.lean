/-! Codes of diagnostics. The first digit gives the phase: 0 for the scanner, 1 for the parser, 9
for faults of the compiler itself. -/

namespace MicroCompiler.Diagnostic

inductive Code where
  | unterminatedString | unexpectedCharacter | numberOutOfRange | newlineInString | unknownEscape
  | unknownDirective
  | unexpectedToken | expectedExpression | expectedIdentifier | expectedType | variadicNotLast
  | missingBody | initializerCount | missingInitializer | expectedDeclaration
  | internal
  deriving DecidableEq, Repr, Inhabited

namespace Code

def all : List Code :=
  [.unterminatedString, .unexpectedCharacter, .numberOutOfRange, .newlineInString, .unknownEscape,
    .unknownDirective, .unexpectedToken, .expectedExpression, .expectedIdentifier, .expectedType,
    .variadicNotLast, .missingBody, .initializerCount, .missingInitializer,
    .expectedDeclaration, .internal]

def text : Code → String
  | .unterminatedString => "E0001"
  | .unexpectedCharacter => "E0002"
  | .numberOutOfRange => "E0003"
  | .newlineInString => "E0004"
  | .unknownEscape => "E0005"
  | .unknownDirective => "E0006"
  | .unexpectedToken => "E1001"
  | .expectedExpression => "E1002"
  | .expectedIdentifier => "E1003"
  | .expectedType => "E1004"
  | .variadicNotLast => "E1005"
  | .missingBody => "E1006"
  | .initializerCount => "E1007"
  | .missingInitializer => "E1008"
  | .expectedDeclaration => "E1009"
  | .internal => "E9001"

def ofText? (s : String) : Option Code := all.find? (·.text == s)

/-- Whether the code belongs to the scanner. -/
def isLexical : Code → Bool
  | .unterminatedString | .unexpectedCharacter | .numberOutOfRange | .newlineInString
  | .unknownEscape
  | .unknownDirective => true
  | _ => false

end Code

end MicroCompiler.Diagnostic
