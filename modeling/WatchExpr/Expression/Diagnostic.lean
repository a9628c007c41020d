import WatchExpr.Tree.Encode
import WatchExpr.Expression.Basic

namespace WatchExpr

inductive DiagnosticKind where
  /-- The expression itself. -/
  | malformedInput
  /-- The debug information lacks something. -/
  | missingInfo
  /-- A name is not known. -/
  | resolutionFailure
  deriving Repr, DecidableEq

def DiagnosticKind.name : DiagnosticKind → Text
  | malformedInput => "malformed input"
  | missingInfo => "missing info"
  | resolutionFailure => "resolution failure"

/-- What can be said against an expression. -/
inductive Complaint where
  | expectedExpression
  | unexpectedToken (literal : Text)
  | nestedTooDeeply
  | expectedColon
  | expectedAfterTernary
  | expectedOperand (operator : Text)
  | missingParenthesis
  | invalidNumber (literal : Text)
  | stringLiteral
  | invalidCharacter (literal : Text)
  | expectedMember (operator : Text)
  | unclosedBracket
  | unknownType (name : Text)
  | invalidArrayLength
  | unknownIdentifier (name : Text)
  | unterminatedChar
  | emptyChar
  | invalidEscape
  | multiCharLiteral
  | registerWithoutType (name : Text)
  | missingLocation (name : Text)
  | offsetOutOfRange (name : Text)
  | missingType (name : Text)
  | malformedLocation (name : Text) (cause : CodeError)
  | typeNotExpected
  | cannotRead (type : Text)
  | badOperand
  | badOperands
  | zeroSizedArithmetic
  | badCondition
  | branchMismatch
  | unknownCastType
  | pointerFloatCast
  | conversion (rule : ConversionRule)
  | sizeOfNothing
  | notDereferenceable
  | dereferenceIncomplete
  | dereferenceZeroSized
  | noAddress
  | badIndex
  | arrayWithoutBase
  | notIndexable
  | indexZeroSized
  | noMembers
  | unknownMember (name : Text)
  | cannotEncode (cause : EncodeError)
  | cannotEncodeValue (cause : EncodeError)
  deriving Repr, DecidableEq

namespace Complaint

def kind : Complaint → DiagnosticKind
  | unknownType _ | unknownIdentifier _ => .resolutionFailure
  | registerWithoutType _ | missingLocation _ | offsetOutOfRange _ | missingType _
  | malformedLocation .. => .missingInfo
  | _ => .malformedInput

def isWarning : Complaint → Bool
  | multiCharLiteral => true
  | _ => false

def message : Complaint → Text
  | expectedExpression => "Expected expression."
  | unexpectedToken t => "Unexpected token '" ++ t ++ "'."
  | nestedTooDeeply => "Expression is nested too deeply."
  | expectedColon => "Expected : after ?."
  | expectedAfterTernary => "Expected expression after ?."
  | expectedOperand op => "Expected expression after " ++ op ++ "."
  | missingParenthesis => "Missing )."
  | invalidNumber t => "Invalid numeric literal '" ++ t ++ "'."
  | stringLiteral => "String literals are not supported."
  | invalidCharacter t => "Invalid character '" ++ t ++ "'."
  | expectedMember op => "Expected member name after " ++ op ++ "."
  | unclosedBracket => "Unclosed [."
  | unknownType n => "Unknown type \"" ++ n ++ "\"."
  | invalidArrayLength => "Invalid array length."
  | unknownIdentifier n => "Unknown identifier \"" ++ n ++ "\"."
  | unterminatedChar => "Unterminated character literal."
  | emptyChar => "Empty character literal."
  | invalidEscape => "Invalid escape sequence in character literal."
  | multiCharLiteral => "Multi-character literal; only the first character is used."
  | registerWithoutType n => "Register \"" ++ n ++ "\" has no scalar type."
  | missingLocation n => "Missing location information for \"" ++ n ++ "\"."
  | offsetOutOfRange n => "Offset of \"" ++ n ++ "\" is out of range."
  | missingType n => "Missing type information for \"" ++ n ++ "\"."
  | malformedLocation n e => "Malformed location for \"" ++ n ++ "\": " ++ e.message
  | typeNotExpected => "Type expression not expected."
  | cannotRead t => "Cannot read a value of type '" ++ t ++ "'."
  | badOperand => "Cannot perform operation on this type."
  | badOperands => "Cannot perform operation on these types."
  | zeroSizedArithmetic => "Cannot perform arithmetic on a pointer to a zero-sized type."
  | badCondition => "Condition must be an integer or pointer."
  | branchMismatch => "Left and right terms must have matching types."
  | unknownCastType => "Unknown type in cast."
  | pointerFloatCast => "Cannot convert between pointers and floating point types."
  | conversion rule => rule.message
  | sizeOfNothing => "Cannot take the size of this expression."
  | notDereferenceable => "Cannot dereference this type."
  | dereferenceIncomplete => "Cannot dereference a pointer to an incomplete type."
  | dereferenceZeroSized => "Cannot dereference a pointer to a zero-sized type."
  | noAddress => "Cannot take the address of this expression."
  | badIndex => "Cannot index with this type."
  | arrayWithoutBase => "(Not supported) Cannot index into array without base address."
  | notIndexable => "Cannot index into this type."
  | indexZeroSized => "Cannot index into a pointer to a zero-sized type."
  | noMembers => "Cannot perform member access on this type."
  | unknownMember n => "Could not find a member named '" ++ n ++ "' in type."
  | cannotEncode e => "Cannot encode expression: " ++ e.message
  | cannotEncodeValue e => "Cannot encode expression value: " ++ e.message

end Complaint

/-- A complaint about a place in the expression. -/
structure Diagnostic where
  offset : Nat
  complaint : Complaint
  deriving Repr, DecidableEq

namespace Diagnostic

def isError (d : Diagnostic) : Bool := !d.complaint.isWarning

def severity (d : Diagnostic) : Text := if d.isError then "error" else "warning"

def message (d : Diagnostic) : Text := d.complaint.message

def kind (d : Diagnostic) : DiagnosticKind := d.complaint.kind

def format (d : Diagnostic) : Text :=
  Text.decimal d.offset ++ ": " ++ d.severity ++ ": " ++ d.message

def anyError (ds : List Diagnostic) : Bool := ds.any isError

/-- All diagnostics on one line when there is an error among them. -/
def summary? (ds : List Diagnostic) : Option Text :=
  if anyError ds then some (Text.join "; " (ds.map format)) else none

end Diagnostic

end WatchExpr
