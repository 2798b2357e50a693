import FixedForm.Symbol.Basic
import FixedForm.Text.Nesting

/-!
What can be wrong with a unit, each with its code, its severity and its wording.
-/

namespace FixedForm

inductive Severity where
  | warning | info
  deriving DecidableEq, Repr

def Severity.name : Severity → Text
  | .warning => "warning"
  | .info => "info"

def Severity.ofName? (name : Text) : Option Severity :=
  [Severity.warning, .info].find? fun s => s.name == name

inductive Code where
  | unmatchedDelimiter | unresolvedSymbol | arityMismatch | ambiguousSubscript | computedReference
  | dynamicArray | unsupportedStatement | loopForm | redeclaredSymbol | leadingDimension
  | characterLength
  /-- A code from outside this library. -/
  | named (name : Text)
  deriving DecidableEq, Repr

namespace Code

def all : List Code :=
  [.unmatchedDelimiter, .unresolvedSymbol, .arityMismatch, .ambiguousSubscript, .computedReference,
    .dynamicArray, .unsupportedStatement, .loopForm, .redeclaredSymbol, .leadingDimension,
    .characterLength]

def name : Code → Text
  | .unmatchedDelimiter => "unmatched-delimiter"
  | .unresolvedSymbol => "unresolved-symbol"
  | .arityMismatch => "arity-mismatch"
  | .ambiguousSubscript => "ambiguous-subscript"
  | .computedReference => "computed-reference"
  | .dynamicArray => "dynamic-array"
  | .unsupportedStatement => "unsupported-statement"
  | .loopForm => "loop-form"
  | .redeclaredSymbol => "redeclared-symbol"
  | .leadingDimension => "leading-dimension"
  | .characterLength => "character-length"
  | .named name => name

def ofName (name : Text) : Code := (all.find? fun c => c.name == name).getD (.named name)

end Code

/-- Why a reference to an array needs a second look. -/
inductive Ambiguity where
  | nestedList
  | indexCount (kind : Kind) (name : Text) (count : Nat)
  deriving DecidableEq, Repr

inductive Issue where
  /-- An operand of `**` has no clear end. -/
  | powerOperand
  | mismatch (fault : Mismatch)
  | mismatchInSubscript (fault : Mismatch) (name : Text)
  | mismatchInBounds (fault : Mismatch) (counter : Text)
  | unclosedEntry (name : Text)
  | unclosedConstants
  | unclosedHeader (name : Text)
  | unclosedReference (name : Text)
  | unclosedWhile
  | unclosedCondition
  | undeclaredName (name : Text)
  | undeclaredArgument (name : Text)
  | untypedFunction (name : Text)
  | untypedConstant (name : Text)
  /-- A reference to an argument that no declaration describes. -/
  | unknownReference (name : Text)
  | undeclaredReference (name : Text)
  | arity (name : Text) (declared passed : Nat)
  | ambiguous (reference : Text) (reason : Ambiguity)
  | computedArgument (reference callee : Text)
  | foreignDimension (reference callee : Text)
  | openExtents (name : Text) (dimensions : List Text)
  | noEnd (name : Text)
  | implicitRules
  | laterUnit
  | rank (name : Text) (count : Nat)
  | unsupported (keyword : Text)
  | computedGoto
  | assignedGoto
  | arithmeticIf
  | missingLoopEnd (label : Text)
  | unknownLoop
  | boundCount (counter : Text) (count : Nat)
  | elseIfWithoutThen
  | redeclared (name : Text)
  | droppedStorage (name storage : Text)
  deriving DecidableEq, Repr

namespace Issue

def code : Issue → Code
  | .powerOperand | .mismatch _ | .mismatchInSubscript .. | .mismatchInBounds .. | .unclosedEntry _
  | .unclosedConstants | .unclosedHeader _ | .unclosedReference _ | .unclosedWhile
  | .unclosedCondition => .unmatchedDelimiter
  | .undeclaredName _ | .undeclaredArgument _ | .untypedFunction _ | .untypedConstant _
  | .unknownReference _ | .undeclaredReference _ => .unresolvedSymbol
  | .arity .. => .arityMismatch
  | .ambiguous .. => .ambiguousSubscript
  | .computedArgument .. => .computedReference
  | .foreignDimension .. => .leadingDimension
  | .openExtents .. => .dynamicArray
  | .noEnd _ | .implicitRules | .laterUnit | .rank .. | .unsupported _ | .computedGoto
  | .assignedGoto | .arithmeticIf => .unsupportedStatement
  | .missingLoopEnd _ | .unknownLoop | .boundCount .. | .elseIfWithoutThen => .loopForm
  | .redeclared _ => .redeclaredSymbol
  | .droppedStorage .. => .characterLength

def severity : Issue → Severity
  | .unknownReference _ | .undeclaredReference _ | .computedArgument .. | .foreignDimension ..
  | .openExtents .. => .info
  | _ => .warning

def number (n : Nat) : Text := Nat.toDigits 10 n

def message : Issue → Text
  | .powerOperand => "could not delimit the operands of '**'"
  | .mismatch fault => fault.message
  | .mismatchInSubscript fault name => fault.message ++ " in the subscript of " ++ name
  | .mismatchInBounds fault counter =>
    fault.message ++ " in the bounds of the DO loop over " ++ counter
  | .unclosedEntry name => "unclosed '(' in the declaration of " ++ name
  | .unclosedConstants => "PARAMETER list is not closed"
  | .unclosedHeader name =>
    "unclosed '(' in the header of " ++ name ++
      "; its arguments are read to the end of the line"
  | .unclosedReference name => "unclosed '(' after " ++ name
  | .unclosedWhile => "unclosed '(' in the DO WHILE condition"
  | .unclosedCondition => "unclosed '(' in the IF condition"
  | .undeclaredName name => name ++ " is used but never declared"
  | .undeclaredArgument name => "argument " ++ name ++ " is never declared"
  | .untypedFunction name => "function " ++ name ++ " has no declared type"
  | .untypedConstant name => "PARAMETER " ++ name ++ " has no type declaration"
  | .unknownReference name =>
    name ++ " has no declaration; " ++ name ++ "(...) is left as written"
  | .undeclaredReference name =>
    name ++ " is not declared; " ++ name ++ "(...) is left as written"
  | .arity name declared passed =>
    "Argument number mismatch in call to " ++ name ++ ": " ++ number declared ++ " declared, " ++
      number passed ++ " passed"
  | .ambiguous reference .nestedList =>
    "check " ++ reference ++ ": an index holds a nested argument list"
  | .ambiguous reference (.indexCount kind name count) =>
    "check " ++ reference ++ ": " ++ kind.name ++ " " ++ name ++ " is referenced with " ++
      number count ++ " index terms"
  | .computedArgument reference callee =>
    reference ++ " is part of a computed argument to " ++ callee ++ "; it is passed by value"
  | .foreignDimension reference callee =>
    reference ++ " is passed to " ++ callee ++
      ", which indexes it with its own leading dimension"
  | .openExtents name dimensions =>
    name ++ "(" ++ Text.join "," dimensions ++
      ") has non-literal dimensions; allocate it by hand"
  | .noEnd name => name ++ " has no END statement"
  | .implicitRules => "implicit typing rules are not applied"
  | .laterUnit => "only the first unit of a file is translated"
  | .rank name count =>
    name ++ " has rank " ++ number count ++ "; only vectors and matrices are linearized"
  | .unsupported keyword => keyword ++ " statement is not translated"
  | .computedGoto => "computed GO TO is not translated"
  | .assignedGoto => "assigned GO TO is not translated"
  | .arithmeticIf => "arithmetic IF is not translated"
  | .missingLoopEnd label =>
    "label " ++ label ++ " ending this loop never appears; its block is not closed"
  | .unknownLoop => "DO statement is not a counted or DO WHILE loop; left as written"
  | .boundCount counter count =>
    "DO loop over " ++ counter ++ " has " ++ number count ++ " bounds; left as written"
  | .elseIfWithoutThen => "ELSE IF without THEN; left as written"
  | .redeclared name => name ++ " is declared more than once; the first declaration is kept"
  | .droppedStorage name storage =>
    name ++ " is a char pointer; the length of its elements (" ++ storage ++
      " with the terminator) is dropped"

end Issue

end FixedForm
