import BraceLang.Ty

/-!
What checking can find wrong with a program, and the sentence that tells it. Findings are
data: they are collected, and none of them stops the checking.
-/

namespace BraceLang

inductive Finding where
  | doubleDeclaration (name : String)
  | unknownType (text : String)
  | voidVariable (name : String)
  | undeclaredIdentifier (name : String)
  | uninitializedUse (name : String)
  | notAFunction (name : String)
  | notAVariable (name : String)
  | notAnArray (name : String)
  | nonIntegerIndex (found : Ty)
  | incompatibleType (expected found : Ty)
  | incompatibleSignature (name : String)
  | functionRedefinition (name : String)
  | arithmeticTypeError (operator : String) (found : Ty)
  | arityMismatch (name : String) (expected found : Nat)
  | argumentTypeMismatch (name : String) (position : Nat) (expected found : Ty)
  | voidValueUsed (name : String)
  | breakOutsideLoop
  | continueOutsideLoop
  | missingReturn (name : String) (result : Ty)
  | missingReturnValue (name : String) (result : Ty)
  | unexpectedReturnValue (name : String)
  | returnOutsideFunction
  | missingToken (token : String)
  | unusedVariable (name : String)
  | undefinedFunction (name : String)
deriving DecidableEq, Repr

/-- A text between backquotes. -/
private def quoted (text : String) : String := "`" ++ text ++ "`"

/-- The sentence that tells the finding. -/
def Finding.message : Finding → String
  | doubleDeclaration name => "Symbol " ++ quoted name ++ " is already declared in this scope"
  | unknownType text => "Unknown type " ++ quoted text
  | voidVariable name => "Variable " ++ quoted name ++ " cannot have type `void`"
  | undeclaredIdentifier name => "Symbol " ++ quoted name ++ " is undefined"
  | uninitializedUse name => "Variable " ++ quoted name ++ " is used before being initialized"
  | notAFunction name => "Symbol " ++ quoted name ++ " is not a function"
  | notAVariable name => "Expected variable, found function " ++ quoted name
  | notAnArray name => "Symbol " ++ quoted name ++ " is not an array"
  | nonIntegerIndex found => "Array index must be integral, found " ++ quoted found.name
  | incompatibleType expected found =>
      "Type mismatch: expected " ++ quoted expected.name ++ ", found " ++ quoted found.name
  | incompatibleSignature name =>
      "Declaration of " ++ quoted name ++ " conflicts with a previous signature"
  | functionRedefinition name => "Redefinition of function " ++ quoted name
  | arithmeticTypeError operator found =>
      "Operator " ++ quoted operator ++ " cannot be applied to " ++ quoted found.name
  | arityMismatch name expected found =>
      "Function " ++ quoted name ++ " takes " ++ toString expected ++ " arguments, but " ++
        toString found ++ " were supplied"
  | argumentTypeMismatch name position expected found =>
      "Argument " ++ toString position ++ " of " ++ quoted name ++ ": expected " ++
        quoted expected.name ++ ", found " ++ quoted found.name
  | voidValueUsed name =>
      "Function " ++ quoted name ++ " returns `void` and its result cannot be used"
  | breakOutsideLoop => "`break` outside of a loop"
  | continueOutsideLoop => "`continue` outside of a loop"
  | missingReturn name result =>
      "Function " ++ quoted name ++ " must return a value of type " ++ quoted result.name
  | missingReturnValue name result =>
      "`return` without a value in function " ++ quoted name ++ ", which returns " ++
        quoted result.name
  | unexpectedReturnValue name =>
      "Function " ++ quoted name ++ " returns `void` but `return` carries a value"
  | returnOutsideFunction => "`return` outside of a function"
  | missingToken token => "Expected " ++ quoted token
  | unusedVariable name => "Variable " ++ quoted name ++ " is never used"
  | undefinedFunction name => "Function " ++ quoted name ++ " is called but never defined"

end BraceLang
