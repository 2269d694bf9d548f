/-!
What can be wrong with a line of a program.
-/
namespace MixComputer.Source

inductive Malformation where
  | missingOperation
  | symbolTooLong (text : String)
  | notASymbol (text : String)
  | addressField (text : String)
  | wValue (text : String)
deriving DecidableEq

inductive Quantity where
  | number
  | expression
  | location
  | index
  | field
  | address
  | wValue
  | entryPoint
deriving DecidableEq

inductive Error where
  | unknownOperation (name : String)
  | duplicateSymbol (name : String) (value : Int)
  | malformed (cause : Malformation)
  /-- A symbol without a value stands where one is needed at once. -/
  | futureReference (name : String)
  | outOfRange (quantity : Quantity) (value : Int)
  | divisionByZero
  /-- A symbol was given a word of its own because no line defines it. -/
  | undefinedSymbol (name : String) (location : Nat)
  | badCharacter (c : Char)
deriving DecidableEq

def maxSymbolLength : Nat := 10

def quoted (s : String) : String := "`" ++ s ++ "`"

def Malformation.message : Malformation → String
  | missingOperation => "missing operation"
  | symbolTooLong text =>
    "symbol " ++ quoted text ++ " is longer than " ++ toString maxSymbolLength ++ " characters"
  | notASymbol text => quoted text ++ " is not a symbol"
  | addressField text => "malformed address field " ++ quoted text
  | wValue text => "malformed W-value " ++ quoted text

def Quantity.name : Quantity → String
  | number => "number"
  | expression => "expression"
  | location => "location"
  | index => "index"
  | field => "field"
  | address => "address"
  | wValue => "W-value"
  | entryPoint => "entry point"

def Error.message : Error → String
  | unknownOperation name => "unrecognized operation " ++ quoted name
  | duplicateSymbol name value =>
    "duplicate symbol " ++ quoted name ++ ", first defined as " ++ toString value
  | malformed cause => cause.message
  | futureReference name => "future reference to " ++ quoted name ++ " is not allowed here"
  | outOfRange quantity value => quantity.name ++ " " ++ toString value ++ " out of range"
  | divisionByZero => "division by zero"
  | undefinedSymbol name location =>
    "undefined symbol " ++ quoted name ++ " defined at location " ++ toString location
  | badCharacter c => "character " ++ quoted (String.singleton c) ++ " has no MIX code"

end MixComputer.Source
