/-
What a running program can do wrong and catch.

A complaint is raised as an exception whose value is its wording; a `try` around it can catch it.

* `Complaint` — the causes;
* `Complaint.message` — the wording of each.
-/
import Rewind.Token
import Rewind.Value.Kind

namespace Rewind

/-- What an attribute was looked for on. -/
inductive AttributeOwner where
  | object (blueprint : String)
  | blueprint (name : String)
  | value (kind : ValueKind)

namespace AttributeOwner

def text : AttributeOwner → String
  | object name => "Object of blueprint '" ++ name ++ "'"
  | blueprint name => "Blueprint '" ++ name ++ "'"
  | value kind => "Value of type " ++ kind.name

end AttributeOwner

/-- The causes of the exceptions that evaluation itself raises. -/
inductive Complaint where
  -- names and calls
  | undefinedVariable (name : String)
  | notCallable (kind : ValueKind)
  | initMissing (blueprint : String)
  | tooManyArguments (function : String) (expected given : Nat)
  | unknownParameter (function parameter : String)
  | repeatedArgument (argument function : String)
  | missingArgument (argument function : String)
  -- operators
  | incomparable (left right : ValueKind) (op : String)
  | unsupported (op : String) (left right : ValueKind)
  | overflow (op : String)
  | divisionByZero
  | moduloByZero
  | negativeRepeat
  | negationOverflow
  | notNegatable (kind : ValueKind)
  -- attributes and items
  | noAttribute (owner : AttributeOwner) (name : String)
  | indexOutOfBounds (index : Int) (length : Nat)
  | stringIndexOutOfBounds (index : Int) (length : Nat)
  | indexNotInteger (kind : ValueKind)
  | keyNotFound (key : String)
  | keyNotString (kind : ValueKind)
  | notIndexable (kind : ValueKind)
  | arrayIndexOutOfBounds (index : Int) (length : Nat)
  | arrayIndexNotInteger (kind : ValueKind)
  | tupleImmutable
  | stringImmutable
  | noItemAssignment (kind : ValueKind)
  | noAttributeAssignment (name : String) (kind : ValueKind)
  -- blueprints
  | superOutsideMethod
  | superWithoutObject
  | noParentBlueprint (blueprint : String)
  | notABlueprint (name : String) (kind : ValueKind)
  | parentUndefined (name : String)
  | asyncText
  | textNotString (kind : ValueKind)
  -- statements
  | raisedNonString (kind : ValueKind)
  | conditionNotBoolean (kind : ValueKind)
  | boundNotNumber (kind : ValueKind)
  | zeroStep
  | notIterable (kind : ValueKind)
  | exportMissing (name module : String)
  | moduleNotFound (name : String)
  -- built-in functions
  | unexpectedNamed (native : Native) (name : String)
  | wrongArity (native : Native) (least most given : Nat)
  | lengthUnsupported (kind : ValueKind)
  | sliceNotString (kind : ValueKind)
  | sliceIndexNotInteger (kind : ValueKind)
  | appendNotArray
  -- coroutines
  | awaitedNonCoroutine (kind : ValueKind)
  | awaitedItself
  | coroutineExpected (native : Native) (kind : ValueKind)
  | loopAlreadyRunning
  | rootAlreadyStarted (coroutine : String)
  | rootCancelled (coroutine : String)
  | taskAlreadyStarted
  | loopNotRunning
  | negativeRest
  | restNotNumber (kind : ValueKind)
  | restTooLong (duration : String)
  | gatherNotArray (kind : ValueKind)
  | returnExceptionsTwice
  | cancelled

namespace Complaint

/-- The wording of a complaint, which is the value of the exception it is raised as. -/
def message : Complaint → String
  | undefinedVariable name => s!"Undefined variable '{name}'."
  | notCallable kind => "Value of type " ++ kind.name ++ " is not callable."
  | initMissing blueprint => s!"Blueprint '{blueprint}' has no 'init' and takes no arguments."
  | tooManyArguments function expected given =>
    s!"Function '{function}' takes {expected} argument(s) but {given} were given."
  | unknownParameter function parameter =>
    s!"Function '{function}' has no parameter named '{parameter}'."
  | repeatedArgument argument function =>
    s!"Argument '{argument}' given more than once in call to '{function}'."
  | missingArgument argument function => s!"Missing argument '{argument}' in call to '{function}'."
  | incomparable left right op =>
    "Cannot compare " ++ left.name ++ " with " ++ right.name ++ " using '" ++ op ++ "'."
  | unsupported op left right =>
    "Unsupported operand types for '" ++ op ++ "': " ++ left.name ++ " and " ++ right.name ++ "."
  | overflow op => s!"Integer overflow in '{op}'."
  | divisionByZero => "Division by zero."
  | moduloByZero => "Modulo by zero."
  | negativeRepeat => "String repeat count cannot be negative."
  | negationOverflow => "Integer overflow in unary '-'."
  | notNegatable kind => "Cannot negate a value of type " ++ kind.name ++ "."
  | noAttribute owner name => owner.text ++ " has no attribute '" ++ name ++ "'."
  | indexOutOfBounds index length => s!"Index {index} out of bounds for length {length}."
  | stringIndexOutOfBounds index length =>
    s!"String index {index} out of bounds for length {length}."
  | indexNotInteger kind => "Index must be an integer, got " ++ kind.name ++ "."
  | keyNotFound key => s!"Key '{key}' not found in dictionary."
  | keyNotString kind => "Dictionary keys must be strings, got " ++ kind.name ++ "."
  | notIndexable kind => "Value of type " ++ kind.name ++ " is not indexable."
  | arrayIndexOutOfBounds index length =>
    s!"Array index {index} out of bounds for length {length}."
  | arrayIndexNotInteger kind => "Array index must be an integer, got " ++ kind.name ++ "."
  | tupleImmutable => "Tuples are immutable."
  | stringImmutable => "Strings are immutable."
  | noItemAssignment kind => "Value of type " ++ kind.name ++ " does not support item assignment."
  | noAttributeAssignment name kind =>
    "Cannot set attribute '" ++ name ++ "' on a value of type " ++ kind.name ++ "."
  | superOutsideMethod => "'super' can only be used inside a blueprint method."
  | superWithoutObject => "'super' requires 'self' to be an object."
  | noParentBlueprint blueprint => s!"Blueprint '{blueprint}' has no parent blueprint."
  | notABlueprint name kind =>
    "Cannot inherit from '" ++ name ++ "': it is a " ++ kind.name ++ ", not a blueprint."
  | parentUndefined name => s!"Parent blueprint '{name}' is not defined."
  | asyncText => "'op_str' cannot be an async function."
  | textNotString kind => "'op_str' must return a string, got " ++ kind.name ++ "."
  | raisedNonString kind =>
    "Can only raise a string value as an exception, got " ++ kind.name ++ "."
  | conditionNotBoolean kind => "While loop condition must be a boolean, got " ++ kind.name ++ "."
  | boundNotNumber kind => "Range loop bounds must be numbers, got " ++ kind.name ++ "."
  | zeroStep => "Loop step cannot be zero."
  | notIterable kind => "Cannot iterate over a value of type " ++ kind.name ++ "."
  | exportMissing name module => s!"Cannot load '{name}' from module '{module}'."
  | moduleNotFound name => s!"Module '{name}' not found."
  | unexpectedNamed native name =>
    native.name ++ "() got an unexpected named argument '" ++ name ++ "'."
  | wrongArity native least most given =>
    let expected := if least = most then s!"{least}" else s!"{least} to {most}"
    native.name ++ "() takes " ++ expected ++ s!" argument(s) but {given} were given."
  | lengthUnsupported kind => "len() is not supported for type " ++ kind.name ++ "."
  | sliceNotString kind =>
    "slice() expects a string as its first argument, got " ++ kind.name ++ "."
  | sliceIndexNotInteger kind => "slice() indices must be integers, got " ++ kind.name ++ "."
  | appendNotArray => "append() can only be called on an array."
  | awaitedNonCoroutine kind => "Can only await a coroutine, got " ++ kind.name ++ "."
  | awaitedItself => "A coroutine cannot await itself."
  | coroutineExpected native kind =>
    native.name ++ "() expects a coroutine, got " ++ kind.name ++ "."
  | loopAlreadyRunning => "weave() cannot be called while the event loop is running."
  | rootAlreadyStarted coroutine =>
    s!"weave() requires a new coroutine; '{coroutine}' has already started."
  | rootCancelled coroutine => s!"weave() cannot run cancelled coroutine '{coroutine}'."
  | taskAlreadyStarted => "spawn_task() requires a coroutine that has not started."
  | loopNotRunning => "spawn_task() can only be called while the event loop is running."
  | negativeRest => "rest() duration cannot be negative."
  | restNotNumber kind => "rest() expects a duration in milliseconds, got " ++ kind.name ++ "."
  | restTooLong duration => s!"rest() duration {duration} is too large."
  | gatherNotArray kind => "gather() expects an array of coroutines, got " ++ kind.name ++ "."
  | returnExceptionsTwice => "gather() got 'return_exceptions' twice."
  | cancelled => "Error: Coroutine cancelled"

end Complaint

end Rewind
