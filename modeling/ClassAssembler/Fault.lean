import ClassAssembler.Body.Scope
import ClassAssembler.Code.Fault
import ClassAssembler.Member
import ClassAssembler.Text.Quoted

/-!
# Faults of the builder

Why a call that describes a method body, or declares a member, is refused. Each fault is a cause
with the things it is about; `message` puts it into words.
-/

namespace ClassAssembler

/-- Label of a switch case: a number, or a string or constant name. -/
inductive CaseLabel where
  | int (value : Int32)
  | text (text : String)
  deriving DecidableEq

def CaseLabel.display : CaseLabel → String
  | .int value => toString value.toInt
  | .text string => Text.quoted string

/-- The parts a try statement is built from, and the two ends of it. -/
inductive TryCall where
  | body | catchClause | finallyBlock
  | exit
  | finish
  deriving DecidableEq

def TryCall.describe : TryCall → String
  | .body => "body"
  | .catchClause => "catch"
  | .finallyBlock => "finally"
  | .exit => "exit"
  | .finish => "end"

inductive TryStage where
  | fresh | body | catches | finished
  deriving DecidableEq

def TryStage.describe : TryStage → String
  | .fresh => "without a body"
  | .body => "with a body"
  | .catches => "with catch clauses"
  | .finished => "with a finally block"

inductive TryDisorder where
  | at (stage : TryStage)
  /-- A try statement inside this one was never finished. -/
  | unfinishedInner
  deriving DecidableEq

def TryDisorder.describe : TryDisorder → String
  | .at stage => stage.describe
  | .unfinishedInner => "with an unfinished nested try"

inductive Expectation where
  | type (type : FieldType)
  | sameKind | integral | numeric | number | intOrLong | reference | primitive | wrapper
  | conversion | exception | array | enumConstant
  | nothing
  deriving DecidableEq

def Expectation.describe : Expectation → String
  | .type expected => Descriptor.render expected
  | .sameKind => "numeric operands of the same kind"
  | .integral => "integral operands"
  | .numeric => "numeric operands"
  | .number => "a numeric value"
  | .intOrLong => "I or J"
  | .reference => "a reference"
  | .primitive => "a primitive value"
  | .wrapper => "a primitive wrapper"
  | .conversion => "a numeric conversion"
  | .exception => "an exception object"
  | .array => "an array"
  | .enumConstant => "an enum constant"
  | .nothing => "no value (the method returns void)"

inductive Finding where
  | type (type : FieldType)
  | pair (first second : FieldType)
  | conversion (source target : FieldType)
  | nothing
  deriving DecidableEq

def Finding.describe : Finding → String
  | .type found => Descriptor.render found
  | .pair first second => Descriptor.render first ++ " and " ++ Descriptor.render second
  | .conversion source target => Descriptor.render source ++ " to " ++ Descriptor.render target
  | .nothing => "no value"

/-- What the class file format, or this library, has no room for. -/
inductive Limit where
  | tooManyArguments (method : MethodRef)
  | notConstructor (method : MethodRef)
  /-- A constructor of a class other than the one being built and its super class. -/
  | strangeConstructor (method : MethodRef) (owner : ClassName)
  | instanceField (owner : ClassName) (field : MemberName)
  | bodyMissing (method : MethodRef)
  | bodyRequired (method : MethodRef)
  | bodyForbidden (method : MemberName)
  | interfaceConstructor (owner : ClassName)
  | readTooEarly
  /-- A name in a plan that stands for nothing, or for a thing of another sort. -/
  | unbound (name : String)
  deriving DecidableEq

def Limit.describe : Limit → String
  | .tooManyArguments method => method.display ++ " has too many arguments"
  | .notConstructor method => method.display ++ " is not a constructor"
  | .strangeConstructor method owner =>
      method.display ++ " is not a constructor of " ++ owner.text ++ " or its super class"
  | .instanceField owner field =>
      "interface " ++ owner.text ++ " cannot have instance field " ++ field.text
  | .bodyMissing method =>
      method.display ++ " is neither abstract nor native, so it needs a body"
  | .bodyRequired method => method.display ++ " must have a body"
  | .bodyForbidden method =>
      method.text ++ " is abstract or native, so it cannot have a body"
  | .interfaceConstructor owner => "interface " ++ owner.text ++ " cannot have constructors"
  | .readTooEarly => "value read before the operation producing it"
  | .unbound name => "driver has no " ++ name

inductive Fault where
  | code (fault : CodeFault)
  /-- A value, or the target of a jump, used outside the scope that owns it. -/
  | scopeViolation (owner consumer : ScopeKind)
  | foreignHandle
  | notALoop (target : ScopeKind)
  | duplicateCase (label : CaseLabel)
  | duplicateDefault
  | caseMismatch (label : CaseLabel)
  | duplicateCatch (caught : ClassName)
  | tryOrder (call : TryCall) (disorder : TryDisorder)
  | missingTerminal (method : MethodRef)
  | missingInit (method : MethodRef)
  /-- A field of the object under construction is used before its constructor call. -/
  | earlyField (field : MemberName)
  | notInConstructor
  | arity (method : MethodRef) (expected found : Nat)
  | typeMismatch (expected : Expectation) (found : Finding)
  | duplicateField (name : MemberName) (type : FieldType)
  | duplicateMethod (name : MemberName) (type : MethodType)
  | noReceiver
  | noParameter (index : Nat)
  | incompleteClass (name : ClassName)
  | malformedName (flaw : NameFlaw)
  | unsupported (limit : Limit)
  deriving DecidableEq

def Fault.message : Fault → String
  | .code fault => fault.message
  | .scopeViolation owner consumer =>
      "value owned by the " ++ owner.describe ++ " used from the " ++ consumer.describe
  | .foreignHandle => "handle belongs to a different method body"
  | .notALoop target => "`continue` needs a loop, but targets the " ++ target.describe
  | .duplicateCase label => "duplicate case label " ++ label.display
  | .duplicateDefault => "switch already has a default case"
  | .caseMismatch label =>
      "case label " ++ label.display ++ " does not fit the switch discriminant"
  | .duplicateCatch caught =>
      "exception type " ++ caught.text ++ " is already caught by an earlier clause"
  | .tryOrder call disorder =>
      "`" ++ call.describe ++ "` is not allowed on a try block " ++ disorder.describe
  | .missingTerminal method =>
      "method " ++ method.display ++ " can complete without a return or throw"
  | .missingInit method =>
      "constructor " ++ method.display ++ " never calls a constructor on `this`"
  | .earlyField field =>
      "field " ++ field.text ++ " of `this` is accessed before the constructor call"
  | .notInConstructor => "constructor calls on `this` are only allowed in constructors"
  | .arity method expected found =>
      method.display ++ " takes " ++ toString expected ++ " arguments, but " ++
        toString found ++ " were supplied"
  | .typeMismatch expected found =>
      "expected a value of type " ++ expected.describe ++ ", found " ++ found.describe
  | .duplicateField name type =>
      "member " ++ name.text ++ " " ++ Descriptor.render type ++ " is declared more than once"
  | .duplicateMethod name type =>
      "member " ++ name.text ++ " " ++ Descriptor.render type ++ " is declared more than once"
  | .noReceiver => "static methods have no receiver"
  | .noParameter index => "method has no parameter " ++ toString index
  | .incompleteClass name => "type " ++ name.text ++ " has a method which failed to build"
  | .malformedName flaw => "malformed name: " ++ flaw.message
  | .unsupported limit => "unsupported: " ++ limit.describe

end ClassAssembler
