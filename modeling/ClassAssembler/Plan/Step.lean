import ClassAssembler.Instruction.Basic
import ClassAssembler.Plan.Source

/-!
# Steps

A method body written down as data. What a step yields is bound to a name, and later steps use it
by that name. Types and members are given by their texts.
-/

namespace ClassAssembler

inductive Given (α : Type) where
  | named (name : String)
  | here (source : α)

abbrev GivenField := Given FieldSource
abbrev GivenMethod := Given MethodSource

inductive ValueStep where
  | constInt (n : Int32)
  | constLong (n : Int64)
  | constFloat (bits : UInt32)
  | constDouble (bits : UInt64)
  | constBool (b : Bool)
  | constString (text : String)
  | constNull (type : String)
  | constClass (type : String)
  | param (index : Nat)
  | receiver
  | get (var : String)
  | arith (op : ArithOp) (left right : String)
  | bitwise (op : BitOp) (left right : String)
  | shift (direction : Shift) (value amount : String)
  | compare (ord : OrdTest) (left right : String)
  | neg (value : String)
  | not (value : String)
  | nullCheck (same : EqTest) (value : String)
  | box (value : String)
  | unbox (value : String)
  | convert (value type : String)
  | cast (value type : String)
  | instanceOf (value type : String)
  | newInstance (constructor : GivenMethod) (args : List String)
  | getField (field : GivenField) (object : String)
  | getStatic (field : GivenField)
  | newArray (type length : String)
  | arrayLength (array : String)
  | arrayLoad (array index : String)

inductive CallKind where
  | static
  | virtual (receiver : String)
  | interface (receiver : String)
  | special (receiver : String)

inductive ActionStep where
  | scope (bind : Option String)
  | declare (bind : Option String) (initial : String)
  | declareOf (bind : Option String) (type initial : String)
  | set (var value : String)
  | inc (var : String) (delta : Int16)
  | putField (field : GivenField) (object value : String)
  | putStatic (field : GivenField) (value : String)
  | arrayStore (array index value : String)
  | invokeConstructor (constructor : GivenMethod) (args : List String)
  | leave (target : String)
  | again (target : String)
  | returnVoid
  | returnValue (value : String)
  | throwValue (exception : String)
  | throwNew (name : String) (message : Option String)

inductive SwitchSort where
  | int | string | enum
  deriving DecidableEq

mutual

/-- A step; if it is `lenient`, its failure does not end the list it stands in. -/
inductive Step where
  | mk (lenient : Bool) (form : StepForm)

inductive StepForm where
  | value (bind : Option String) (step : ValueStep)
  | typeOf (value : String)
  | call (bind : Option String) (kind : CallKind) (method : GivenMethod) (args : List String)
  | action (step : ActionStep)
  | ifThen (cond : String) (whenTrue : List Step)
  | ifElse (cond : String) (whenTrue whenFalse : List Step)
  | block (inner : List Step)
  | loop (body : List Step)
  | whileLoop (test : List Step) (cond : String) (body : List Step)
  | forEachArray (array : String) (bind : Option String) (body : List Step)
  | forEachIterable (iterable : String) (bind : Option String) (body : List Step)
  | tryCatch (parts : List TryStep)
  | switch (sort : SwitchSort) (selector : String) (parts : List SwitchStep)
  /-- Runs the same steps a number of times, and leaves no trace of them. -/
  | repeated (times : Nat) (body : List Step)

inductive TryStep where
  | body (lenient : Bool) (block : List Step)
  | catchClause (lenient : Bool) (caught : String) (bind : Option String) (block : List Step)
  | finallyBlock (lenient : Bool) (block : List Step)

inductive SwitchStep where
  | case (lenient : Bool) (labels : List CaseLabel) (block : List Step)
  | defaultCase (lenient : Bool) (block : List Step)
  | fallthrough (lenient : Bool) (on : Bool)
  | scope (lenient : Bool) (bind : Option String)

end

end ClassAssembler
