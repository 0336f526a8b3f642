import ClassAssembler.Code.Label
import ClassAssembler.Member

/-!
# Instructions

Instructions stand for operations, not for opcodes: what varies only by the kind of its operands
is one constructor with that kind as a parameter, and slots are 16 bits wide throughout.
-/

namespace ClassAssembler

inductive NumKind where
  | int | long | float | double
  deriving DecidableEq

inductive Kind where
  | num (kind : NumKind)
  | ref
  deriving DecidableEq

inductive BitKind where
  | int | long
  deriving DecidableEq

/-- What an array stores; bytes and booleans share their instructions. -/
inductive Element where
  | of (kind : Kind)
  | byte | char | short
  deriving DecidableEq

inductive ArithOp where
  | add | sub | mul | div | rem
  deriving DecidableEq

inductive BitOp where
  | and | or | xor
  deriving DecidableEq

inductive Shift where
  | left | logicalRight | arithmeticRight
  deriving DecidableEq

/-- Whether what is not a number compares as less or as greater. -/
inductive NanMode where
  | less | greater
  deriving DecidableEq

/-- Changes of a number's kind, and of an `int` to a narrower one. -/
inductive Conversion where
  | i2l | i2f | i2d | l2i | l2f | l2d | f2i | f2l | f2d | d2i | d2l | d2f | i2b | i2c | i2s
  deriving DecidableEq

inductive OrdTest where
  | eq | ge | gt | le | lt | ne
  deriving DecidableEq

inductive EqTest where
  | eq | ne
  deriving DecidableEq

inductive FieldAction where
  | getStatic | putStatic | getField | putField
  deriving DecidableEq

/-- How a method is found when it is called. An interface call carries the number
of its argument words, the receiver included. -/
inductive InvokeKind where
  | virtual | special | static
  | interface (words : UInt8)
  deriving DecidableEq

/-- Values in the constant pool. Floating point values are kept as their bits, so
that no two patterns are confused. -/
inductive Constant where
  | integer (value : Int32)
  | long (value : Int64)
  | float (bits : UInt32)
  | double (bits : UInt64)
  | string (text : String)
  | classObject (type : RefType)
  deriving DecidableEq

inductive Instruction where
  | nop
  | constNull
  /-- Pushes one less than `k`. -/
  | constInt (k : Fin 7)
  | constLong (k : Fin 2)
  | constFloat (k : Fin 3)
  | constDouble (k : Fin 2)
  | pushByte (value : Int8)
  | pushShort (value : Int16)
  | ldc (value : Constant)
  | ldc2 (value : Constant)
  | load (kind : Kind) (slot : UInt16)
  | store (kind : Kind) (slot : UInt16)
  | arrayLoad (element : Element)
  | arrayStore (element : Element)
  | pop | pop2 | dup | dupX1 | dupX2 | dup2 | swap
  | arith (op : ArithOp) (kind : NumKind)
  | neg (kind : NumKind)
  | shift (kind : BitKind) (direction : Shift)
  | bitwise (op : BitOp) (kind : BitKind)
  | inc (slot : UInt16) (delta : Int16)
  | convert (conversion : Conversion)
  | compareLong
  | compareFloat (mode : NanMode)
  | compareDouble (mode : NanMode)
  | field (action : FieldAction) (member : FieldRef)
  | invoke (kind : InvokeKind) (method : MethodRef)
  | new (name : ClassName)
  | newArray (element : Primitive)
  | newRefArray (element : RefType)
  | arrayLength
  | checkCast (type : RefType)
  | instanceOf (type : RefType)
  deriving DecidableEq

/-- Condition of a jump: an `int` against zero, two `int`s, two references, or a
reference against `null`. -/
inductive Test where
  | zero (ord : OrdTest)
  | ints (ord : OrdTest)
  | refs (same : EqTest)
  | null (same : EqTest)
  deriving DecidableEq

inductive Branch where
  | jumpIf (test : Test) (target : Label)
  | goto (target : Label)
  /-- Key `low + i` goes to the target at index `i`, every other key to `fallback`. -/
  | tableSwitch (fallback : Label) (low : Int32) (targets : List Label)
  /-- Keys are in ascending order. -/
  | lookupSwitch (fallback : Label) (targets : List (Int32 × Label))
  | ret (kind : Option Kind)
  | throw
  deriving DecidableEq

def Kind.words : Kind → Nat
  | .num .long | .num .double => 2
  | _ => 1

namespace Instruction

def localAccess? : Instruction → Option (UInt16 × Nat)
  | load kind slot | store kind slot => some (slot, kind.words)
  | inc slot _ => some (slot, 1)
  | _ => none

end Instruction

namespace Branch

def fallsThrough : Branch → Bool
  | jumpIf _ _ => true
  | _ => false

def targets : Branch → List Label
  | jumpIf _ target | goto target => [target]
  | tableSwitch fallback _ targets => fallback :: targets
  | lookupSwitch fallback targets => fallback :: targets.map Prod.snd
  | ret _ | throw => []

end Branch

def Primitive.numKind : Primitive → NumKind
  | .long => .long
  | .float => .float
  | .double => .double
  | _ => .int

def NumKind.type : NumKind → FieldType
  | .int => .int
  | .long => .long
  | .float => .float
  | .double => .double

def NumKind.bitKind? : NumKind → Option BitKind
  | .int => some .int
  | .long => some .long
  | _ => none

def BitKind.type : BitKind → FieldType
  | .int => .int
  | .long => .long

/-- The kind of number a value of the type is on the stack, wrappers unboxed. -/
def FieldType.numKind? (type : FieldType) : Option NumKind :=
  type.numericType?.map Primitive.numKind

/-- Kind of the slot or stack entry that holds a value of the type. -/
def FieldType.kind : FieldType → Kind
  | .prim p => .num p.numKind
  | .ref _ => .ref

def FieldType.element : FieldType → Element
  | .prim .byte | .prim .boolean => .byte
  | .prim .char => .char
  | .prim .short => .short
  | type => .of type.kind

end ClassAssembler
