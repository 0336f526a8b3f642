import ClassAssembler.Name

/-!
# Types of the class file format

`Primitive`, `RefType` and `FieldType` are the types a field, parameter or local can have;
`MethodType` is the parameter and return types of a method.
-/

namespace ClassAssembler

inductive Primitive where
  | byte | char | double | float | int | long | short | boolean
  deriving DecidableEq, Hashable, Inhabited

namespace Primitive

def all : List Primitive :=
  [byte, char, double, float, int, long, short, boolean]

def code : Primitive → Char
  | byte => 'B'
  | char => 'C'
  | double => 'D'
  | float => 'F'
  | int => 'I'
  | long => 'J'
  | short => 'S'
  | boolean => 'Z'

def ofCode? (c : Char) : Option Primitive :=
  all.find? (·.code == c)

def width : Primitive → Nat
  | long | double => 2
  | _ => 1

/-- The type a value has on the operand stack, where nothing is narrower than an
`int`. -/
def stackType : Primitive → Primitive
  | long => long
  | float => float
  | double => double
  | _ => int

def wrapper : Primitive → ClassName
  | byte => ⟨"java/lang/Byte"⟩
  | char => ⟨"java/lang/Character"⟩
  | double => ⟨"java/lang/Double"⟩
  | float => ⟨"java/lang/Float"⟩
  | int => ⟨"java/lang/Integer"⟩
  | long => ⟨"java/lang/Long"⟩
  | short => ⟨"java/lang/Short"⟩
  | boolean => ⟨"java/lang/Boolean"⟩

def ofWrapper? (name : ClassName) : Option Primitive :=
  all.find? (·.wrapper == name)

def unboxName : Primitive → MemberName
  | byte => ⟨"byteValue"⟩
  | char => ⟨"charValue"⟩
  | double => ⟨"doubleValue"⟩
  | float => ⟨"floatValue"⟩
  | int => ⟨"intValue"⟩
  | long => ⟨"longValue"⟩
  | short => ⟨"shortValue"⟩
  | boolean => ⟨"booleanValue"⟩

/-- Whether the wrapper is a `java/lang/Number`, and so can produce every other
numeric primitive. -/
def isNumeric : Primitive → Bool
  | char | boolean => false
  | _ => true

end Primitive

inductive RefType where
  | object (name : ClassName)
  | primArray (element : Primitive)
  | refArray (element : RefType)
  deriving DecidableEq, Hashable, Inhabited

inductive FieldType where
  | prim (p : Primitive)
  | ref (r : RefType)
  deriving DecidableEq, Hashable, Inhabited

def RefType.array : FieldType → RefType
  | .prim p => .primArray p
  | .ref r => .refArray r

def RefType.element? : RefType → Option FieldType
  | .object _ => none
  | .primArray p => some (.prim p)
  | .refArray r => some (.ref r)

namespace FieldType

def int : FieldType := .prim .int
def long : FieldType := .prim .long
def float : FieldType := .prim .float
def double : FieldType := .prim .double
def char : FieldType := .prim .char
def short : FieldType := .prim .short
def byte : FieldType := .prim .byte
def boolean : FieldType := .prim .boolean

def object (name : ClassName) : FieldType := .ref (.object name)

def string : FieldType := object .string

def array (element : FieldType) : FieldType := .ref (.array element)

def width : FieldType → Nat
  | .prim p => p.width
  | .ref _ => 1

def isReference : FieldType → Bool
  | .prim _ => false
  | .ref _ => true

def element? : FieldType → Option FieldType
  | .prim _ => none
  | .ref r => r.element?

def unboxed? : FieldType → Option Primitive
  | .ref (.object name) => Primitive.ofWrapper? name
  | _ => none

/-- The primitive type on the operand stack, seen through wrapper classes. -/
def numericType? : FieldType → Option Primitive
  | .prim p => some p.stackType
  | boxed => boxed.unboxed?.map Primitive.stackType

end FieldType

/-- Parameters and return type of a method; `none` returns nothing. -/
structure MethodType where
  params : List FieldType
  returns : Option FieldType
  deriving DecidableEq, Hashable, Inhabited

def MethodType.paramWords (type : MethodType) : Nat :=
  type.params.foldr (fun param words => param.width + words) 0

end ClassAssembler
