import ClassAssembler.Code.Basic

/-!
# Typed shorthands

Instructions chosen by a value or by a type: the shortest push of a constant, the load, store, pop
and return for a type, and the entries that turn a test into a number.
-/

namespace ClassAssembler
namespace Push

def short? (n : Int) : Option Instruction :=
  if h : -1 ≤ n ∧ n ≤ 5 then some (.constInt ⟨(n + 1).toNat, by omega⟩)
  else if -128 ≤ n ∧ n ≤ 127 then some (.pushByte (Int8.ofInt n))
  else if -32768 ≤ n ∧ n ≤ 32767 then some (.pushShort (Int16.ofInt n))
  else none

def null : List Instruction := [.constNull]

def string (text : String) : List Instruction := [.ldc (.string text)]

def classObject (type : RefType) : List Instruction := [.ldc (.classObject type)]

def int (n : Int32) : List Instruction :=
  [(short? n.toInt).getD (.ldc (.integer n))]

/-- Small values are pushed as an `int` and widened, which keeps them out of the
constant pool; so are whole floating point values. -/
def long (n : Int64) : List Instruction :=
  if n = 0 then [.constLong 0]
  else if n = 1 then [.constLong 1]
  else match short? n.toInt with
    | some push => [push, .convert .i2l]
    | none => [.ldc2 (.long n)]

def float (bits : UInt32) : List Instruction :=
  if bits = 0 then [.constFloat 0]
  else if bits = 0x3f800000 then [.constFloat 1]
  else if bits = 0x40000000 then [.constFloat 2]
  else match (Binary.single bits).toInt?.bind short? with
    | some push => [push, .convert .i2f]
    | none => [.ldc (.float bits)]

def double (bits : UInt64) : List Instruction :=
  if bits = 0 then [.constDouble 0]
  else if bits = 0x3ff0000000000000 then [.constDouble 1]
  else match (Binary.double bits).toInt?.bind short? with
    | some push => [push, .convert .i2d]
    | none => [.ldc2 (.double bits)]

end Push

def FieldType.load (type : FieldType) (slot : UInt16) : Instruction := .load type.kind slot

def FieldType.store (type : FieldType) (slot : UInt16) : Instruction := .store type.kind slot

def FieldType.drop (type : FieldType) : Instruction :=
  if type.width = 2 then .pop2 else .pop

def Branch.returning (returns : Option FieldType) : Branch :=
  .ret (returns.map FieldType.kind)

/-- Pushes 1 if the test holds and 0 otherwise, through two fresh labels. -/
def Test.entries (test : Test) (holds done : Label) : List Entry :=
  [.branch (.jumpIf test holds), .insn (.constInt ⟨1, by decide⟩), .branch (.goto done),
    .label holds, .insn (.constInt ⟨2, by decide⟩), .label done]

end ClassAssembler
