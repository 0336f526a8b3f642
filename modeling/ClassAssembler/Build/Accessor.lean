import ClassAssembler.Build.Switch

/-!
# Accessors of ordinal tables

The method that returns an ordinal table. It returns the cached table if there is one.
-/

namespace ClassAssembler
namespace OrdinalTable

open Build

variable {σ : Type}

def constantField (table : OrdinalTable) (constant : MemberName) : FieldRef where
  owner := table.enumType
  name := constant
  type := .object table.enumType

def enterConstant (table : OrdinalTable) (fresh : Value) (constant : MemberName) (position : Nat) :
    Block σ := fun here =>
  tryCatch here do
    tryBody fun here => do
      let member ← getStatic here (table.constantField constant)
      let object ← operand here member (.object table.enumType)
      let ordinal ←
        yield here (.insns [.invoke .virtual (.enumOrdinal table.enumType)]) [object] .int
      arrayStore here fresh ordinal (← constInt (caseIndex position))
    catchClause .noSuchField fun _ _ => pure ()

def accessorBody (table : OrdinalTable) : Block σ := fun here => do
  let cached ← getStatic here table.field
  let present ← nullCheck here .ne cached
  ifThen here present fun here => returnValue here cached
  let values ← yield here (.insns [.invoke .static (.enumValues table.enumType)]) []
    (.array (.object table.enumType))
  let length ← arrayLength here values
  let fresh ← newArray here .int length
  table.constants.toList.zipIdx.forM fun (constant, position) =>
    table.enterConstant fresh constant position here
  putStatic here table.field fresh
  returnValue here fresh

end OrdinalTable
end ClassAssembler
