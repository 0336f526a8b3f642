import ClassAssembler.Fault
import ClassAssembler.Settings

/-!
# Ordinal tables

A switch on an enum must not depend on the order in which the enum declares its constants.
-/

namespace ClassAssembler

structure OrdinalTable where
  enumType : ClassName
  field : FieldRef
  accessor : MethodRef
  /-- The constants in the order of their case indices. -/
  constants : Array MemberName

namespace OrdinalTable

abbrev All := Array OrdinalTable

def rowType : FieldType := .array .int

/-- What stands behind the configured start of a name. Further tables for an enum
that has some already are numbered. -/
def nameEnd (enumType : ClassName) (siblings : Nat) : String :=
  enumType.flattened.text ++ if siblings = 0 then "" else "$" ++ toString siblings

def memberName (start : MemberName) (nameEnd : String) : Except Fault MemberName :=
  match MemberName.ofString (start.text ++ nameEnd) with
  | .ok name => .ok name
  | .error flaw => .error (.malformedName flaw)

def create (settings : Settings) (owner enumType : ClassName) (siblings : Nat) :
    Except Fault OrdinalTable := do
  let nameEnd := nameEnd enumType siblings
  let field ← memberName settings.tableFieldStart nameEnd
  let method ← memberName settings.tableMethodStart nameEnd
  return {
    enumType
    field := { owner, name := field, type := rowType }
    accessor := { owner, name := method, type := ⟨[], some rowType⟩ }
    constants := #[] }

def shared? (settings : Settings) (tables : All) (enumType : ClassName) :
    Option (Nat × OrdinalTable) :=
  match settings.tableSharing with
  | .perType => do
      let index ← tables.findIdx? (·.enumType == enumType)
      return (index, ← tables[index]?)
  | .perSite => none

def siblings (tables : All) (enumType : ClassName) : Nat :=
  tables.countP (·.enumType == enumType)

def enter (table : OrdinalTable) (constant : MemberName) : Nat × OrdinalTable :=
  match table.constants.idxOf? constant with
  | some position => (position, table)
  | none => (table.constants.size, { table with constants := table.constants.push constant })

def caseIndex (position : Nat) : Int32 := Int32.ofNat position + 1

end OrdinalTable
end ClassAssembler
