import ClassAssembler.Access
import ClassAssembler.Name

/-!
# Settings

Choices in how a class is put together.
-/

namespace ClassAssembler

/-- How ordinal tables of enum switches are shared within a class. -/
inductive TableSharing where
  | perType
  | perSite
  deriving DecidableEq

structure Settings where
  tableSharing : TableSharing := .perType
  /-- Start of the names of fields that cache an ordinal table. -/
  tableFieldStart : MemberName := ⟨"$SWITCH_TABLE$"⟩
  /-- Start of the names of methods that build an ordinal table. -/
  tableMethodStart : MemberName := ⟨"$SWITCH_TABLE$"⟩
  tableFieldAccess : Access .field := .privateFlag ||| .staticFlag ||| .syntheticFlag
  tableMethodAccess : Access .method := .privateFlag ||| .staticFlag ||| .syntheticFlag
  /-- Whether a `void` method that can run off its end gets a return. -/
  voidReturn : Bool := true
  /-- Whether a constructor without a constructor call gets one of its super class. -/
  superCall : Bool := true

end ClassAssembler
