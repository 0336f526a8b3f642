import ClassAssembler.Fault

/-!
# Notices

What the assembler has to say about its progress.
-/

namespace ClassAssembler

inductive Level where
  | debug | trace
  deriving DecidableEq

def Level.describe : Level → String
  | .debug => "DEBUG"
  | .trace => "TRACE"

inductive Notice where
  | tableCreated (field : FieldRef) (enumType : ClassName)
  /-- Code was laid out; `kept` values never left the stack. -/
  | sealed (method : MethodRef) (instructions ranges locals kept : Nat)
  | failed (method : MethodRef) (fault : Fault)
  | wrote (name : ClassName) (fields methods : Nat)
  deriving DecidableEq

namespace Notice

def level : Notice → Level
  | sealed _ _ _ _ _ => .trace
  | _ => .debug

def message : Notice → String
  | tableCreated field enumType =>
      "Switch table " ++ field.display ++ " created for " ++ enumType.text
  | sealed method instructions ranges locals kept =>
      "Sealed " ++ method.display ++ ": " ++ toString instructions ++ " instructions, " ++
        toString ranges ++ " exception ranges, " ++ toString locals ++ " local slots, " ++
        toString kept ++ " values kept on the stack"
  | failed method fault => "Failed to assemble " ++ method.display ++ ": " ++ fault.message
  | wrote name fields methods =>
      "Wrote " ++ name.text ++ " (" ++ toString fields ++ " fields, " ++ toString methods ++
        " methods)"

def line (notice : Notice) : String :=
  notice.level.describe ++ " " ++ notice.message

end Notice
end ClassAssembler
