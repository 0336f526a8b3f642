import ClassAssembler.Build.Try
import Std.Data.HashSet

/-!
# Switches

A switch goes by the value of an `int`, the text of a string, or a constant of an enum.
-/

namespace ClassAssembler

structure SwitchDraft where
  kind : SwitchKind
  table : Option Nat
  frame : Nat
  arms : Array Arm := #[]
  seen : Std.HashSet CaseKey := ∅
  hasDefault : Bool := false
  fallthrough : Bool := false

namespace Build

variable {σ : Type}

abbrev Switch (σ : Type) := Build (SwitchDraft × σ)

def switchTarget : Switch σ Target := do
  target (← draft SwitchDraft.frame)

def setFallthrough (fallthrough : Bool) : Switch σ Unit :=
  redraft fun draft => { draft with fallthrough }

def tableIndex (table : Nat) (constant : MemberName) : Build σ Int32 :=
  change fun body =>
    match body.tables[table]? with
    | none => (0, body)
    | some row =>
        let (position, row) := row.enter constant
        (OrdinalTable.caseIndex position,
          { body with tables := body.tables.setIfInBounds table row })

def caseKey (label : CaseLabel) : Switch σ CaseKey := do
  match ← draft SwitchDraft.kind, ← draft SwitchDraft.table, label with
  | .int, _, .int n => return .int n
  | .string, _, .text text => return .text text
  | .enum _ _, some table, .text text =>
      match MemberName.ofString text with
      | .error flaw => fail (.malformedName flaw)
      | .ok constant => return .index (← tableIndex table constant)
  | _, _, label => fail (.caseMismatch label)

def takeLabel (label : CaseLabel) : Switch σ CaseKey := do
  let key ← caseKey label
  let known ← carry fun (draft, state) =>
    let known := draft.seen.contains key
    (known, { draft with seen := draft.seen.insert key }, state)
  if known then
    fail (.duplicateCase label)
  return key

def arm (kind : ScopeKind) (keys : List CaseKey) (isDefault : Bool) (block : Block σ) :
    Switch σ Unit := do
  let scope ← openScope (← draft SwitchDraft.frame) kind
  outside (block scope)
  redraft fun draft => { draft with arms := draft.arms.push ⟨keys, isDefault, scope⟩ }

def case (labels : List CaseLabel) (block : Block σ) : Switch σ Unit := do
  arm .switchCase (← labels.mapM takeLabel) false block

def defaultCase (block : Block σ) : Switch σ Unit := do
  if ← draft SwitchDraft.hasDefault then
    fail .duplicateDefault
  redraft fun draft => { draft with hasDefault := true }
  arm .switchDefault [] true block

def switchOn (here : Nat) (kind : SwitchKind) (table : Option Nat) (selector : Operand)
    (arms : Switch σ Unit) : Build σ Unit := do
  let frame ← openScope here .switchFrame
  let draft ← withDraft { kind, table, frame } arms
  push here (.switch {
    kind, selector, frame
    arms := draft.arms.toList
    fallthrough := draft.fallthrough })

def switchInt (here : Nat) (selector : Value) (arms : Switch σ Unit) : Build σ Unit := do
  switchOn here .int none (← operand here selector .int) arms

def switchString (here : Nat) (selector : Value) (arms : Switch σ Unit) : Build σ Unit := do
  switchOn here .string none (← operand here selector .string) arms

/-- The ordinal table for a switch on an enum: its index and its accessor. -/
def tableFor (enumType : ClassName) : Build σ (Nat × MethodRef) := do
  let settings ← see (·.settings)
  match ← see (OrdinalTable.shared? settings ·.tables enumType) with
  | some (index, table) => return (index, table.accessor)
  | none =>
      let owner ← see (·.method.owner)
      let siblings ← see (OrdinalTable.siblings ·.tables enumType)
      let table ← ofExcept (OrdinalTable.create settings owner enumType siblings)
      change fun body =>
        ((body.tables.size, table.accessor),
          { body with
            notices := body.notices.push (.tableCreated table.field enumType)
            tables := body.tables.push table })

def switchEnum (here : Nat) (selector : Value) (arms : Switch σ Unit) : Build σ Unit := do
  match ← typeOf selector with
  | .ref (.object enumType) =>
      let selector ← operandAsIs here selector
      let (table, accessor) ← tableFor enumType
      switchOn here (.enum enumType accessor) (some table) selector arms
  | found => mismatch .enumConstant found

end Build
end ClassAssembler
