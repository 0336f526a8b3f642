import ClassAssembler.Instruction.Text

/-!
# Method code

The code of a method is a list of entries, labels among them, and an exception table.
-/

namespace ClassAssembler

inductive Entry where
  | label (label : Label)
  | insn (insn : Instruction)
  | branch (branch : Branch)
  deriving DecidableEq

namespace Entry

def isLabel : Entry → Bool
  | label _ => true
  | _ => false

def targets : Entry → List Label
  | branch b => b.targets
  | _ => []

def line : Entry → String
  | label l => l.display ++ ":"
  | insn i => i.line
  | branch b => b.line

end Entry

/-- An exception thrown from `start` on and before `stop` goes to `handler`, if it is
of the caught class; without a class, every exception is caught. -/
structure ExceptionRange where
  start : Label
  stop : Label
  handler : Label
  caught : Option ClassName
  deriving DecidableEq

namespace ExceptionRange

def caughtText (range : ExceptionRange) : String :=
  match range.caught with
  | none => "any"
  | some name => name.text

def line (range : ExceptionRange) : String :=
  " ".intercalate
    [range.start.display, range.stop.display, range.handler.display, range.caughtText]

def labels (range : ExceptionRange) : List Label :=
  [range.start, range.stop, range.handler]

end ExceptionRange

structure Code where
  maxLocals : UInt16
  entries : List Entry
  ranges : List ExceptionRange

def Code.instructionCount (code : Code) : Nat :=
  code.entries.countP (!·.isLabel)

end ClassAssembler
