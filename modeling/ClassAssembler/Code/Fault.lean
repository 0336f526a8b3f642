import ClassAssembler.Code.Label
import ClassAssembler.Descriptor.Text

/-!
# Faults of the class file layer

What can be wrong with a descriptor, with the code of one method, or with the order in which a
class is written.
-/

namespace ClassAssembler

inductive WriterCall where
  | openClass | field | openMethod | placeLabel | instruction | branch | exceptionRange
  | closeMethod | closeClass
  deriving DecidableEq

def WriterCall.describe : WriterCall → String
  | .openClass => "open_class"
  | .field => "field"
  | .openMethod => "open_method"
  | .placeLabel => "place_label"
  | .instruction => "instruction"
  | .branch => "branch"
  | .exceptionRange => "exception_range"
  | .closeMethod => "close_method"
  | .closeClass => "close_class"

inductive WriterPlace where
  | insideClass | insideMethod | outsideClass | outsideMethod
  deriving DecidableEq

def WriterPlace.describe : WriterPlace → String
  | .insideClass => "while a class is open"
  | .insideMethod => "while a method is open"
  | .outsideClass => "outside of a class"
  | .outsideMethod => "outside of a method"

inductive CodeFault where
  | malformedDescriptor (fault : DescriptorFault)
  | localsOverflow (needed : Nat)
  /-- The code can run off its end, or some labels were used and never placed. -/
  | unfinished (runsOff : Bool) (unplaced : List Label)
  | duplicateLabel (label : Label)
  | unplacedTarget (label : Label)
  | misplacedCall (call : WriterCall) (place : WriterPlace)
  deriving DecidableEq

def CodeFault.message : CodeFault → String
  | .malformedDescriptor fault => fault.message
  | .localsOverflow needed =>
      "method needs " ++ toString needed ++
        " local slots, more than the class file format allows"
  | .unfinished runsOff unplaced =>
      "method code is not finished (falls off the end: " ++ toString runsOff ++
        ", unplaced labels: [" ++ ", ".intercalate (unplaced.map Label.display) ++ "])"
  | .duplicateLabel label => "label " ++ label.display ++ " placed more than once"
  | .unplacedTarget label => "jump target " ++ label.display ++ " was never placed"
  | .misplacedCall call place => "writer received " ++ call.describe ++ " " ++ place.describe

end ClassAssembler
