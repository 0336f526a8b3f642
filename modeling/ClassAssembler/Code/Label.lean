/-!
# Labels

A label is a position in a method body: placed at most once, and the target of any number of
jumps. Labels are numbered from zero within each body.
-/

namespace ClassAssembler

structure Label where
  index : Nat
  deriving DecidableEq, Hashable, Inhabited

def Label.display (label : Label) : String :=
  "L" ++ toString label.index

end ClassAssembler
