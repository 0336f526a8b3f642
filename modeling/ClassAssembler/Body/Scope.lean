/-!
# Kinds of scopes

What opened a scope. The names are shown when a value or a jump leaves its scope.
-/

namespace ClassAssembler

inductive ScopeKind where
  | root
  | block
  | thenArm
  | elseArm
  | loop
  /-- Runs between one pass of a loop and the next. -/
  | loopUpdate
  /-- Holds everything that belongs to one try statement. -/
  | tryFrame
  | tryBody
  | catchClause
  /-- Runs the finally block on the way out of an exception. -/
  | catchAll
  | finallyCopy
  | switchFrame
  | switchCase
  | switchDefault
  deriving DecidableEq

def ScopeKind.describe : ScopeKind → String
  | .root => "Root scope"
  | .block => "Block scope"
  | .thenArm => "Then scope"
  | .elseArm => "Else scope"
  | .loop => "Loop scope"
  | .loopUpdate => "LoopUpdate scope"
  | .tryFrame => "TryFrame scope"
  | .tryBody => "TryBody scope"
  | .catchClause => "Catch scope"
  | .catchAll => "CatchAll scope"
  | .finallyCopy => "Finally scope"
  | .switchFrame => "Switch scope"
  | .switchCase => "SwitchCase scope"
  | .switchDefault => "SwitchDefault scope"

end ClassAssembler
