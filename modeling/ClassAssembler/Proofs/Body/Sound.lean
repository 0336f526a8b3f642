import ClassAssembler.Body.Layout
import ClassAssembler.Proofs.Body.Tree
import ClassAssembler.Proofs.Layout.Stack

/-!
# Sound bodies

What holds of every body that is built by the calls of a builder, whether or not they fail.
-/

namespace ClassAssembler

namespace ScopeKind

/-- Scopes that hold operations and start with an empty stack. -/
def isPlain (kind : ScopeKind) : Bool :=
  !(kind.isFrame || kind.isHandler || kind = .loopUpdate)

end ScopeKind

namespace Body

variable (b : Body)

/-- A value of `scope` is there before anything in its child `child` runs. -/
def Before (child scope value : Nat) : Prop :=
  value ∈ b.defines scope ∧
    ∀ l1 op l2, b.operations scope = l1 ++ op :: l2 → child ∈ op.owned →
      value ∈ l1.flatMap Operation.defines

/-- A value can be read in a scope behind the operations that give `known` a meaning. -/
def Visible (scope : Nat) (known : List Nat) (value : Nat) : Prop :=
  ∃ info, b.values[value]? = some info ∧
    (info.owner = none ∨ (info.owner = some scope ∧ value ∈ known) ∨
      ∃ c owner, info.owner = some owner ∧ b.Within c scope ∧ b.parentOf c = some owner ∧
        b.kindOf c ≠ .loopUpdate ∧ b.Before c owner value)

def Guards (frame scope : Nat) : Prop :=
  b.kindOf frame = .tryFrame ∧
    ∃ c, b.Within c scope ∧ b.parentOf c = some frame ∧ (b.kindOf c).isGuarded

/-- A way out to a scope, or out of the method, leaves a frame. -/
def Leaves (frame : Nat) (destination : Option Nat) : Prop :=
  ∀ d, destination = some d → ¬ b.Within frame d

/-- A copy of the finally block of a try statement. -/
structure CopyOf (frame : Nat) (cleanup : Cleanup) : Prop where
  isTry : b.kindOf frame = .tryFrame
  parent : b.parentOf cleanup.scope = some frame
  kind : b.kindOf cleanup.scope = .finallyCopy
  owner : cleanup.owner = b.tryNumber frame

/-- An exit runs copies of try statements that it leaves, innermost first. -/
structure ExitFits (scope : Nat) (destination : Option Nat) (cleanups : List Cleanup) : Prop where
  each : ∀ cleanup ∈ cleanups, ∃ frame,
    b.CopyOf frame cleanup ∧ b.Guards frame scope ∧ b.Leaves frame destination
  ordered : cleanups.Pairwise fun x y => y.owner < x.owner

def HasWidth (value width : Nat) : Prop :=
  ∃ info, b.values[value]? = some info ∧ info.type.width = width

def HasOrigin (value : Nat) (origin : Origin) : Prop :=
  ∃ info, b.values[value]? = some info ∧ info.origin = origin

end Body

def Operand.Fits (operand : Operand) : Prop :=
  Instruction.Quiet operand.coercion ∧ ∀ (cell : Cell (Option Nat)) rest, ∃ cell',
    Instruction.actAll none operand.coercion (cell :: rest) = some (cell' :: rest)

def Instruction.InitsVoid (is : List Instruction) : Prop :=
  ∀ kind method, .invoke kind method ∈ is → method.isConstructor → method.type.returns = none

namespace Action

def Copies (b : Body) (operands : List Operand) (result : Option Nat) : Prop :=
  ∃ operand v w, operands = [operand] ∧ result = some v ∧ b.HasWidth v w ∧
    ∀ (cell : Cell (Option Nat)), b.HasWidth operand.value cell.words →
      ∃ tag, Instruction.actAll none operand.coercion [cell] = some [⟨tag, w⟩]

/-- Instructions take all operands and leave the result. -/
def Computes (b : Body) (is : List Instruction) (operands : List Operand) (result : Option Nat) :
    Prop :=
  ∃ words : Option Nat, (∀ cells : List (Cell (Option Nat)), cells.length = operands.length →
      Instruction.actAll none is cells = some (words.toList.map (Cell.mk none))) ∧
    (Instruction.InitsVoid is → result = none → words = none) ∧
    ∀ v, result = some v → ∃ w, words = some w ∧ b.HasWidth v w

/-- An action takes its operands from the stack and leaves its result there. -/
def Fits (b : Body) (operands : List Operand) (result : Option Nat) : Action → Prop
  | .insns is =>
      Instruction.Quiet is ∧ ((is = [] ∧ Copies b operands result) ∨ Computes b is operands result)
  | .new constructor =>
      constructor.isConstructor ∧ operands.length = constructor.type.params.length ∧
        ∃ v, result = some v ∧ b.HasWidth v 1
  | .compare lead test =>
      Instruction.Quiet lead.toList ∧ (∀ cells : List (Cell (Option Nat)), cells.length =
        operands.length → ∃ cells',
        Instruction.actAll none lead.toList cells = some cells' ∧ cells'.length = test.uses) ∧
        ∃ v, result = some v ∧ b.HasWidth v 1
  | .store var _ => operands.length = 1 ∧ result = none ∧ b.HasOrigin var .variable
  | .inc var _ =>
      operands = [] ∧ result = none ∧ b.HasOrigin var .variable ∧ b.HasWidth var 1
  | .copy => Copies b operands result
  | .caught => operands = [] ∧ ∃ v, result = some v ∧ b.HasWidth v 1

end Action

namespace Body

variable (b : Body)

/-- A plain scope right inside another, which is run once. -/
def Child (parent scope : Nat) : Prop :=
  b.parentOf scope = some parent ∧ (b.kindOf scope).isPlain ∧ b.kindOf scope ≠ .loop

structure TryFits (scope : Nat) (statement : TryStatement) : Prop where
  parent : b.parentOf statement.frame = some scope
  frame : b.kindOf statement.frame = .tryFrame
  id : statement.id = b.tryNumber statement.frame
  body : b.parentOf statement.body = some statement.frame ∧ b.kindOf statement.body = .tryBody
  bodyExit : ∃ c, statement.bodyExit = [c] ∧ b.CopyOf statement.frame c
  clauses : ∀ clause ∈ statement.clauses,
    b.parentOf clause.scope = some statement.frame ∧ b.kindOf clause.scope = .catchClause ∧
      b.operations clause.scope ≠ [] ∧ ∃ c, clause.exit = [c] ∧ b.CopyOf statement.frame c
  catchAll : ∀ handler, statement.catchAll = some handler →
    b.parentOf handler = some statement.frame ∧ b.kindOf handler = .catchAll ∧
      b.operations handler ≠ []

structure SwitchFits (scope : Nat) (statement : SwitchStatement) : Prop where
  parent : b.parentOf statement.frame = some scope
  frame : b.kindOf statement.frame = .switchFrame
  arms : ∀ arm ∈ statement.arms, b.Child statement.frame arm.scope
  accessor : ∀ type accessor, statement.kind = .enum type accessor →
    accessor.type = ⟨[], some OrdinalTable.rowType⟩

end Body

namespace Operation

def Fits (b : Body) (scope : Nat) : Operation → Prop
  | simple action operands result => action.Fits b operands result
  | block inner => b.Child scope inner
  | branch _ whenTrue whenFalse =>
      b.Child scope whenTrue ∧ ∀ s, whenFalse = some s → b.Child scope s
  | loop looped update =>
      b.parentOf looped = some scope ∧ b.kindOf looped = .loop ∧
        ∀ s, update = some s → b.parentOf s = some looped ∧ b.kindOf s = .loopUpdate
  | exitUnless _ target => target = scope ∧ b.kindOf scope = .loop
  | jump kind target cleanups =>
      b.Within target scope ∧ (kind = .again → b.kindOf target = .loop) ∧
        b.ExitFits scope (some target) cleanups
  | ret value cleanups =>
      value.isSome = b.method.type.returns.isSome ∧ b.ExitFits scope none cleanups
  | throw _ => True
  | tryCatch statement => b.TryFits scope statement
  | switch statement => b.SwitchFits scope statement

def exit? : Operation → Option (Option Nat × List Cleanup)
  | jump _ target cleanups => some (some target, cleanups)
  | ret _ cleanups => some (none, cleanups)
  | _ => none

def isCaught : Operation → Bool
  | simple .caught _ _ => true
  | _ => false

def isSimple : Operation → Bool
  | simple _ _ _ => true
  | _ => false

end Operation

namespace Body

/-- The labels of the scopes lie one behind the other. -/
structure LabelsFit (b : Body) : Prop where
  exit : ∀ {s : Nat} {sc : Scope}, b.scopes[s]? = some sc → sc.exit.index = sc.entry.index + 1
  again : ∀ {s : Nat} {sc : Scope}, b.scopes[s]? = some sc →
    sc.again.index = if sc.kind = .loop then sc.entry.index + 2 else sc.entry.index
  apart : ∀ {s t : Nat} {sc sc' : Scope}, b.scopes[s]? = some sc → b.scopes[t]? = some sc' → s < t →
    sc.entry.index + (if sc.kind = .loop then 3 else 2) ≤ sc'.entry.index
  bound : ∀ {s : Nat} {sc : Scope}, b.scopes[s]? = some sc →
    sc.entry.index + (if sc.kind = .loop then 3 else 2) ≤ b.nextLabel

/-- The parameters lie one behind the other before the first free slot. -/
structure ParamsFit (b : Body) : Prop where
  bound : ∀ {v : Nat} {info : ValueInfo} {slot : UInt16}, b.values[v]? = some info →
    info.origin = .param slot → slot.toNat + info.type.width ≤ b.firstFree
  apart : ∀ {u v : Nat} {iu iv : ValueInfo} {su sv : UInt16}, b.values[u]? = some iu →
    b.values[v]? = some iv → iu.origin = .param su → iv.origin = .param sv → u < v →
    su.toNat + iu.type.width ≤ sv.toNat

/-- Scopes, operations and values of a body fit together, except that `pending` values
still wait for the operation that gives them a meaning. -/
structure SoundUpTo (pending : List Nat) (b : Body) : Prop where
  rooted : 0 < b.scopes.size
  root : b.kindOf 0 = .root
  descends : b.Descends
  labels : b.LabelsFit
  fits : ∀ {s op}, op ∈ b.operations s → op.Fits b s
  operands : ∀ {s op}, op ∈ b.operations s → ∀ operand ∈ op.operands, operand.Fits
  owned_gt : ∀ {s c}, c ∈ b.owned s → s < c
  owned_nodup : ∀ s, (b.owned s).Nodup
  owned_unique : ∀ {s t c}, c ∈ b.owned s → c ∈ b.owned t → s = t
  visible : ∀ {s l1 op l2}, b.operations s = l1 ++ op :: l2 → ∀ v ∈ op.needs,
    b.Visible s (l1.flatMap Operation.defines) v
  defines_nodup : ∀ s, (b.defines s).Nodup
  defines_owner : ∀ {s v}, v ∈ b.defines s → ∃ info, b.values[v]? = some info ∧ info.owner = some s
  defined : ∀ {v : Nat} {info : ValueInfo} {s : Nat}, b.values[v]? = some info →
    info.owner = some s → v ∈ b.defines s ∨ v ∈ pending
  results : ∀ {s action operands v}, .simple action operands (some v) ∈ b.operations s →
    b.HasOrigin v .result
  lasting : ∀ {v : Nat} {info : ValueInfo}, b.values[v]? = some info → info.owner = none →
    (∃ slot, info.origin = .param slot) ∨
      ∃ l, info.origin = .constant l ∧ l.words = info.type.width
  owned_origin : ∀ {v : Nat} {info : ValueInfo} {s : Nat}, b.values[v]? = some info →
    info.owner = some s → info.origin = .variable ∨ info.origin = .result
  frames : ∀ {s}, (b.kindOf s).isFrame → b.operations s = []
  caught : ∀ {s l1 op l2}, b.operations s = l1 ++ op :: l2 →
    (op.isCaught ↔ (b.kindOf s).isHandler ∧ l1 = [])
  updates : ∀ {s op}, op ∈ b.operations s → b.kindOf s = .loopUpdate → op.isSimple
  params : b.ParamsFit
  receiver : b.hasReceiver → ∃ info, b.values[0]? = some info ∧ info.owner = none

abbrev Sound (b : Body) : Prop := SoundUpTo [] b

def trying (b : Body) : List Nat := b.tries.map TryFrame.scope

/-- Every exit from a part of a try statement that leaves the statement runs a copy of its
finally block. -/
def Complete (b : Body) (frame part : Nat) : Prop :=
  ∀ s op d cs, b.Within part s → op ∈ b.operations s → op.exit? = some (d, cs) →
    b.Leaves frame d → b.tryNumber frame ∈ cs.map Cleanup.owner

/-- The try statements under construction are numbered and ordered, and the tables have accessors of
the right type. -/
structure Collects (b : Body) : Prop where
  next : b.nextTry = b.tryNumber b.scopes.size
  frame : ∀ f ∈ b.tries, b.kindOf f.scope = .tryFrame
  id : ∀ f ∈ b.tries, f.id = b.tryNumber f.scope
  copies : ∀ f ∈ b.tries, ∀ p ∈ f.placeholders,
    b.parentOf p = some f.scope ∧ b.kindOf p = .finallyCopy
  ordered : b.tries.Pairwise fun f g => g.scope < f.scope
  complete : ∀ {frame part}, b.kindOf frame = .tryFrame → b.parentOf part = some frame →
    (b.kindOf part).isGuarded → (frame ∈ b.trying ∨ ∃ s, part ∈ b.owned s) →
    b.Complete frame part
  accessors : ∀ table ∈ b.tables, table.accessor.type = ⟨[], some OrdinalTable.rowType⟩

end Body
end ClassAssembler
