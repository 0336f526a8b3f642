import ClassAssembler.Body.Basic
import ClassAssembler.Code.Push
import ClassAssembler.Coercion

/-!
# The operand stack

What the instructions do to the operand stack. A `long` or a `double` is one value that takes two
words.
-/

namespace ClassAssembler

variable {i : Instruction}

structure Cell (α : Type) where
  tag : α
  words : Nat
  deriving DecidableEq

namespace Element

def words : Element → Nat
  | of kind => kind.words
  | byte | char | short => 1

end Element

def NumKind.words (kind : NumKind) : Nat := (Kind.num kind).words

def BitKind.words : BitKind → Nat
  | int => 1
  | long => 2

def Conversion.words : Conversion → Nat
  | i2l | i2d | l2d | f2l | f2d | d2l => 2
  | _ => 1

namespace InvokeKind

def receivers : InvokeKind → Nat
  | static => 0
  | _ => 1

end InvokeKind

namespace Instruction

/-- Number of values an instruction takes from the stack, unless it only rearranges it. -/
def uses : Instruction → Nat
  | store _ _ | neg _ | convert _ | newArray _ | newRefArray _ | arrayLength | checkCast _
  | instanceOf _ | field .getField _ | field .putStatic _ => 1
  | arrayLoad _ | arith _ _ | shift _ _ | bitwise _ _ | compareLong | compareFloat _
  | compareDouble _ | field .putField _ => 2
  | arrayStore _ => 3
  | invoke kind method => kind.receivers + method.type.params.length
  | _ => 0

/-- Words of the value an instruction leaves, unless it only rearranges the stack. -/
def gives : Instruction → Option Nat
  | constNull | constInt _ | constFloat _ | pushByte _ | pushShort _ | ldc _ | compareLong
  | compareFloat _ | compareDouble _ | new _ | newArray _ | newRefArray _ | arrayLength
  | checkCast _ | instanceOf _ => some 1
  | constLong _ | constDouble _ | ldc2 _ => some 2
  | load kind _ => some kind.words
  | arrayLoad element => some element.words
  | arith _ kind | neg kind => some kind.words
  | shift kind _ | bitwise _ kind => some kind.words
  | convert conversion => some conversion.words
  | field .getStatic member | field .getField member => some member.type.width
  | invoke _ method => method.type.returns.map FieldType.width
  | _ => none

def shuffles : Instruction → Bool
  | pop | pop2 | dup | dupX1 | dupX2 | dup2 | swap => true
  | _ => false

def isPlain (i : Instruction) : Bool := !i.shuffles && i.localAccess?.isNone

def Quiet (is : List Instruction) : Prop := ∀ i ∈ is, i.localAccess? = none

theorem shuffles_of_isPlain (h : i.isPlain) : i.shuffles = false := by
  simp only [isPlain, Bool.and_eq_true, Bool.not_eq_true'] at h
  exact h.1

theorem quiet_of_isPlain (h : i.isPlain) : Quiet [i] := by
  simp only [isPlain, Bool.and_eq_true, Option.isNone_iff_eq_none] at h
  intro j hj
  rw [List.mem_singleton.mp hj]
  exact h.2

variable {α : Type}

/-- The stack behind an instruction, if it finds what it needs. A value that it makes is
tagged `fresh`. -/
def act (fresh : α) (i : Instruction) (stack : List (Cell α)) : Option (List (Cell α)) :=
  match i with
  | pop =>
      match stack with
      | a :: s => if a.words = 1 then some s else none
      | _ => none
  | pop2 =>
      match stack with
      | [] => none
      | [a] => if a.words = 2 then some [] else none
      | a :: b :: s =>
          if a.words = 2 then some (b :: s)
          else if a.words = 1 ∧ b.words = 1 then some s
          else none
  | dup =>
      match stack with
      | a :: s => if a.words = 1 then some (a :: a :: s) else none
      | _ => none
  | dupX1 =>
      match stack with
      | a :: b :: s => if a.words = 1 ∧ b.words = 1 then some (a :: b :: a :: s) else none
      | _ => none
  | dupX2 =>
      match stack with
      | [a, b] => if a.words = 1 ∧ b.words = 2 then some [a, b, a] else none
      | a :: b :: c :: s =>
          if a.words = 1 ∧ b.words = 2 then some (a :: b :: a :: c :: s)
          else if a.words = 1 ∧ b.words = 1 ∧ c.words = 1 then some (a :: b :: c :: a :: s)
          else none
      | _ => none
  | dup2 =>
      match stack with
      | [] => none
      | [a] => if a.words = 2 then some [a, a] else none
      | a :: b :: s =>
          if a.words = 2 then some (a :: a :: b :: s)
          else if a.words = 1 ∧ b.words = 1 then some (a :: b :: a :: b :: s)
          else none
  | swap =>
      match stack with
      | a :: b :: s => if a.words = 1 ∧ b.words = 1 then some (b :: a :: s) else none
      | _ => none
  | i =>
      if i.uses ≤ stack.length then
        some (i.gives.toList.map (Cell.mk fresh) ++ stack.drop i.uses)
      else none

def actAll (fresh : α) : List Instruction → List (Cell α) → Option (List (Cell α))
  | [], stack => some stack
  | i :: is, stack => (i.act fresh stack).bind (actAll fresh is)

section

variable (hi : i.shuffles = false)
include hi

theorem act_eq (fresh : α) {stack : List (Cell α)}
    (hlen : i.uses ≤ stack.length) :
    i.act fresh stack = some (i.gives.toList.map (Cell.mk fresh) ++ stack.drop i.uses) := by
  cases i <;> first | (unfold act; exact if_pos hlen) | exact absurd hi (by decide)

theorem act_exact (fresh : α) {stack : List (Cell α)}
    (hlen : stack.length = i.uses) :
    i.act fresh stack = some (i.gives.toList.map (Cell.mk fresh)) := by
  rw [act_eq hi fresh (Nat.le_of_eq hlen.symm), List.drop_eq_nil_of_le (Nat.le_of_eq hlen),
    List.append_nil]

theorem act_one (huses : i.uses = 1) {words : Nat}
    (hgives : i.gives = some words) (fresh : α) (cell : Cell α) (rest : List (Cell α)) :
    i.act fresh (cell :: rest) = some (⟨fresh, words⟩ :: rest) := by
  rw [act_eq hi fresh (by rw [huses]; exact Nat.succ_le_succ (Nat.zero_le _)), hgives, huses]
  rfl

theorem act_push (huses : i.uses = 0) {words : Nat}
    (hgives : i.gives = some words) (fresh : α) (stack : List (Cell α)) :
    i.act fresh stack = some (⟨fresh, words⟩ :: stack) := by
  rw [act_eq hi fresh (by rw [huses]; exact Nat.zero_le _), hgives, huses]
  rfl

end

theorem actAll_cons {is : List Instruction} {fresh : α} {stack stack' : List (Cell α)}
    (h : i.act fresh stack = some stack') :
    actAll fresh (i :: is) stack = actAll fresh is stack' := by
  rw [actAll, h]
  rfl

theorem actAll_singleton (i : Instruction) (fresh : α) (stack : List (Cell α)) :
    actAll fresh [i] stack = i.act fresh stack := by
  rw [actAll]
  cases i.act fresh stack <;> rfl

end Instruction

section coercion

open Instruction

variable {α : Type} (fresh : α) (rest : List (Cell α))

theorem actAll_unbox (receiver : ClassName) (p : Primitive) (cell : Cell α) :
    actAll fresh [Instruction.unbox receiver p] (cell :: rest) =
      some (⟨fresh, p.width⟩ :: rest) := by
  rw [actAll_singleton]
  exact act_one rfl rfl rfl fresh cell rest

theorem act_checkCast (type : RefType) (cell : Cell α) :
    (Instruction.checkCast type).act fresh (cell :: rest) = some (⟨fresh, 1⟩ :: rest) :=
  act_one rfl rfl rfl fresh cell rest

theorem quiet_coercion (actual expected : FieldType) :
    Instruction.Quiet (coercion actual expected) := by
  intro i hi
  unfold coercion at hi
  repeat' split at hi
  all_goals simp only [List.mem_cons, List.not_mem_nil, or_false] at hi
  all_goals first | exact hi.elim | (rcases hi with rfl | rfl <;> rfl)

/-- A value read at another type is one value again, of the width of that type; only a
primitive read at another primitive type stays as it is. -/
theorem actAll_coercion (actual expected : FieldType) (cell : Cell α) :
    ∃ cell', actAll fresh (coercion actual expected) (cell :: rest) = some (cell' :: rest) ∧
      (cell.words = actual.width →
        (actual = expected ∨ actual.isReference ∨ expected.isReference) →
          cell'.words = expected.width) := by
  by_cases heq : actual = expected
  · rw [coercion.eq_def, if_pos heq]
    exact ⟨cell, rfl, fun hw _ => heq ▸ hw⟩
  · rw [coercion.eq_def, if_neg heq]
    cases actual with
    | prim p =>
      cases expected with
      | prim q =>
        refine ⟨cell, rfl, fun _ h => ?_⟩
        rcases h with h | h | h
        · exact absurd h heq
        · cases h
        · cases h
      | ref r =>
        have hbox : (Instruction.invoke .static (.box p)).act fresh (cell :: rest) =
            some (⟨fresh, 1⟩ :: rest) := act_one rfl rfl rfl fresh cell rest
        show ∃ cell', actAll fresh (_ :: _) _ = _ ∧ _
        rw [actAll_cons hbox]
        split
        · exact ⟨_, rfl, fun _ _ => rfl⟩
        · rw [actAll_singleton, act_checkCast]
          exact ⟨_, rfl, fun _ _ => rfl⟩
    | ref r =>
      cases expected with
      | prim q =>
        dsimp only
        split
        · exact ⟨_, actAll_unbox fresh rest _ q cell, fun _ _ => rfl⟩
        · rw [actAll_cons (act_checkCast fresh rest _ cell)]
          exact ⟨_, actAll_unbox fresh rest _ q _, fun _ _ => rfl⟩
      | ref r' =>
        show ∃ cell', actAll fresh (if r' = .object .object then [] else [.checkCast r']) _ = _ ∧ _
        split
        · exact ⟨cell, rfl, fun hw _ => hw⟩
        · rw [actAll_singleton, act_checkCast]
          exact ⟨_, rfl, fun _ _ => rfl⟩

end coercion

def Literal.words : Literal → Nat
  | long _ | double _ => 2
  | _ => 1

def Test.uses : Test → Nat
  | zero _ | null _ => 1
  | ints _ | refs _ => 2

def Branch.uses : Branch → Nat
  | jumpIf test _ => test.uses
  | goto _ | ret none => 0
  | tableSwitch _ _ _ | lookupSwitch _ _ | ret (some _) | throw => 1

end ClassAssembler
