import ClassAssembler.Proofs.Build.Stepwise
import ClassAssembler.Proofs.Code.Constants

/-!
# Numbers out of their wrappers

A call that computes with a number takes any value whose type has a number in it, be it the
primitive or a wrapper.
-/

namespace ClassAssembler

open List Instruction

/-- A value of a primitive type; floating point values are their bits. -/
inductive Scalar where
  | byte (n : Int8)
  | char (unit : UInt16)
  | double (bits : UInt64)
  | float (bits : UInt32)
  | int (n : Int32)
  | long (n : Int64)
  | short (n : Int16)
  | boolean (b : Bool)
  deriving DecidableEq

namespace Scalar

def type : Scalar → Primitive
  | byte _ => .byte
  | char _ => .char
  | double _ => .double
  | float _ => .float
  | int _ => .int
  | long _ => .long
  | short _ => .short
  | boolean _ => .boolean

def number : Scalar → Number
  | byte n => .int n.toInt32
  | char unit => .int unit.toUInt32.toInt32
  | double bits => .double bits
  | float bits => .float bits
  | int n => .int n
  | long n => .long n
  | short n => .int n.toInt32
  | boolean b => .int (if b then 1 else 0)

end Scalar

def Number.type : Number → Primitive
  | int _ => .int
  | long _ => .long
  | float _ => .float
  | double _ => .double

theorem Scalar.type_number (x : Scalar) : x.number.type = x.type.stackType := by
  cases x <;> rfl

/-- An entry of the operand stack: a number, or an object of a wrapper class. -/
inductive StackEntry where
  | number (n : Number)
  | wrapped (x : Scalar)
  deriving DecidableEq

/-- The values of a type that is a primitive or a wrapper, `null` left out, each with what it holds.
-/
inductive Holds : FieldType → StackEntry → Scalar → Prop
  | prim (x : Scalar) : Holds (.prim x.type) (.number x.number) x
  | wrapped (x : Scalar) : Holds (.object x.type.wrapper) (.wrapped x) x

inductive UnboxOutcome where
  | entry (e : StackEntry)
  | classCast
  | other
  deriving DecidableEq

/-- What the method of a wrapper that yields `p` returns. -/
def Scalar.yields (x : Scalar) (p : Primitive) : Bool :=
  p = x.type || (x.type.isNumeric && p = x.type.stackType)

def Instruction.runOn : Instruction → StackEntry → UnboxOutcome
  | .checkCast (.object name), .wrapped x =>
      match Primitive.ofWrapper? name with
      | some p => if p = x.type then .entry (.wrapped x) else .classCast
      | none => .other
  | .invoke .virtual method, .wrapped x =>
      if Primitive.all.any fun p => x.yields p && method = .unbox x.type.wrapper p then
        .entry (.number x.number)
      else .other
  | _, _ => .other

def Instruction.runAll : List Instruction → StackEntry → UnboxOutcome
  | [], e => .entry e
  | i :: is, e =>
      match i.runOn e with
      | .entry e => runAll is e
      | failed => failed

/-- The types that computing with a value takes a number out of. -/
def FieldType.unboxesSafely (type : FieldType) : Prop :=
  type ≠ .object Primitive.char.wrapper ∧ type ≠ .object Primitive.boolean.wrapper

instance (type : FieldType) : Decidable type.unboxesSafely :=
  inferInstanceAs (Decidable (_ ∧ _))

theorem Holds.numericType? {type : FieldType} {e : StackEntry} {x : Scalar} (h : Holds type e x) :
    type.numericType? = some x.type.stackType := by
  cases h with
  | prim => rfl
  | wrapped => cases x <;> rfl

theorem coercion_stackType (p : Primitive) : coercion (.prim p) (.prim p.stackType) = [] := by
  cases p <;> rfl

theorem runAll_coercion_wrapped (x : Scalar) :
    runAll (coercion (.object x.type.wrapper) (.prim x.type.stackType)) (.wrapped x) =
      if x.type.isNumeric then .entry (.number x.number) else .classCast := by
  cases x <;> rfl

theorem Scalar.unboxesSafely_iff (x : Scalar) :
    (FieldType.object x.type.wrapper).unboxesSafely ↔ x.type.isNumeric := by
  rw [FieldType.unboxesSafely]
  cases x.type <;> decide

theorem Holds.runAll_coercion {type : FieldType} {e : StackEntry} {x : Scalar}
    (h : Holds type e x) : runAll (coercion type (.prim x.type.stackType)) e =
      if type.unboxesSafely then .entry (.number x.number) else .classCast := by
  cases h with
  | prim =>
    have hsafe : (FieldType.prim x.type).unboxesSafely :=
      ⟨by simp [FieldType.object], by simp [FieldType.object]⟩
    rw [coercion_stackType, if_pos hsafe]
    rfl
  | wrapped =>
    rw [runAll_coercion_wrapped]
    simp only [x.unboxesSafely_iff]

namespace FieldType

theorem type_numKind {type : FieldType} {k : Primitive} (h : type.numericType? = some k) :
    k.numKind.type = .prim k := by
  have hstack : ∃ p : Primitive, p.stackType = k := by
    cases type with
    | prim p => exact ⟨p, Option.some.inj h⟩
    | ref r =>
      obtain ⟨p, _, hp⟩ := Option.map_eq_some_iff.mp h
      exact ⟨p, hp⟩
  obtain ⟨p, rfl⟩ := hstack
  cases p <;> rfl

theorem type_of_numKind? {type : FieldType} {k : Primitive} {kind : NumKind}
    (h : type.numericType? = some k) (hkind : type.numKind? = some kind) : kind.type = .prim k := by
  rw [numKind?, h] at hkind
  cases hkind
  exact type_numKind h

end FieldType

namespace Build

variable {σ α : Type} {here : Nat} {w : Work σ} {T : Operation → Prop}

namespace EndsWith

theorem yield {action : Action} {operands : List Operand} {type : FieldType}
    (h : ∀ result, T (.simple action operands result)) :
    EndsWith here w (yield here action operands type) T := by
  intro _ _ hr
  cases hr
  exact ⟨_, _, rfl, h _⟩

theorem switchOn {kind : SwitchKind} {table : Option Nat} {selector : Operand}
    {arms : Switch σ Unit} (h : ∀ frame arms fallthrough,
      T (.switch ⟨kind, selector, frame, arms, fallthrough⟩)) :
    EndsWith here w (switchOn here kind table selector arms) T := by
  refine .bind fun frame _ _ => .bind fun draft _ _ => ?_
  intro _ _ hr
  cases hr
  exact ⟨_, _, rfl, h _ _ _⟩

end EndsWith

def ReadsNumber (b : Body) (v : Value) (k : Primitive) (op : Operation) : Prop :=
  ∃ o ∈ op.operands, o.value = v.index ∧
    ∀ i, b.values[v.index]? = some i → o.coercion = coercion i.type (.prim k)

theorem Reading.readsNumber {b : Body} {v : Value} {o : Operand} {k : Primitive} {op : Operation}
    (h : Reading here (.prim k) b o) (hv : o.value = v.index) (hop : o ∈ op.operands) :
    ReadsNumber b v k op := by
  refine ⟨o, hop, hv, fun i hi => ?_⟩
  obtain ⟨i', hi', hcoercion, _⟩ := h.value
  rw [hv, hi] at hi'
  cases hi'
  exact hcoercion

/-- The calls that take a number, made on a body, each with a value that it takes as one and the
type it takes it at. -/
inductive TakesNumber (σ : Type) (here : Nat) (b : Body) :
    {α : Type} → Build σ α → Value → Primitive → Prop
  | arith (op : ArithOp) {left right v : Value} {k : Primitive} : v ∈ [left, right] →
      TakesNumber σ here b (arith here op left right) v k
  | bitwise (op : BitOp) {left right v : Value} {k : Primitive} : v ∈ [left, right] →
      TakesNumber σ here b (bitwise here op left right) v k
  | shift (direction : Shift) (value amount : Value) {k : Primitive} :
      TakesNumber σ here b (shift here direction value amount) value k
  | shiftAmount (direction : Shift) (value amount : Value) :
      TakesNumber σ here b (shift here direction value amount) amount .int
  | neg (value : Value) {k : Primitive} : TakesNumber σ here b (neg here value) value k
  | compare (ord : OrdTest) {left right v : Value} {k : Primitive} : v ∈ [left, right] →
      (∀ l r, b.values[left.index]? = some l → b.values[right.index]? = some r →
        (l.type.isReference && r.type.isReference) = false) →
      TakesNumber σ here b (compare here ord left right) v k
  | convert (value : Value) (target : Primitive) {k : Primitive} :
      TakesNumber σ here b (convert here value target) value k
  | switchInt (selector : Value) (arms : Switch σ Unit) :
      TakesNumber σ here b (switchInt here selector arms) selector .int

section

variable {left right value v : Value} {k : Primitive} {info : ValueInfo}
  (hv : w.body.values[v.index]? = some info) (hk : info.type.numericType? = some k)
include hv hk

theorem readsNumber_pair {kind : NumKind} {o1 o2 : Operand} {op : Operation}
    (hpair : ∀ v ∈ [left, right], ∃ i, w.body.values[v.index]? = some i ∧
      i.type.numKind? = some kind)
    (h1 : Reading here kind.type w.body o1 ∧ o1.value = left.index)
    (h2 : Reading here kind.type w.body o2 ∧ o2.value = right.index)
    (hop : op.operands = [o1, o2]) (hmem : v ∈ [left, right]) :
    ReadsNumber w.body v k op := by
  obtain ⟨i, hi, hkind⟩ := hpair v hmem
  rw [hv] at hi
  cases hi
  rw [FieldType.type_of_numKind? hk hkind] at h1 h2
  rcases mem_cons.mp hmem with rfl | hmem
  · exact h1.1.readsNumber h1.2 (by rw [hop]; exact mem_cons_self)
  · cases mem_singleton.mp hmem
    exact h2.1.readsNumber h2.2 (by rw [hop]; exact .tail _ mem_cons_self)

theorem endsWith_binary {select : NumKind → Option Instruction} (hmem : v ∈ [left, right]) :
    EndsWith here w (binary here select left right) (ReadsNumber w.body v k) := by
  refine .find (.numericPair_both left right) fun kind hpair => ?_
  dsimp only
  split
  · exact .mismatch _ _
  · refine .find (.typeOf left) fun _ _ => .find (.typeOf right) fun _ _ => ?_
    refine .find (.operand left _) fun o1 h1 => .find (.operand right _) fun o2 h2 => ?_
    exact .yield fun _ => readsNumber_pair hv hk hpair h1 h2 rfl hmem

theorem endsWith_compare {ord : OrdTest} (hmem : v ∈ [left, right])
    (hrefs : ∀ l r, w.body.values[left.index]? = some l → w.body.values[right.index]? = some r →
      (l.type.isReference && r.type.isReference) = false) :
    EndsWith here w (compare here ord left right) (ReadsNumber w.body v k) := by
  refine .find (.typeOf left) fun lt hl => .find (.typeOf right) fun rt hr => ?_
  obtain ⟨l, hl, rfl⟩ := hl
  obtain ⟨r, hr, rfl⟩ := hr
  rw [if_neg (by rw [hrefs l r hl hr]; exact Bool.false_ne_true)]
  refine .find (.numericPair_both left right) fun kind hpair => ?_
  refine .find (.operand left _) fun o1 h1 => .find (.operand right _) fun o2 h2 => ?_
  exact .yield fun _ => readsNumber_pair hv hk hpair h1 h2 rfl hmem

theorem type_of_typeOf {type : FieldType} {kind : NumKind}
    (htype : ∃ i, w.body.values[v.index]? = some i ∧ i.type = type)
    (hkind : type.numKind? = some kind) : kind.type = .prim k := by
  obtain ⟨i, hi, rfl⟩ := htype
  rw [hv] at hi
  cases hi
  exact FieldType.type_of_numKind? hk hkind

theorem endsWith_neg : EndsWith here w (neg here v) (ReadsNumber w.body v k) := by
  refine .find (.typeOf v) fun found hfound => ?_
  cases hkind : found.numKind? with
  | none => exact .mismatch _ _
  | some kind =>
    have htype := type_of_typeOf hv hk hfound hkind
    dsimp only
    rw [htype]
    refine .find (.operand v _) fun o ho => .yield fun _ => ?_
    exact ho.1.readsNumber ho.2 mem_cons_self

theorem endsWith_convert {target : Primitive} :
    EndsWith here w (convert here v target) (ReadsNumber w.body v k) := by
  refine .find (.typeOf v) fun found hfound => ?_
  cases hkind : found.numKind? with
  | none => exact .mismatch _ _
  | some kind =>
    have htype := type_of_typeOf hv hk hfound hkind
    dsimp only
    split
    · exact .fail _
    · rw [htype]
      refine .find (.operand v _) fun o ho => .yield fun _ => ?_
      exact ho.1.readsNumber ho.2 mem_cons_self

omit hv hk in
theorem NumKind.type_bitKind {kind : NumKind} {bits : BitKind} (h : kind.bitKind? = some bits) :
    bits.type = kind.type := by
  cases kind <;> cases h <;> rfl

theorem endsWith_shift {direction : Shift} {amount : Value} :
    EndsWith here w (shift here direction v amount) (ReadsNumber w.body v k) := by
  refine .find (.typeOf v) fun found hfound => ?_
  cases hbits : found.numKind?.bind NumKind.bitKind? with
  | none => exact .mismatch _ _
  | some bits =>
    obtain ⟨kind, hkind, hbits⟩ := Option.bind_eq_some_iff.mp hbits
    have htype := type_of_typeOf hv hk hfound hkind
    dsimp only
    rw [NumKind.type_bitKind hbits, htype]
    refine .find (.operand v _) fun o ho => .find (.operand amount _) fun _ _ => ?_
    exact .yield fun _ => ho.1.readsNumber ho.2 mem_cons_self

omit hv hk in
theorem endsWith_shiftAmount {direction : Shift} {amount : Value} :
    EndsWith here w (shift here direction value amount) (ReadsNumber w.body amount .int) := by
  refine .find (.typeOf value) fun found hfound => ?_
  split
  · exact .mismatch _ _
  · refine .find (.operand value _) fun _ _ => .find (.operand amount _) fun o ho => ?_
    exact .yield fun _ => ho.1.readsNumber ho.2 (.tail _ mem_cons_self)

omit hv hk in
theorem endsWith_switchInt {arms : Switch σ Unit} :
    EndsWith here w (switchInt here value arms) (ReadsNumber w.body value .int) :=
  .find (.operand value _) fun _ ho => .switchOn fun _ _ _ => ho.1.readsNumber ho.2 mem_cons_self

/-- A call records how a value that it takes as a number is converted. -/
theorem TakesNumber.endsWith {m : Build σ α} (h : TakesNumber σ here w.body m v k) :
    EndsWith here w m (ReadsNumber w.body v k) := by
  cases h with
  | arith op hmem => exact endsWith_binary hv hk hmem
  | bitwise op hmem => exact endsWith_binary hv hk hmem
  | shift direction value amount => exact endsWith_shift hv hk
  | shiftAmount direction value amount => exact endsWith_shiftAmount
  | neg value => exact endsWith_neg hv hk
  | compare ord hmem hrefs => exact endsWith_compare hv hk hmem hrefs
  | convert value target => exact endsWith_convert hv hk
  | switchInt selector arms => exact endsWith_switchInt

end

/-- A number is taken out of every value that a call computes with, unless the value is a
`Character` or a `Boolean`: taking a number out of those always fails to cast. The call has
recorded the instructions last. -/
theorem numbers_unboxed {σ α : Type} {here : Nat} {w w' : Work σ} {m : Build σ α} {a : α}
    {v : Value} {k : Primitive} {info : ValueInfo} (hcall : TakesNumber σ here w.body m v k)
    (hv : w.body.value? v = some info) (hk : info.type.numericType? = some k)
    (hok : m w = .ok a w') :
    ∃ b op, w'.body = Body.push b here op ∧ ∃ o ∈ op.operands, o.value = v.index ∧
      ∀ e x, Holds info.type e x → x.number.type = k ∧
        runAll o.coercion e =
          if info.type.unboxesSafely then .entry (.number x.number) else .classCast := by
  have hv : w.body.values[v.index]? = some info := by
    rw [Body.value?] at hv
    split at hv
    · exact hv
    · cases hv
  obtain ⟨b, op, hbody, o, hop, hvalue, hcoercion⟩ := TakesNumber.endsWith hv hk hcall a w' hok
  refine ⟨b, op, hbody, o, hop, hvalue, fun e x hx => ?_⟩
  have hstack : x.type.stackType = k := Option.some.inj (hx.numericType?.symm.trans hk)
  rw [hcoercion info hv, ← hstack]
  exact ⟨x.type_number, hx.runAll_coercion⟩

def wrapperStart (p : Primitive) : Work Unit :=
  ⟨((Body.start ⟨0, 0⟩
    { owner := ⟨"Sample"⟩, name := ⟨"run"⟩, type := ⟨[.object p.wrapper], some .int⟩ }
    .staticFlag .object {} #[]).toOption).get rfl, ()⟩

/-- A `Byte` is negated as the `int` that it holds. -/
theorem numbers_unboxed_byte :
    ∃ v w', neg 0 ⟨⟨0, 0⟩, 0⟩ (wrapperStart .byte) = .ok v w' ∧
      ∃ b op, w'.body = Body.push b 0 op ∧ ∃ o ∈ op.operands, o.value = 0 ∧
        runAll o.coercion (.wrapped (.byte (-3))) = .entry (.number (.int (-3))) := by
  refine ⟨_, _, rfl, ?_⟩
  obtain ⟨b, op, hbody, o, hop, hvalue, hrun⟩ := numbers_unboxed (w := wrapperStart .byte)
    (k := .int) (.neg ⟨⟨0, 0⟩, 0⟩) rfl rfl rfl
  exact ⟨b, op, hbody, o, hop, hvalue, (hrun _ _ (.wrapped (.byte (-3)))).2⟩

/-- A `Character` is taken for a number, and negating it fails to cast it to `Integer`. -/
theorem neg_character :
    ((wrapperStart .char).body.value? ⟨⟨0, 0⟩, 0⟩).bind (·.type.numericType?) = some .int ∧
      ((after (neg 0 ⟨⟨0, 0⟩, 0⟩) (wrapperStart .char)).body.operations 0).map Operation.operands =
        [[⟨0, [.checkCast (.object Primitive.int.wrapper), .unbox Primitive.int.wrapper .int]⟩]] ∧
      Holds (.object Primitive.char.wrapper) (.wrapped (.char 97)) (.char 97) ∧
      runAll
        [.checkCast (.object Primitive.int.wrapper), .unbox Primitive.int.wrapper .int]
        (.wrapped (.char 97)) = .classCast :=
  ⟨by decide, by decide, .wrapped (.char 97), by decide⟩

end Build
end ClassAssembler
