import ClassAssembler.Proofs.Build.Blames
import ClassAssembler.Proofs.Build.Calm
import ClassAssembler.Proofs.Build.Steps

/-!
# Calls without blocks

Most calls of a builder look a few things up, read the values that they are given, and add a value
or an operation.
-/

namespace ClassAssembler
namespace Build

variable {σ α β : Type} {here : Nat} {given : Value → Prop} {P Q : Body → Prop}
  {m : Build σ α} {f : α → Build σ β} {R : Body → α → Prop}

def Anywhere (_ : Value) : Prop := True

theorem anywhere (v : Value) : Anywhere v := trivial

/-- The values that a call in a scope is given are in scope. -/
structure Admits (here : Nat) (given : Value → Prop) (b : Body) : Prop where
  lt : here < b.scopes.size
  descends : b.Descends
  inScope : ∀ v, given v → b.InScope here (.value v)

namespace Admits

variable {b : Body} {x y : Value}

theorem none (hb : b.Ready here) : Admits here (fun _ => False) b :=
  ⟨hb.isOpen.lt, hb.sound.descends, fun _ h => h.elim⟩

theorem one (hb : b.Ready here) (hx : b.InScope here (.value x)) : Admits here (Eq x) b :=
  ⟨hb.isOpen.lt, hb.sound.descends, by rintro _ rfl; exact hx⟩

theorem two (hb : b.Ready here) (hx : b.InScope here (.value x)) (hy : b.InScope here (.value y)) :
    Admits here (fun v => v = x ∨ v = y) b :=
  ⟨hb.isOpen.lt, hb.sound.descends, by rintro _ (rfl | rfl) <;> assumption⟩

theorem after_calm {known : Value → Prop} {w w' : Work σ} {a : α} (hw : Admits here given w.body)
    (hm : Calm here m) (hr : m w = .ok a w')
    (hin : ∀ v, known v → w'.body.InScope here (.value v)) : Admits here known w'.body := by
  have h := (hm w hw.lt).1.toLevel
  rw [after_of_ok hr] at h
  exact ⟨by rw [h.same]; exact hw.lt, fun s p hp => hw.descends (by rwa [← h.parentOf_eq]), hin⟩

end Admits

/-- A step looks something up, and reads only values that are given. -/
structure Looks (here : Nat) (given : Value → Prop) (m : Build σ α) (R : Body → α → Prop) :
    Prop where
  finds : Finds m R
  blames : ∀ {F : Fault → Work σ → Prop} {w : Work σ}, Admits here given w.body → Blames w F m

/-- A call that takes no blocks and stays in its scope. Of the body, it may count on `P`. -/
structure Leaf (here : Nat) (given : Value → Prop) (P : Body → Prop) (m : Build σ α) : Prop where
  keeps : ∀ base, Keeps base here P m
  calm : Calm here m
  stepwise : ∀ mayInit, Stepwise mayInit m
  blames : ∀ {F : Fault → Work σ → Prop} {w : Work σ}, Admits here given w.body → Blames w F m

namespace Looks

theorem see (f : Body → α) : Looks here given (see f : Build σ α) fun b a => a = f b :=
  ⟨.see f, fun _ => .see f⟩

theorem pure (a : α) (h : ∀ b, R b a) : Looks here given (pure a : Build σ α) R :=
  ⟨.pure a h, fun _ => .pure a⟩

theorem ofOption {e : Fault} (h : ∀ outer inner, e ≠ .scopeViolation outer inner) (o : Option α) :
    Looks here given (ofOption e o : Build σ α) fun _ a => o = some a :=
  ⟨.ofOption e o, fun _ => .ofOption h o⟩

theorem typeOf (v : Value) : Looks here given (typeOf v : Build σ FieldType) fun b t =>
    ∃ i, b.values[v.index]? = some i ∧ i.type = t := ⟨.typeOf v, fun _ => blames_typeOf v⟩

theorem operand {v : Value} (hv : given v) (expected : FieldType) :
    Looks here given (operand here v expected : Build σ Operand) fun b o =>
      Reading here expected b o ∧ o.value = v.index :=
  ⟨.operand v expected, fun h => blames_operand h.descends (h.inScope v hv) expected⟩

theorem operandAsIs {v : Value} (hv : given v) :
    Looks here given (operandAsIs here v : Build σ Operand) fun b o => ∃ i,
      b.values[v.index]? = some i ∧ Reading here i.type b o ∧ o.value = v.index :=
  ⟨.operandAsIs v, fun h => blames_operandAsIs h.descends (h.inScope v hv)⟩

theorem bind (hm : Looks here given m R) (hf : ∀ a, Leaf here given (fun b => P b ∧ R b a) (f a)) :
    Leaf here given P (m >>= f) where
  keeps base := hm.finds.bind fun a => (hf a).keeps base
  calm := hm.finds.calm.bind fun a => (hf a).calm
  stepwise mayInit := (Stepwise.find hm.finds).bind fun a => (hf a).stepwise mayInit
  blames hw := .find hm.finds (hm.blames hw) fun a _ => (hf a).blames hw

theorem andThen {S : Body → β → Prop} (hm : Looks here given m R)
    (hf : ∀ a, Looks here given (f a) fun b c => R b a → S b c) : Looks here given (m >>= f) S :=
  ⟨hm.finds.andThen fun a => (hf a).finds,
    fun hw => .find hm.finds (hm.blames hw) fun a _ => (hf a).blames hw⟩

theorem leaf (hm : Looks here given m R) : Leaf here given P m where
  keeps _ := .of_step fun w hw _ => by
    rw [hm.finds.unchanged]
    exact ⟨hw, .refl _ _⟩
  calm := hm.finds.calm
  stepwise _ := .find hm.finds
  blames := hm.blames

end Looks

namespace Leaf

theorem weaken (hm : Leaf here given Q m) (h : ∀ b, P b → Q b) : Leaf here given P m :=
  ⟨fun base => (hm.keeps base).weaken h, hm.calm, hm.stepwise, hm.blames⟩

theorem fail {e : Fault} (h : ∀ outer inner, e ≠ .scopeViolation outer inner) :
    Leaf here given P (fail e : Build σ α) :=
  ⟨fun _ => .fail e, .fail e, fun _ => .fail e, fun _ => .fail h⟩

theorem fail_bind {e : Fault} (f : α → Build σ β)
    (h : ∀ outer inner, e ≠ .scopeViolation outer inner) : Leaf here given P (Build.fail e >>= f) :=
  ⟨fun _ => .fail_bind e f, .fail_bind e f, fun _ => .fail_bind e f, fun _ => .fail_bind f h⟩

theorem mismatch (expected : Expectation) (found : FieldType) :
    Leaf here given P (mismatch expected found : Build σ α) := .fail fun _ _ h => by cases h

theorem map (hm : Leaf here given P m) (g : α → β) :
    Leaf here given P (m >>= fun a => Pure.pure (g a)) where
  keeps base := (hm.keeps base).bind fun _ => .pure _
  calm := hm.calm.bind fun _ => .pure _
  stepwise mayInit := (hm.stepwise mayInit).bind fun _ => .pure _
  blames hw := .bind (hm.blames hw) fun _ _ _ => .pure _

theorem bind {g : α → Value} (hm : Leaf here given (fun _ => True) m)
    (hg : ∀ w a w', m w = .ok a w' → w'.body.InScope here (.value (g a)))
    (hf : ∀ a, Leaf here (Eq (g a)) (fun _ => True) (f a)) :
    Leaf here given (fun _ => True) (m >>= f) where
  keeps base := (hm.keeps base).bind fun a => (hf a).keeps base
  calm := hm.calm.bind fun a => (hf a).calm
  stepwise mayInit := (hm.stepwise mayInit).bind fun a => (hf a).stepwise mayInit
  blames {_ w} hw := .bind (hm.blames hw) fun a w' hr => (hf a).blames
    (hw.after_calm hm.calm hr (by rintro _ rfl; exact hg w a w' hr))

theorem perform {action : Action} {operands : List Operand}
    (h : ∀ base, Keeps base here P (Build.perform here action operands : Build σ Unit)) :
    Leaf here given P (Build.perform here action operands : Build σ Unit) :=
  ⟨h, .push _, fun _ => .perform _ _, fun _ => .perform _ _⟩

theorem yield {action : Action} {operands : List Operand} {type : FieldType}
    (hplain : action.isPlain)
    (h : ∀ b, P b → Readings here b operands ∧
      action.Fits (b.addValue ⟨type, some here, .result⟩).2 operands (some b.values.size)) :
    Leaf here given P (Build.yield here action operands type : Build σ Value) :=
  ⟨fun _ => .yield hplain h, .yield _ _ _, fun _ => .yield _ _ _, fun _ => .yield _ _ _⟩

theorem constant {type : FieldType} {literal : Literal} (h : literal.words = type.width) :
    Leaf here given P (Build.constant type literal : Build σ Value) :=
  ⟨fun _ => .constant h, .addValue _, fun _ => .addValue _, fun _ _ _ _ hr => by cases hr⟩

end Leaf

theorem Calm.of_leaf (h : Leaf here given (fun _ => True) m) : Calm here m := h.calm

theorem Stepwise.of_leaf {mayInit : Bool} (h : Leaf here given (fun _ => True) m) :
    Stepwise mayInit m := h.stepwise mayInit

end Build
end ClassAssembler
