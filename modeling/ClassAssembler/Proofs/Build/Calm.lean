import ClassAssembler.Proofs.Build.Keeps

/-!
# Calls without scopes

Most calls of a builder only read values and add simple operations.
-/

namespace ClassAssembler

/-- Nothing happened to the scope tree and to the try statements under construction. -/
structure Body.Level (b b' : Body) : Prop extends Body.Extends b b' where
  same : b'.scopes.size = b.scopes.size
  tries : b'.tries = b.tries

structure Body.Alike (b b' : Body) : Prop extends Body.Level b b' where
  tables : b'.tables = b.tables

namespace Body

variable {b b' b'' : Body}

namespace Level

theorem parentOf_eq (h : b.Level b') (s : Nat) : b'.parentOf s = b.parentOf s := by
  rcases Nat.lt_or_ge s b.scopes.size with hlt | hge
  · exact h.parent s hlt
  · rw [parentOf_eq_none hge, parentOf_eq_none (by rw [h.same]; exact hge)]

theorem kindOf_eq (h : b.Level b') (s : Nat) : b'.kindOf s = b.kindOf s := by
  rcases Nat.lt_or_ge s b.scopes.size with hlt | hge
  · exact h.kind s hlt
  · rw [kindOf, kindOf, Array.getElem?_eq_none hge, Array.getElem?_eq_none
      (by rw [h.same]; exact hge)]

theorem push (b : Body) {here : Nat} (op : Operation) (h : here < b.scopes.size) :
    b.Level (b.push here op) := ⟨b.extends_push op h, b.size_push here op, rfl⟩

end Level

namespace Alike

theorem refl (b : Body) : b.Alike b := ⟨⟨.refl b, rfl, rfl⟩, rfl⟩

theorem trans (h : b.Alike b') (h' : b'.Alike b'') : b.Alike b'' :=
  ⟨⟨h.toExtends.trans h'.toExtends, h'.same.trans h.same, h'.tries.trans h.tries⟩,
    h'.tables.trans h.tables⟩

theorem addValue (b : Body) (info : ValueInfo) : b.Alike (b.addValue info).2 :=
  ⟨⟨b.extends_addValue info, rfl, rfl⟩, rfl⟩

theorem push (b : Body) {here : Nat} (op : Operation) (h : here < b.scopes.size) :
    b.Alike (b.push here op) := ⟨.push b op h, rfl⟩

end Alike
end Body

namespace Build

variable {σ α β : Type} {here : Nat}

/-- A step in a scope only adds values and operations, and leaves the state of the caller
alone. -/
def Calm (here : Nat) (m : Build σ α) : Prop :=
  ∀ w : Work σ, here < w.body.scopes.size →
    w.body.Alike (after m w).body ∧ (after m w).carried = w.carried

theorem Finds.calm {m : Build σ α} {R : Body → α → Prop} (h : Finds m R) : Calm here m := by
  intro w _
  rw [h.unchanged]
  exact ⟨.refl _, rfl⟩

namespace Calm

theorem pure (a : α) : Calm here (pure a : Build σ α) := fun _ _ => ⟨.refl _, rfl⟩

theorem fail (e : Fault) : Calm here (fail e : Build σ α) := fun _ _ => ⟨.refl _, rfl⟩

theorem bind {m : Build σ α} {f : α → Build σ β} (hm : Calm here m) (hf : ∀ a, Calm here (f a)) :
    Calm here (m >>= f) := by
  intro w hlt
  have h := hm w hlt
  rcases after_bind m f w with heq | ⟨a, _, heq⟩ <;> rw [heq]
  · exact h
  · obtain ⟨h', hsame⟩ := hf a _ (by rw [h.1.same]; exact hlt)
    exact ⟨h.1.trans h', hsame.trans h.2⟩

theorem addValue (info : ValueInfo) : Calm here (addValue info : Build σ Value) :=
  fun _ _ => ⟨.addValue _ info, rfl⟩

theorem push (op : Operation) : Calm here (push here op : Build σ Unit) :=
  fun _ hlt => ⟨.push _ op hlt, rfl⟩

theorem yield (action : Action) (operands : List Operand) (type : FieldType) :
    Calm here (yield here action operands type : Build σ Value) :=
  (addValue _).bind fun _ => (push _).bind fun _ => .pure _

theorem operand (value : Value) (type : FieldType) :
    Calm here (operand here value type : Build σ Operand) := (Finds.operand value type).calm

theorem operandAsIs (value : Value) : Calm here (operandAsIs here value : Build σ Operand) :=
  (Finds.operandAsIs value).calm

theorem typeOf (value : Value) : Calm here (typeOf value : Build σ FieldType) :=
  (Finds.typeOf value).calm

theorem see (f : Body → α) : Calm here (see f : Build σ α) := (Finds.see f).calm

theorem ofExcept (e : Except Fault α) : Calm here (ofExcept e : Build σ α) := by
  cases e with
  | ok a => exact pure a
  | error fault => exact fail fault

theorem fail_bind (e : Fault) (f : α → Build σ β) : Calm here (Build.fail e >>= f) :=
  fun _ _ => ⟨.refl _, rfl⟩

theorem alter {f : Body → Body} (h : ∀ b : Body, b.Alike (f b)) :
    Calm here (alter f : Build σ Unit) :=
  fun w _ => ⟨h w.body, rfl⟩

theorem change {f : Body → α × Body} (h : ∀ b : Body, b.Alike (f b).2) :
    Calm here (change f : Build σ α) := fun w _ => ⟨h w.body, rfl⟩

theorem noteInit : Calm here (noteInit : Build σ Unit) := by
  refine (change fun b => ?_).bind fun early => ?_
  · have hinit : ∀ init, b.Alike { b with init } := fun init =>
      ⟨⟨⟨Nat.le_refl _, fun _ _ => rfl, fun _ _ => rfl, fun _ _ h => h, fun _ => .refl _, rfl⟩, rfl,
        rfl⟩, rfl⟩
    split
    · exact .refl b
    · split
      · exact hinit _
      · exact hinit _
  · split
    · exact fail _
    · exact .pure _

theorem noteField (field : FieldRef) (object : Value) :
    Calm here (noteField field object : Build σ Unit) := by
  refine alter fun b => ?_
  split
  · split
    · exact ⟨⟨⟨Nat.le_refl _, fun _ _ => rfl, fun _ _ => rfl, fun _ _ h => h,
        fun _ => .refl _, rfl⟩, rfl, rfl⟩, rfl⟩
    · exact .refl b
  · exact .refl b

end Calm

end Build
end ClassAssembler
