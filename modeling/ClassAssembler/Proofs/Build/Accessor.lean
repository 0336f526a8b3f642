import ClassAssembler.Proofs.Build.Program

/-!
# Accessors as programs

The body of an accessor makes calls that any other body could make.
-/

namespace ClassAssembler

namespace Build

variable {σ : Type} {here : Nat}

def result (method : MethodRef) : Option Value → Build σ Value :=
  ofOption (.arity method 0 0)

theorem writes_result (method : MethodRef) (o : Option Value) :
    Writes σ here Value (result method o) := by
  cases o with
  | none => exact .fail _
  | some v => exact .pure v

theorem writes_yieldStatic {method : MethodRef} {type : FieldType}
    (htype : method.type = ⟨[], some type⟩) :
    Writes σ here Value (yield here (.insns [.invoke .static method]) [] type) := by
  have heq : yield here (.insns [.invoke .static method]) [] type =
      invokeStatic (σ := σ) here method [] >>= result method := by
    unfold invokeStatic invoke arguments
    rw [htype]
    rfl
  rw [heq]
  exact .bind (.call (.invokeStatic method [])) fun o => writes_result method o

theorem writes_yieldVirtual {α : Type} (method : MethodRef) {type : FieldType}
    (htype : method.type = ⟨[], some type⟩) (object : Value) {rest : Value → Build σ α}
    (hrest : ∀ v, Writes σ here α (rest v)) :
    Writes σ here α (operand here object (.object method.owner) >>= fun read =>
      yield here (.insns [.invoke .virtual method]) [read] type >>= rest) := by
  have heq : (operand here object (.object method.owner) >>= fun read =>
      yield here (.insns [.invoke .virtual method]) [read] type >>= rest) =
      (invokeVirtual (σ := σ) here method object [] >>= result method) >>= rest := by
    funext w
    unfold invokeVirtual invoke arguments
    rw [htype]
    simp only [bind, EStateM.bind]
    cases operand here object (.object method.owner) w <;> rfl
  rw [heq]
  exact .bind (.bind (.call (.invokeVirtual method object [])) fun o => writes_result
    method o) hrest

theorem writes_forM {α : Type} {f : α → Build σ Unit} (hf : ∀ a, Writes σ here Unit (f a))
    (as : List α) : Writes σ here Unit (as.forM f) := by
  induction as with
  | nil => exact .pure ()
  | cons a as ih => exact .bind (hf a) fun _ => ih

end Build

namespace OrdinalTable

open Build

variable {σ : Type} (table : OrdinalTable) {here : Nat}

theorem writes_enterConstant (fresh : Value) (constant : MemberName) (position : Nat) :
    Writes σ here Unit (table.enterConstant fresh constant position here) :=
  .tryCatch (.bind (.body fun _ => .bind (.call (.getStatic _)) fun member =>
    writes_yieldVirtual (.enumOrdinal table.enumType) rfl member fun _ =>
      .bind (.call (.constInt _)) fun _ => .call (.arrayStore ..)) fun _ =>
    .catchClause _ fun _ _ => .pure ())

theorem writes_accessorBody : Writes σ here Unit (table.accessorBody here) :=
  .bind (.call (.getStatic _)) fun cached =>
    .bind (.call (.nullCheck .ne cached)) fun present =>
    .bind (.ifThen present fun _ => .call (.returnValue cached)) fun _ =>
    .bind (writes_yieldStatic rfl) fun values =>
    .bind (.call (.arrayLength values)) fun length =>
    .bind (.call (.newArray .int length)) fun fresh =>
    .bind (writes_forM (fun _ => table.writes_enterConstant ..) _) fun _ =>
    .bind (.call (.putStatic _ fresh)) fun _ => .call (.returnValue fresh)

end OrdinalTable

end ClassAssembler
