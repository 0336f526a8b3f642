import ClassAssembler.Proofs.Build.Built

/-!
# Handles and scopes

A value may be read, and a scope may be jumped to, below the scope it belongs to and nowhere else.
-/

namespace ClassAssembler

namespace Body

theorem Visible.readable {b : Body} {s v : Nat} {known : List Nat} (h : b.Visible s known v) :
    b.Readable s v := by
  obtain ⟨info, hinfo, hown⟩ := h
  refine ⟨info, hinfo, fun owner howner => ?_⟩
  rcases hown with hnone | ⟨hself, _⟩ | ⟨c, owner', hown, hc, hp, _⟩
  · rw [hnone] at howner
    cases howner
  · rw [hself] at howner
    cases howner
    exact .refl
  · rw [hown] at howner
    cases howner
    exact (Within.of_parent hp).trans hc

end Body

namespace Operation

def writes : Operation → Option Nat
  | simple (.store var _) _ _ | simple (.inc var _) _ _ => some var
  | _ => none

end Operation

theorem Body.SoundUpTo.writes_readable {b : Body} (h : b.Sound) {s v : Nat} {op : Operation}
    (hop : op ∈ b.operations s) (hv : op.writes = some v) : b.Readable s v := by
  obtain ⟨l1, l2, hsplit⟩ := List.append_of_mem hop
  have hchange : v ∈ op.changes → b.Readable s v := fun hmem =>
    (h.visible hsplit v (List.mem_append_right _ hmem)).readable
  cases op with
  | simple action operands result =>
    cases action with
    | store var declares =>
      cases hv
      cases declares with
      | false => exact hchange (.head _)
      | true =>
        have hdef : v ∈ b.defines s := List.mem_flatMap_of_mem hop (.head ..)
        obtain ⟨info, hinfo, howner⟩ := h.defines_owner hdef
        refine ⟨info, hinfo, fun owner ho => ?_⟩
        rw [howner] at ho
        cases ho
        exact .refl
    | inc var delta =>
      cases hv
      exact hchange (.head _)
    | _ => cases hv
  | _ => cases hv

namespace Build

variable {σ α : Type} {here : Nat} {w : Work σ} {F : Fault → Work σ → Prop}

theorem inScope_receiver {b : Body} (hb : b.Sound) {v : Value} (h : b.receiver? = some v) :
    b.InScope here (.value v) := by
  unfold Body.receiver? at h
  split at h
  · next hreceiver =>
    cases h
    obtain ⟨info, hinfo, howner⟩ := hb.receiver hreceiver
    refine inScope_of_readable ⟨info, hinfo, fun owner ho => ?_⟩
    rw [howner] at ho
    cases ho
  · cases h

theorem noteInit_same {w' : Work σ} (hr : noteInit w = .ok () w') :
    w'.body.id = w.body.id ∧ w'.body.scopes = w.body.scopes ∧ w'.body.values = w.body.values := by
  rcases hinit : w.body.init with _ | ⟨called, _ | field⟩ <;>
    simp only [noteInit, Build.change, Bind.bind, EStateM.bind, hinit] at hr <;> cases hr <;>
    exact ⟨rfl, rfl, rfl⟩

section ready

variable (hw : w.body.Ready here)
include hw

theorem blames_jump (kind : JumpKind) {target : Target} (ht : w.body.InScope here (.scope target)) :
    Blames w F (jump here kind target : Build σ Unit) := by
  unfold jump
  refine .find (.see _) (.see _) fun id hid => ?_
  split
  · exact .fail_bind _ fun _ _ h => by cases h
  · next hsame =>
    refine .find (.see _) (.see _) fun found _ => .find (.see _) (.see _) fun inside hinside => ?_
    have hin : w.body.Within target.scope here := ht ((Decidable.not_not.mp hsame).trans hid)
    rw [(Body.encloses_iff hw.sound.descends).mpr hin] at hinside
    subst hinside
    show Blames w F (if kind = .again ∧ found ≠ .loop then _ else _)
    split
    · exact .fail_bind _ fun _ _ h => by cases h
    · exact .bind (.change _) fun _ _ _ => .push _ _

theorem blames_returnValue {v : Value} (hv : w.body.InScope here (.value v)) :
    Blames w F (returnValue here v : Build σ Unit) := by
  unfold returnValue
  refine .find (.see _) (.see _) fun returns _ => ?_
  split
  · exact .find (.typeOf v) (blames_typeOf v) fun _ _ => .mismatch _ _
  · next type _ =>
    have hv' := Admits.one hw hv
    refine .find (.operand v type) ((Looks.operand rfl type).blames hv') fun direct _ => ?_
    refine .find (.see _) (.see _) fun crosses _ => ?_
    split
    · have hdeclare : Leaf here (Eq v) (fun _ => True) (declareOf here type v : Build σ Variable) :=
        leaf_declareOf rfl type
      refine .bind (hdeclare.blames hv') fun stash w' hr => ?_
      -- The stash belongs to the scope itself.
      have hready := (Keeps.ready_ok hdeclare.keeps hw hr).1
      have hstash := (gives_declareOf type v w stash w' hr).readable
      refine .find (.operandAsIs stash.value)
        (blames_operandAsIs hready.sound.descends (inScope_of_readable hstash)) fun _ _ => ?_
      exact .bind (.change _) fun _ _ _ => .push _ _
    · exact .bind (.pure _) fun _ _ _ => .bind (.change _) fun _ _ _ => .push _ _

theorem blames_invokeConstructor (constructor : MethodRef) {args : List Value}
    (hargs : ∀ arg ∈ args, w.body.InScope here (.value arg)) :
    Blames w F (invokeConstructor here constructor args : Build σ Unit) := by
  unfold invokeConstructor
  refine .find (.see _) (.see _) fun init _ => .find (.see _) (.see _) fun object hobject => ?_
  split
  · next object _ =>
    refine .find (.see _) (.see _) fun owner _ => .find (.see _) (.see _) fun superClass _ => ?_
    split
    · exact .fail_bind _ fun _ _ h => by cases h
    · refine .bind (.bind (.change _) fun early w' _ => ?_) fun _ w' hr => ?_
      · split
        · exact .fail fun _ _ h => by cases h
        · exact .pure _
      · obtain ⟨hid, hscopes, hvalues⟩ := noteInit_same hr
        have hadmits : Admits here (fun v => v = object ∨ v ∈ args) w'.body := by
          refine (Admits.none hw).after_calm .noteInit hr fun v hv => ?_
          refine Body.InScope.congr ?_ hid hscopes hvalues
          rcases hv with rfl | hv
          · exact inScope_receiver hw.sound hobject.symm
          · exact hargs v hv
        exact .find (.operandAsIs object) ((Looks.operandAsIs (.inl rfl)).blames hadmits) fun _ _ =>
          .find (.arguments constructor args)
            ((Looks.arguments constructor fun _ => .inr).blames hadmits) fun _ _ => .perform _ _
  · exact .fail fun _ _ h => by cases h

/-- A call without blocks is not refused for the sake of scopes if the handles it uses are in
scope. -/
theorem Call.blames {m : Build σ α} {handles : List Handle} (h : Call σ here m handles)
    (hin : ∀ handle ∈ handles, w.body.InScope here handle) : Blames w F m := by
  rcases h.sorts with hexit | hinit | hleaf
  · cases hexit with
    | jump kind target => exact blames_jump hw kind (hin _ (.head _))
    | returnVoid =>
      refine .find (.see _) (.see _) fun returns _ => ?_
      cases returns with
      | some type => exact .fail fun _ _ h => by cases h
      | none => exact .bind (.change _) fun _ _ _ => .push _ _
    | returnValue value => exact blames_returnValue hw (hin _ (.head _))
  · cases hinit with
    | call constructor args =>
      exact blames_invokeConstructor hw constructor fun arg harg => hin _ (List.mem_map_of_mem harg)
  · exact hleaf.blames ⟨hw.isOpen.lt, hw.sound.descends, fun v hv => hin _ hv⟩

end ready

end Build
end ClassAssembler
