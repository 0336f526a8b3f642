import ClassAssembler.Proofs.Build.Keeps

/-!
# Whom a scope violation is due to

A value may be read, and a scope may be jumped to, below the scope it belongs to and nowhere else.
-/

namespace ClassAssembler

variable {b : Body} {e : Fault} {v : Value}

namespace Build

/-- What a call is handed: a value to read, or a scope to go to. -/
inductive Handle where
  | value (value : Value)
  | scope (target : Target)

end Build

namespace Body

/-- A value of the body that belongs to nobody, or to a scope that is `here` or around it. -/
def Readable (b : Body) (here value : Nat) : Prop :=
  ∃ info, b.values[value]? = some info ∧ ∀ owner, info.owner = some owner → b.Within owner here

/-- A handle, if it is one of this body, belongs to nobody, or to a scope that is `here` or
around it. -/
def InScope (b : Body) (here : Nat) : Build.Handle → Prop
  | .value v => ∀ info owner, b.value? v = some info → info.owner = some owner → b.Within owner here
  | .scope t => t.body = b.id → b.Within t.scope here

theorem InScope.congr {b' : Body} {here : Nat} {handle : Build.Handle} (h : b.InScope here handle)
    (hid : b'.id = b.id) (hscopes : b'.scopes = b.scopes) (hvalues : b'.values = b.values) :
    b'.InScope here handle := by
  have hwithin : ∀ {x y}, b.Within x y → b'.Within x y := by
    intro x y hx
    induction hx with
    | refl => exact .refl
    | step hp _ ih => exact .step (by rwa [parentOf, hscopes]) ih
  cases handle with
  | value v =>
    intro info owner hinfo howner
    rw [value?, hid, hvalues] at hinfo
    exact hwithin (h info owner hinfo howner)
  | scope t => exact fun ht => hwithin (h (ht.trans hid))

end Body

namespace Build

variable {σ α β : Type} {here : Nat} {w : Work σ} {F : Fault → Work σ → Prop}

/-- If a step fails with a scope violation, then in a way that `F` allows for. -/
def Blames (w : Work σ) (F : Fault → Work σ → Prop) (m : Build σ α) : Prop :=
  ∀ outer inner w', m w = .error (.scopeViolation outer inner) w' →
    F (.scopeViolation outer inner) w'

/-- A step in the scope `c`, made when the body was ready for it, ended with a fault and left
this work. -/
def Ends (c : Nat) (m : Build σ α) (e : Fault) (w' : Work σ) : Prop :=
  ∃ w, w.body.Ready c ∧ m w = .error e w'

namespace Blames

theorem bind {m : Build σ α} {f : α → Build σ β} (hm : Blames w F m)
    (hf : ∀ a w', m w = .ok a w' → Blames w' F (f a)) : Blames w F (m >>= f) := by
  intro outer inner w' h
  cases hr : m w with
  | ok a w1 =>
    rw [bind_of_ok hr] at h
    exact hf a w1 hr outer inner w' h
  | error e w1 =>
    rw [bind_of_error hr] at h
    cases h
    exact hm outer inner w' hr

theorem pure (a : α) : Blames w F (pure a : Build σ α) := fun _ _ _ h => by cases h

theorem fail (h : ∀ outer inner, e ≠ .scopeViolation outer inner) :
    Blames w F (fail e : Build σ α) := by
  intro outer inner w' hr
  cases hr
  exact absurd rfl (h outer inner)

theorem fail_bind (f : α → Build σ β) (h : ∀ outer inner, e ≠ .scopeViolation outer inner) :
    Blames w F (Build.fail e >>= f) :=
  (fail h).bind fun _ _ hr => by cases hr

theorem find {m : Build σ α} {R : Body → α → Prop} {f : α → Build σ β} (hr : Finds m R)
    (hm : Blames w F m) (hf : ∀ a, R w.body a → Blames w F (f a)) : Blames w F (m >>= f) := by
  refine hm.bind fun a w' h => ?_
  rcases hr w with ⟨a', hok, hR⟩ | ⟨e, herr⟩
  · rw [hok] at h
    cases h
    exact hf a hR
  · rw [herr] at h
    cases h

theorem see (f : Body → α) : Blames w F (see f : Build σ α) := fun _ _ _ h => by cases h

theorem change (f : Body → α × Body) : Blames w F (change f : Build σ α) :=
  fun _ _ _ h => by cases h

theorem alter (f : Body → Body) : Blames w F (alter f : Build σ Unit) := fun _ _ _ h => by cases h

theorem push (here : Nat) (op : Operation) : Blames w F (push here op : Build σ Unit) := .alter _

theorem perform (action : Action) (operands : List Operand) :
    Blames w F (perform here action operands : Build σ Unit) := .push _ _

theorem yield (action : Action) (operands : List Operand) (type : FieldType) :
    Blames w F (yield here action operands type : Build σ Value) := fun _ _ _ h => by cases h

theorem openScope (parent : Nat) (kind : ScopeKind) :
    Blames w F (openScope parent kind : Build σ Nat) := .change _

theorem mismatch (expected : Expectation) (found : FieldType) :
    Blames w F (mismatch expected found : Build σ α) := .fail fun _ _ h => by cases h

theorem ofOption (h : ∀ outer inner, e ≠ .scopeViolation outer inner) (o : Option α) :
    Blames w F (ofOption e o : Build σ α) := by
  cases o with
  | none => exact .fail h
  | some a => exact .pure a

theorem block {c : Nat} {m : Build σ α} (hw : w.body.Ready c)
    (h : ∀ e w', Ends c m e w' → F e w') : Blames w F m :=
  fun _ _ w' hr => h _ w' ⟨w, hw, hr⟩

end Blames

theorem blames_info (v : Value) : Blames w F (info v : Build σ ValueInfo) :=
  .find (.see _) (.see _) fun _ _ => .ofOption (fun _ _ h => by cases h) _

theorem blames_typeOf (v : Value) : Blames w F (typeOf v : Build σ FieldType) :=
  .find (.info v) (blames_info v) fun _ _ => .pure _

theorem blames_operand (hd : w.body.Descends) (hv : w.body.InScope here (.value v))
    (expected : FieldType) : Blames w F (operand here v expected : Build σ Operand) := by
  unfold operand
  refine .bind (blames_info v) fun info w' hr => ?_
  have hinfo : w' = w ∧ w.body.value? v = some info := by
    unfold Build.info at hr
    rw [bind_of_ok (show (Build.see fun b => b.value? v) w = .ok (w.body.value? v) w from
      rfl)] at hr
    cases hfound : w.body.value? v with
    | none =>
      rw [hfound] at hr
      cases hr
    | some i =>
      rw [hfound] at hr
      cases hr
      exact ⟨rfl, rfl⟩
  obtain ⟨rfl, hinfo⟩ := hinfo
  cases howner : info.owner with
  | none => exact .pure _
  | some owner =>
    refine .find (.see _) (.see _) fun inside hinside => ?_
    rw [(Body.encloses_iff hd).mpr (hv info owner hinfo howner)] at hinside
    subst hinside
    exact .pure _

theorem blames_operandAsIs (hd : w.body.Descends) (hv : w.body.InScope here (.value v)) :
    Blames w F (operandAsIs here v : Build σ Operand) :=
  .find (.typeOf v) (blames_typeOf v) fun _ _ => blames_operand hd hv _

theorem inScope_of_readable (h : b.Readable here v.index) :
    b.InScope here (.value v) := by
  intro info owner hinfo howner
  obtain ⟨i, hi, hall⟩ := h
  rw [Body.value?] at hinfo
  split at hinfo
  · rw [hi] at hinfo
    cases hinfo
    exact hall owner howner
  · cases hinfo

def OwnedBy (owner v : Nat) (b : Body) : Prop := ∃ i, b.values[v]? = some i ∧ i.owner = some owner

theorem OwnedBy.readable {v : Nat} (h : OwnedBy here v b) : b.Readable here v := by
  obtain ⟨info, hinfo, howner⟩ := h
  refine ⟨info, hinfo, fun owner ho => ?_⟩
  rw [howner] at ho
  cases ho
  exact .refl

theorem inScope_constant {type : FieldType} {literal : Literal} {w w' : Work σ}
    (h : constant type literal w = .ok v w') : w'.body.InScope here (.value v) := by
  cases h
  refine inScope_of_readable ⟨⟨type, none, .constant literal⟩, ?_, fun owner ho => by cases ho⟩
  show (w.body.addValue _).2.values[w.body.values.size]? = _
  rw [Body.getElem?_addValue, if_pos rfl]

end Build
end ClassAssembler
