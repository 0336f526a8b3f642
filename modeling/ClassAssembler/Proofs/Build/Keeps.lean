import ClassAssembler.Build.Accessor
import ClassAssembler.Proofs.Body.Ready

/-!
# Steps that keep a body ready

`Keeps base here P m` says of a step `m`: from a body that grew from `base`, is ready for the
scope `here`, and of which `P` holds, it leads to a body that grew from `base` and is still ready,
whether or not it fails.
-/

namespace ClassAssembler

variable {action : Action} {b : Body}
namespace Build

variable {σ τ α β : Type} {base : Body} {here : Nat} {P Q : Body → Prop}

/-- The work that a step leaves, whether or not it failed. -/
def after (m : Build σ α) (w : Work σ) : Work σ :=
  match m w with
  | .ok _ w' => w'
  | .error _ w' => w'

/-- A step keeps a body that grew from `base` ready. -/
def Keeps (base : Body) (here : Nat) (P : Body → Prop) (m : Build σ α) : Prop :=
  ∀ w, w.body.Ready here → base.Grows w.body here → P w.body →
    (after m w).body.Ready here ∧ base.Grows (after m w).body here

/-- A step changes nothing, and finds out `R` if it succeeds. -/
def Finds (m : Build σ α) (R : Body → α → Prop) : Prop :=
  ∀ w, (∃ a, m w = .ok a w ∧ R w.body a) ∨ ∃ e, m w = .error e w

def Gives (m : Build σ α) (R : Body → α → Prop) : Prop :=
  ∀ w a w', m w = .ok a w' → R w'.body a

theorem gives_true (m : Build σ α) : Gives m fun _ _ => True := fun _ _ _ _ => trivial

variable {m : Build σ α} {w w' : Work σ}

theorem after_of_ok {a : α} (h : m w = .ok a w') :
    after m w = w' := by rw [after, h]

theorem after_of_error {e : Fault} (h : m w = .error e w') :
    after m w = w' := by rw [after, h]

def endsWell (m : Build σ α) (w : Work σ) : Bool :=
  match m w with
  | .ok _ _ => true
  | .error _ _ => false

theorem exists_ok_of_endsWell (h : endsWell m w) : ∃ a, m w = .ok a (after m w) := by
  unfold endsWell at h
  cases hr : m w with
  | ok a w' => exact ⟨a, by rw [after_of_ok hr]⟩
  | error e w' =>
    rw [hr] at h
    cases h

theorem bind_of_ok {f : α → Build σ β} {a : α} (h : m w = .ok a w') : (m >>= f) w = f a w' := by
  show EStateM.bind m f w = _
  rw [EStateM.bind, h]

theorem bind_of_error {f : α → Build σ β} {e : Fault}
    (h : m w = .error e w') : (m >>= f) w = .error e w' := by
  show EStateM.bind m f w = _
  rw [EStateM.bind, h]

theorem bind_eq_ok {f : α → Build σ β} {b : β} (h : (m >>= f) w = .ok b w') :
    ∃ a v, m w = .ok a v ∧ f a v = .ok b w' := by
  cases hr : m w with
  | ok a v =>
    rw [bind_of_ok hr] at h
    exact ⟨a, v, rfl, h⟩
  | error e v =>
    rw [bind_of_error hr] at h
    cases h

theorem Gives.bind {f : α → Build σ β} {R : Body → β → Prop} (hf : ∀ a, Gives (f a) R) :
    Gives (m >>= f) R := by
  intro w b w' h
  obtain ⟨a, v, _, h⟩ := bind_eq_ok h
  exact hf a v b w' h

theorem Gives.fail {R : Body → α → Prop} (e : Fault) : Gives (fail e : Build σ α) R :=
  fun _ _ _ h => by cases h

theorem after_bind (m : Build σ α) (f : α → Build σ β) (w : Work σ) :
    after (m >>= f) w = after m w ∨
      ∃ a, m w = .ok a (after m w) ∧ after (m >>= f) w = after (f a) (after m w) := by
  cases hr : m w with
  | ok a w' =>
    rw [after_of_ok hr]
    exact .inr ⟨a, rfl, by rw [after, bind_of_ok hr, after]⟩
  | error e w' => exact .inl (by rw [after, bind_of_error hr, after_of_error hr])

theorem after_outside (m : Build σ α) (b : Body) (d : τ) (s : σ) : after (outside m) ⟨b, d, s⟩ =
    ⟨(after m ⟨b, s⟩).body, d, (after m ⟨b, s⟩).carried⟩ := by
  cases hr : m ⟨b, s⟩ <;> simp only [outside, after, hr]

theorem outside_eq_ok {m : Build σ α} {d : τ} {s : σ} {a : α} {w' : Work (τ × σ)}
    (h : outside m ⟨b, d, s⟩ = .ok a w') :
    ∃ b' s', m ⟨b, s⟩ = .ok a ⟨b', s'⟩ ∧ w' = ⟨b', d, s'⟩ := by
  cases hr : m ⟨b, s⟩ with
  | ok a' v =>
    simp only [outside, hr] at h
    cases h
    exact ⟨_, _, rfl, rfl⟩
  | error e v =>
    simp only [outside, hr] at h
    cases h

theorem after_withDraft (m : Build (τ × σ) Unit) (b : Body) (d : τ) (s : σ) :
    (after (withDraft d m) ⟨b, s⟩).body = (after m ⟨b, d, s⟩).body := by
  cases hr : m ⟨b, d, s⟩ <;> simp only [withDraft, after, hr]

theorem Finds.unchanged {R : Body → α → Prop} (h : Finds m R) (w : Work σ) : after m w = w := by
  rcases h w with ⟨a, hr, _⟩ | ⟨e, hr⟩
  · exact after_of_ok hr
  · exact after_of_error hr

namespace Keeps

variable {m : Build σ α}

theorem weaken (hm : Keeps base here Q m) (h : ∀ b, P b → Q b) :
    Keeps base here P m := fun w hw hg hP => hm w hw hg (h _ hP)

theorem of_step (h : ∀ w, w.body.Ready here → P w.body →
    (after m w).body.Ready here ∧ w.body.Grows (after m w).body here) : Keeps base here P m := by
  intro w hw hg hP
  obtain ⟨hw', hg'⟩ := h w hw hP
  exact ⟨hw', hg.trans hg'⟩

theorem pure (a : α) : Keeps base here P (pure a : Build σ α) := fun _ hw hg _ => ⟨hw, hg⟩

theorem fail (e : Fault) : Keeps base here P (fail e : Build σ α) := fun _ hw hg _ => ⟨hw, hg⟩

theorem fail_bind (e : Fault) (f : α → Build σ β) : Keeps base here P (Build.fail e >>= f) :=
  fun _ hw hg _ => ⟨hw, hg⟩

theorem bindWith {f : α → Build σ β} {R : Body → α → Prop}
    (hm : ∀ base, Keeps base here P m) (hQ : ∀ (b b' : Body) s, b.Grows b' s → P b → Q b')
    (hR : Gives m R) (hf : ∀ a, Keeps base here (fun b => Q b ∧ R b a) (f a)) :
    Keeps base here P (m >>= f) := by
  intro w hw hg hP
  obtain ⟨hw', hg'⟩ := hm w.body w hw (.refl _ _) hP
  rcases after_bind m f w with h | ⟨a, hr, h⟩ <;> rw [h]
  · exact ⟨hw', hg.trans hg'⟩
  · exact hf a _ hw' (hg.trans hg') ⟨hQ _ _ _ hg' hP, hR w a _ hr⟩

theorem bind {f : α → Build σ β} (hm : Keeps base here P m)
    (hf : ∀ a, Keeps base here (fun _ => True) (f a)) : Keeps base here P (m >>= f) := by
  intro w hw hg hP
  obtain ⟨hw', hg'⟩ := hm w hw hg hP
  rcases after_bind m f w with h | ⟨a, _, h⟩ <;> rw [h]
  · exact ⟨hw', hg'⟩
  · exact hf a _ hw' hg' trivial

theorem ready_ok {w : Work σ} (hm : ∀ base, Keeps base here (fun _ => True) m)
    (hw : w.body.Ready here) {a : α} {w' : Work σ} (hr : m w = .ok a w') :
    w'.body.Ready here ∧ w.body.Grows w'.body here := by
  have h := hm w.body w hw (.refl _ _) trivial
  rwa [after_of_ok hr] at h

end Keeps

namespace Finds

variable {m : Build σ α} {R : Body → α → Prop}

theorem bind {f : α → Build σ β} (hm : Finds m R)
    (hf : ∀ a, Keeps base here (fun b => P b ∧ R b a) (f a)) : Keeps base here P (m >>= f) := by
  intro w hw hg hP
  rcases hm w with ⟨a, hr, hR⟩ | ⟨e, hr⟩
  · rw [after, bind_of_ok hr]
    exact hf a w hw hg ⟨hP, hR⟩
  · rw [after, bind_of_error hr]
    exact ⟨hw, hg⟩

theorem andThen {f : α → Build σ β} {S : Body → β → Prop} (hm : Finds m R)
    (hf : ∀ a, Finds (f a) fun b c => R b a → S b c) : Finds (m >>= f) S := by
  intro w
  rcases hm w with ⟨a, hr, hR⟩ | ⟨e, hr⟩
  · rw [bind_of_ok hr]
    rcases hf a w with ⟨c, hr', hS⟩ | hfail
    · exact .inl ⟨c, hr', hS hR⟩
    · exact .inr hfail
  · exact .inr ⟨e, bind_of_error hr⟩

theorem weaken {R S : Body → α → Prop} (hm : Finds m R) (h : ∀ b a, R b a → S b a) : Finds m S := by
  intro w
  rcases hm w with ⟨a, hr, hR⟩ | hfail
  · exact .inl ⟨a, hr, h _ _ hR⟩
  · exact .inr hfail

theorem pure (a : α) (h : ∀ b, R b a) : Finds (pure a : Build σ α) R :=
  fun w => .inl ⟨a, rfl, h w.body⟩

theorem fail (e : Fault) : Finds (fail e : Build σ α) R :=
  fun _ => .inr ⟨e, rfl⟩

theorem fail_bind {R : Body → β → Prop} (e : Fault) (f : α → Build σ β) :
    Finds (Build.fail e >>= f) R := fun _ => .inr ⟨e, rfl⟩

theorem see (f : Body → α) : Finds (see f : Build σ α) fun b a => a = f b :=
  fun w => .inl ⟨f w.body, rfl, rfl⟩

theorem ofOption (e : Fault) (o : Option α) :
    Finds (ofOption e o : Build σ α) fun _ a => o = some a := by
  cases o with
  | none => exact .fail e
  | some a => exact .pure a fun _ => rfl

theorem info (v : Value) :
    Finds (info v : Build σ ValueInfo) fun b i => b.values[v.index]? = some i := by
  refine (see _).andThen fun found => (ofOption _ found).weaken fun b i hi heq => ?_
  rw [heq, Body.value?] at hi
  split at hi
  · exact hi
  · cases hi

theorem typeOf (v : Value) : Finds (typeOf v : Build σ FieldType) fun b t =>
    ∃ i, b.values[v.index]? = some i ∧ i.type = t := by
  refine (info v).andThen fun i => ?_
  exact .pure _ fun b hi => ⟨i, hi, rfl⟩

end Finds

/-- A read of a value that is visible in a scope, at some type. -/
structure Reading (here : Nat) (expected : FieldType) (b : Body) (o : Operand) : Prop where
  value : ∃ i, b.values[o.value]? = some i ∧ o.coercion = coercion i.type expected ∧
    ∀ owner, i.owner = some owner → b.Descends → b.Within owner here

namespace Finds

theorem operand (v : Value) (expected : FieldType) :
    Finds (operand here v expected : Build σ Operand) fun b o =>
      Reading here expected b o ∧ o.value = v.index := by
  unfold Build.operand
  refine (info v).andThen fun i => ?_
  cases ho : i.owner with
  | none =>
    refine .pure _ fun b hi => ⟨⟨i, hi, rfl, ?_⟩, rfl⟩
    intro owner howner
    rw [ho] at howner
    cases howner
  | some owner =>
    refine (see _).andThen fun inside => ?_
    cases inside with
    | true =>
      refine .pure _ fun b hin hi => ⟨⟨i, hi, rfl, ?_⟩, rfl⟩
      intro owner' howner
      rw [ho] at howner
      cases howner
      exact fun hd => (Body.encloses_iff hd).mp hin.symm
    | false =>
      refine ((see _).andThen (S := fun _ _ => False) fun k => ?_).weaken fun _ _ h => h.elim
      exact (see _).andThen fun k' => .fail _

theorem operandAsIs (v : Value) : Finds (operandAsIs here v : Build σ Operand) fun b o =>
    ∃ i, b.values[v.index]? = some i ∧ Reading here i.type b o ∧ o.value = v.index := by
  refine (typeOf v).andThen fun t => (operand v t).weaken fun b o h => ?_
  rintro ⟨i, hi, rfl⟩
  exact ⟨i, hi, h⟩

end Finds

namespace Reading

variable {b : Body} {o : Operand} {expected : FieldType}

section

variable (h : Reading here expected b o)
include h

theorem visible (hb : b.Ready here) :
    b.Visible here (b.defines here) o.value := by
  obtain ⟨i, hi, _, ho⟩ := h.value
  exact hb.visible hi fun owner howner => ho owner howner hb.sound.descends

theorem mono {b' : Body} (he : b.Extends b') :
    Reading here expected b' o := by
  obtain ⟨i, hi, hc, ho⟩ := h.value
  refine ⟨i, he.value _ _ hi, hc, fun owner howner hd => he.within (ho owner howner ?_)⟩
  exact fun s p hp => hd (he.parentOf hp)

theorem fits : o.Fits := by
  obtain ⟨i, _, hc, _⟩ := h.value
  refine ⟨by rw [hc]; exact quiet_coercion i.type expected, fun cell rest => ?_⟩
  obtain ⟨cell', hact, _⟩ := actAll_coercion none rest i.type expected cell
  exact ⟨cell', by rw [hc]; exact hact⟩

end

end Reading

def Readings (here : Nat) (b : Body) (os : List Operand) : Prop :=
  ∀ o ∈ os, ∃ expected, Reading here expected b o

theorem Readings.fits {os : List Operand} (h : Readings here b os) : ∀ o ∈ os, o.Fits := by
  intro o ho
  obtain ⟨_, hr⟩ := h o ho
  exact hr.fits

theorem Readings.needs {op : Operation} (h : Readings here b op.operands) (hb : b.Ready here)
    (hchanges : ∀ v ∈ op.changes, b.Visible here (b.defines here) v) :
    ∀ v ∈ op.needs, b.Visible here (b.defines here) v := by
  intro v hv
  rcases List.mem_append.mp hv with hv | hv
  · obtain ⟨o, ho, rfl⟩ := List.mem_map.mp hv
    obtain ⟨_, hr⟩ := h o ho
    exact hr.visible hb
  · exact hchanges v hv

theorem Readings.mono {b' : Body} {os : List Operand} (h : Readings here b os) (he : b.Extends b') :
    Readings here b' os := by
  intro o ho
  obtain ⟨expected, hr⟩ := h o ho
  exact ⟨expected, hr.mono he⟩

end Build

def Action.isPlain : Action → Bool
  | .insns _ | .new _ | .compare _ _ | .copy => true
  | _ => false

theorem Action.simple_of_isPlain (h : action.isPlain) (operands : List Operand)
    (result : Option Nat) :
    action ≠ .caught ∧ (Operation.simple action operands result).changes = [] ∧
      (Operation.simple action operands result).defines = result.toList := by
  cases action with
  | insns _ | new _ | compare _ _ | copy => cases result <;> exact ⟨by simp, rfl, rfl⟩
  | _ => cases h

namespace Build

namespace Keeps

theorem add {operands : List Operand} (hcaught : action ≠ .caught)
    (hdefines : (Operation.simple action operands none).defines = [])
    (h : ∀ b, P b → Readings here b operands ∧ action.Fits b operands none ∧
      (b.Ready here → ∀ v ∈ (Operation.simple action operands none).changes,
        b.Visible here (b.defines here) v)) :
    Keeps base here P (Build.perform here action operands : Build σ Unit) := by
  refine .of_step fun w hw hP => ?_
  obtain ⟨hreads, hfits, hchanges⟩ := h w.body hP
  have hacc : w.body.Accepts [] here (.simple action operands none) :=
    hw.accepts_simple (.refl _) rfl (fun _ => rfl) hfits hreads.fits
      (Readings.needs hreads hw (hchanges hw)) hdefines List.nodup_nil (fun v hv => by cases hv)
      (fun v hv => by cases hv) (fun v hv => by cases hv) hcaught
  exact ⟨hw.push hacc (.of_plain rfl (by simp)),
    (Body.Grows.refl _ _).push hw.isOpen.lt .refl hw.isOpen.not_settled fun c hc => by cases hc⟩

theorem perform {operands : List Operand} (hplain : action.isPlain)
    (h : ∀ b, P b → Readings here b operands ∧ action.Fits b operands none) :
    Keeps base here P (perform here action operands : Build σ Unit) := by
  obtain ⟨hcaught, hchanges, hdefines⟩ := Action.simple_of_isPlain hplain operands none
  refine .add hcaught hdefines fun b hP => ⟨(h b hP).1, (h b hP).2, fun _ v hv => ?_⟩
  rw [hchanges] at hv
  cases hv

theorem yield {operands : List Operand} {type : FieldType} (hplain : action.isPlain)
    (h : ∀ b, P b → Readings here b operands ∧
      action.Fits (b.addValue ⟨type, some here, .result⟩).2 operands (some b.values.size)) :
    Keeps base here P (yield here action operands type : Build σ Value) := by
  refine .of_step fun w hw hP => ?_
  obtain ⟨hreads, hfits⟩ := h w.body hP
  have ha : Body.Addable ⟨type, some here, .result⟩ :=
    ⟨(fun hnone => by cases hnone), fun _ _ => .inr rfl⟩
  have hnew : (w.body.addValue ⟨type, some here, .result⟩).2.values[w.body.values.size]? =
      some ⟨type, some here, .result⟩ := by rw [Body.getElem?_addValue, if_pos rfl]
  refine hw.isOpen.pushValue hw.sound hw.collects ha _ ?_ rfl rfl
  obtain ⟨hcaught, hchanges, hdefines⟩ := Action.simple_of_isPlain hplain operands
    (some w.body.values.size)
  refine hw.accepts_simple (w.body.extends_addValue _) rfl (fun _ => rfl) hfits hreads.fits
    (Readings.needs hreads hw fun v hv => ?_) hdefines (by simp) (fun v hv => ?_) (fun v hv => ?_)
    (fun v hv => ?_) hcaught
  · rw [hchanges] at hv
    cases hv
  · cases List.mem_singleton.mp hv
    exact ⟨_, hnew, rfl⟩
  · cases List.mem_singleton.mp hv
    exact Nat.le_refl _
  · cases hv
    exact ⟨_, hnew, rfl⟩

theorem constant {type : FieldType} {literal : Literal} (h : literal.words = type.width) :
    Keeps base here P (constant type literal : Build σ Value) := by
  refine .of_step fun w hw _ => ?_
  exact hw.addConstant ⟨fun _ => ⟨literal, rfl, h⟩, fun _ hs => by cases hs⟩ rfl

end Keeps
end Build
end ClassAssembler
