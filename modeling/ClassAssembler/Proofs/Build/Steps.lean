import ClassAssembler.Proofs.Build.Keeps

/-!
# Steps of a body

Whatever a builder does to a body, it does in a few kinds of steps: it adds a value, opens a
scope, adds an operation, changes the try statements under construction, takes note of what a
constructor does to its object, or adds to the ordinal tables.
-/

namespace ClassAssembler

open List OrdinalTable

namespace OrdinalTable

structure Grows (row row' : OrdinalTable) : Prop where
  enumType : row'.enumType = row.enumType
  field : row'.field = row.field
  accessor : row'.accessor = row.accessor
  constants : row.constants.toList <+: row'.constants.toList

namespace Grows

theorem refl (row : OrdinalTable) : row.Grows row := ⟨rfl, rfl, rfl, prefix_rfl⟩

theorem trans {row row' row'' : OrdinalTable} (h : row.Grows row') (h' : row'.Grows row'') :
    row.Grows row'' :=
  ⟨h'.enumType.trans h.enumType, h'.field.trans h.field, h'.accessor.trans h.accessor,
    h.constants.trans h'.constants⟩

theorem enter (row : OrdinalTable) (constant : MemberName) : row.Grows (row.enter constant).2 := by
  unfold OrdinalTable.enter
  split
  · exact refl row
  · refine ⟨rfl, rfl, rfl, ?_⟩
    rw [Array.toList_push]
    exact prefix_append _ _

end Grows

theorem getElem?_enter (row : OrdinalTable) (constant : MemberName) :
    (row.enter constant).2.constants[(row.enter constant).1]? = some constant := by
  unfold enter
  split
  · next position h =>
    rw [← row.constants.toArray_toList, idxOf?_toArray] at h
    obtain ⟨hlt, heq, _⟩ := idxOf?_eq_some_iff.mp h
    rw [← Array.getElem?_toList, getElem?_eq_getElem hlt, heq]
  · exact Array.getElem?_push_size

def Extend (tables tables' : All) : Prop :=
  ∀ (t : Nat) (row : OrdinalTable), tables[t]? = some row → ∃ row', tables'[t]? = some row' ∧
    row.Grows row'

namespace Extend

variable {tables tables' tables'' : All}

theorem refl (tables : All) : Extend tables tables := fun _ row h => ⟨row, h, .refl row⟩

theorem trans (h : Extend tables tables') (h' : Extend tables' tables'') :
    Extend tables tables'' := by
  intro t row hrow
  obtain ⟨row', hrow', hg⟩ := h t row hrow
  obtain ⟨row'', hrow'', hg'⟩ := h' t row' hrow'
  exact ⟨row'', hrow'', hg.trans hg'⟩

theorem push (tables : All) (row : OrdinalTable) : Extend tables (tables.push row) := by
  intro t row' h
  have hlt := (Array.getElem?_eq_some_iff.mp h).1
  exact ⟨row', by rw [Array.getElem?_push, if_neg (Nat.ne_of_lt hlt)]; exact h, .refl row'⟩

theorem enter {t : Nat} {row : OrdinalTable} (h : tables[t]? = some row) (constant : MemberName) :
    Extend tables (tables.setIfInBounds t (row.enter constant).2) := by
  intro t' row' h'
  rw [Array.getElem?_setIfInBounds]
  split
  · next heq =>
    subst heq
    rw [h] at h'
    cases h'
    exact ⟨_, by rw [if_pos (Array.getElem?_eq_some_iff.mp h).1], .enter row constant⟩
  · exact ⟨row', h', .refl row'⟩

end Extend
end OrdinalTable

/-- The keys that a switch of a kind has. Those of a switch on an enum are case indices of its
table. -/
def SwitchKind.Takes (tables : OrdinalTable.All) (table : Option Nat) :
    SwitchKind → CaseKey → Prop
  | .int, .int _ => True
  | .string, .text _ => True
  | .enum _ _, .index v => ∃ t row position, table = some t ∧ tables[t]? = some row ∧
      position < row.constants.size ∧ v = caseIndex position
  | _, _ => False

/-- Arms of a switch that goes through a table of its own if it is one on an enum. -/
structure Keyed (tables : OrdinalTable.All) (table : Option Nat) (kind : SwitchKind)
    (arms : List Arm) : Prop where
  takes : ∀ arm ∈ arms, ∀ key ∈ arm.keys, kind.Takes tables table key
  nodup : (arms.flatMap Arm.keys).Nodup
  unlabelled : ∀ arm ∈ arms, arm.isDefault → arm.keys = []
  oneDefault : (arms.filter Arm.isDefault).length ≤ 1
  row : ∀ type accessor, kind = .enum type accessor → ∃ t row, table = some t ∧
    tables[t]? = some row ∧ row.enumType = type ∧ row.accessor = accessor

theorem SwitchKind.Takes.mono {tables tables' : OrdinalTable.All} {table : Option Nat}
    {kind : SwitchKind} {key : CaseKey} (h : kind.Takes tables table key)
    (he : OrdinalTable.Extend tables tables') : kind.Takes tables' table key := by
  cases kind with
  | enum type accessor =>
    cases key with
    | index v =>
      obtain ⟨t, row, position, htable, hrow, hlt, hv⟩ := h
      obtain ⟨row', hrow', hg⟩ := he t row hrow
      exact ⟨t, row', position, htable, hrow', Nat.lt_of_lt_of_le hlt hg.constants.length_le, hv⟩
    | _ => exact h.elim
  | _ => cases key <;> exact h

theorem Keyed.mono {tables tables' : OrdinalTable.All} {table : Option Nat} {kind : SwitchKind}
    {arms : List Arm} (h : Keyed tables table kind arms)
    (he : OrdinalTable.Extend tables tables') : Keyed tables' table kind arms where
  takes arm harm key hkey := (h.takes arm harm key hkey).mono he
  nodup := h.nodup
  unlabelled := h.unlabelled
  oneDefault := h.oneDefault
  row type accessor hkind := by
    obtain ⟨t, row, htable, hrow, htype, haccessor⟩ := h.row type accessor hkind
    obtain ⟨row', hrow', hg⟩ := he t row hrow
    exact ⟨t, row', htable, hrow', hg.enumType.trans htype, hg.accessor.trans haccessor⟩

theorem coercion_self (type : FieldType) : coercion type type = [] := by
  unfold coercion
  exact if_pos rfl

/-- How the selector of a switch of a kind is converted from its type. -/
def SwitchKind.Converts : SwitchKind → FieldType → List Instruction → Prop
  | .int, type, conversion => conversion = coercion type .int
  | .string, type, conversion => conversion = coercion type .string
  | .enum name _, type, conversion => type = .object name ∧ conversion = []

def SwitchStatement.Reads (S : SwitchStatement) (values : Array ValueInfo) : Prop :=
  ∃ info, values[S.selector.value]? = some info ∧ S.kind.Converts info.type S.selector.coercion

namespace Body

/-- One step. Some programs add no switches and do not call a constructor on the object under
construction, and `mayInit` says whether this one may. -/
inductive Step (mayInit : Bool) : Body → Body → Prop
  | addValue (b : Body) (info : ValueInfo) : Step mayInit b (b.addValue info).2
  | openScope (b : Body) (parent : Nat) (kind : ScopeKind) :
      Step mayInit b (b.openScope (some parent) kind).2
  | push (b : Body) (s : Nat) (op : Operation) : (∀ S, op ≠ .switch S) →
      Step mayInit b (b.push s op)
  | pushSwitch (b : Body) (s : Nat) (S : SwitchStatement) (table : Option Nat) : mayInit →
      Keyed b.tables table S.kind S.arms → S.Reads b.values → Step mayInit b (b.push s (.switch S))
  | tries (b : Body) (tries : List TryFrame) (nextTry : Nat) :
      Step mayInit b { b with tries := tries, nextTry := nextTry }
  | earlyField (b : Body) (name : MemberName) : b.init = some ⟨false, none⟩ →
      Step mayInit b { b with init := some ⟨false, some name⟩ }
  | forgetField (b : Body) (called : Bool) (name : MemberName) : b.init = some ⟨called, some name⟩ →
      Step mayInit b { b with init := some ⟨called, none⟩ }
  | callInit (b : Body) (called : Bool) : mayInit → b.init = some ⟨called, none⟩ →
      Step mayInit b { b with init := some ⟨true, none⟩ }
  | enter (b : Body) (t : Nat) (row : OrdinalTable) (constant : MemberName) :
      b.tables[t]? = some row →
      Step mayInit b { b with tables := b.tables.setIfInBounds t (row.enter constant).2 }
  | addTable (b : Body) (enumType : ClassName) (table : OrdinalTable) (notice : Notice) :
      shared? b.settings b.tables enumType = none →
      create b.settings b.method.owner enumType
        (siblings b.tables enumType) = .ok table →
      Step mayInit b { b with notices := b.notices.push notice, tables := b.tables.push table }

theorem mem_operations_push {b : Body} {s t : Nat} {op op' : Operation}
    (h : op' ∈ b.operations t) : op' ∈ (b.push s op).operations t := by
  have hlt := lt_size_of_mem_operations h
  by_cases hts : s = t
  · subst hts
    rw [operations_push_self _ _ _ hlt]
    exact mem_append_left _ h
  · rw [operations_push_of_ne _ _ _ (Ne.symm hts)]
    exact h

inductive Steps (mayInit : Bool) (b : Body) : Body → Prop
  | refl : Steps mayInit b b
  | step {b' b'' : Body} : Steps mayInit b b' → Step mayInit b' b'' → Steps mayInit b b''

namespace Steps

variable {mayInit : Bool} {b b' b'' : Body}

theorem one (h : Step mayInit b b') : b.Steps mayInit b' := .step .refl h

variable (h : b.Steps mayInit b')
include h

theorem trans (h' : b'.Steps mayInit b'') : b.Steps mayInit b'' := by
  induction h' with
  | refl => exact h
  | step _ hstep ih => exact ih.step hstep

theorem preserves {P : Body → Prop} (hP : ∀ {c c'}, Step mayInit c c' → P c → P c') (hb : P b) :
    P b' := by
  induction h with
  | refl => exact hb
  | step _ hstep ih => exact hP hstep ih

theorem relates {R : Body → Body → Prop} (hrefl : ∀ c, R c c)
    (htrans : ∀ {c c' c''}, R c c' → R c' c'' → R c c'')
    (hR : ∀ {c c'}, Step mayInit c c' → R c c') : R b b' :=
  h.preserves (P := R b) (fun hstep hc => htrans hc (hR hstep)) (hrefl b)

theorem tables : OrdinalTable.Extend b.tables b'.tables := by
  refine h.relates (R := fun b b' => OrdinalTable.Extend b.tables b'.tables) (fun _ => .refl _)
    .trans fun hstep => ?_
  cases hstep with
  | enter t row constant hrow => exact .enter hrow constant
  | addTable enumType table notice => exact .push _ table
  | _ => exact .refl _

theorem values {v : Nat} {info : ValueInfo} (hv : b.values[v]? = some info) :
    b'.values[v]? = some info := by
  refine h.preserves (P := fun b => b.values[v]? = some info) (fun hstep hv => ?_) hv
  cases hstep with
  | addValue info =>
    have hlt := (Array.getElem?_eq_some_iff.mp hv).1
    exact (Array.getElem?_push_lt hlt).trans ((Array.getElem?_eq_getElem hlt).symm.trans hv)
  | _ => exact hv

theorem operations :
    b.scopes.size ≤ b'.scopes.size ∧ ∀ s op, op ∈ b.operations s → op ∈ b'.operations s := by
  refine h.relates (R := fun b b' => b.scopes.size ≤ b'.scopes.size ∧
    ∀ s op, op ∈ b.operations s → op ∈ b'.operations s) (fun _ => ⟨Nat.le_refl _, fun _ _ h => h⟩)
    (fun h h' => ⟨Nat.le_trans h.1 h'.1, fun s op hop => h'.2 s op (h.2 s op hop)⟩) fun hstep => ?_
  cases hstep with
  | push s op _ => exact ⟨Nat.le_of_eq (size_push _ s op).symm, fun _ _ => mem_operations_push⟩
  | pushSwitch s S table => exact ⟨Nat.le_of_eq (size_push _ s _).symm,
    fun _ _ => mem_operations_push⟩
  | openScope parent kind =>
    refine ⟨by rw [size_openScope]; exact Nat.le_succ _, fun s op hop => ?_⟩
    rw [operations_openScope]
    exact hop
  | _ => exact ⟨Nat.le_refl _, fun _ _ h => h⟩

end Steps
end Body

namespace Build

variable {σ δ α β : Type} {here : Nat} {mayInit : Bool}

def Stepwise (mayInit : Bool) (m : Build σ α) : Prop :=
  ∀ w : Work σ, w.body.Steps mayInit (after m w).body

namespace Stepwise

variable {m : Build σ α} {f : α → Build σ β}

theorem of_same (h : ∀ w, (after m w).body = w.body) : Stepwise mayInit m :=
  fun w => by rw [h w]; exact .refl

theorem pure (a : α) : Stepwise mayInit (pure a : Build σ α) := of_same fun _ => rfl

theorem fail (e : Fault) : Stepwise mayInit (fail e : Build σ α) := of_same fun _ => rfl

theorem fail_bind (e : Fault) (f : α → Build σ β) : Stepwise mayInit (Build.fail e >>= f) :=
  of_same fun _ => rfl

theorem carry (f : σ → α × σ) : Stepwise mayInit (carry f) := of_same fun _ => rfl

theorem draft (f : δ → α) : Stepwise mayInit (draft f : Build (δ × σ) α) := of_same fun _ => rfl

theorem redraft (f : δ → δ) : Stepwise mayInit (redraft f : Build (δ × σ) Unit) :=
  of_same fun _ => rfl

theorem find {R : Body → α → Prop} (h : Finds m R) : Stepwise mayInit m := by
  refine of_same fun w => ?_
  rw [h.unchanged]

theorem find_bind {R : Body → α → Prop} (hm : Finds m R)
    (hf : ∀ a (w : Work σ), R w.body a → w.body.Steps mayInit (after (f a) w).body) :
    Stepwise mayInit (m >>= f) := by
  intro w
  rcases hm w with ⟨a, hr, hR⟩ | ⟨e, hr⟩
  · rw [after, bind_of_ok hr]
    exact hf a w hR
  · rw [after, bind_of_error hr]
    exact .refl

theorem bind (hm : Stepwise mayInit m)
    (hf : ∀ a, Stepwise mayInit (f a)) : Stepwise mayInit (m >>= f) := by
  intro w
  rcases after_bind m f w with h | ⟨a, _, h⟩ <;> rw [h]
  · exact hm w
  · exact (hm w).trans (hf a _)

theorem outside (hm : Stepwise mayInit m) : Stepwise mayInit (outside m : Build (δ × σ) α) := by
  rintro ⟨b, d, s⟩
  rw [after_outside]
  exact hm ⟨b, s⟩

theorem withDraft {m : Build (δ × σ) Unit} (hm : Stepwise mayInit m) (d : δ) :
    Stepwise mayInit (withDraft d m) := by
  rintro ⟨b, s⟩
  rw [after_withDraft]
  exact hm ⟨b, d, s⟩

theorem forM {f : α → Build σ Unit} (hf : ∀ a, Stepwise mayInit (f a)) (as : List α) :
    Stepwise mayInit (as.forM f) := by
  induction as with
  | nil => exact pure ()
  | cons a as ih => exact (hf a).bind fun _ => ih

theorem mapM (hf : ∀ a, Stepwise mayInit (f a)) (as : List α) : Stepwise mayInit (as.mapM f) := by
  induction as with
  | nil =>
    rw [mapM_nil]
    exact pure _
  | cons a as ih =>
    rw [mapM_cons]
    exact (hf a).bind fun _ => ih.bind fun _ => pure _

theorem change {f : Body → α × Body} (h : ∀ b : Body, b.Steps mayInit (f b).2) :
    Stepwise mayInit (change f : Build σ α) := fun w => h w.body

theorem alter {f : Body → Body} (h : ∀ b : Body, b.Steps mayInit (f b)) :
    Stepwise mayInit (alter f : Build σ Unit) := fun w => h w.body

theorem openScope (parent : Nat) (kind : ScopeKind) :
    Stepwise mayInit (openScope parent kind : Build σ Nat) :=
  fun w => .one (.openScope w.body parent kind)

theorem push {op : Operation} (h : ∀ S, op ≠ .switch S) :
    Stepwise mayInit (push here op : Build σ Unit) := fun w => .one (.push w.body here op h)

theorem addValue (info : ValueInfo) : Stepwise mayInit (addValue info : Build σ Value) :=
  fun w => .one (.addValue w.body info)

theorem perform (action : Action) (operands : List Operand) :
    Stepwise mayInit (perform here action operands : Build σ Unit) := push (by simp)

theorem yield (action : Action) (operands : List Operand) (type : FieldType) :
    Stepwise mayInit (yield here action operands type : Build σ Value) :=
  (addValue _).bind fun _ => (push (by simp)).bind fun _ => pure _

theorem see (f : Body → α) : Stepwise mayInit (see f : Build σ α) := find (.see f)

theorem operand (value : Value) (type : FieldType) :
    Stepwise mayInit (operand here value type : Build σ Operand) := find (.operand value type)

theorem operandAsIs (value : Value) : Stepwise mayInit (operandAsIs here value : Build σ Operand) :=
  find (.operandAsIs value)

theorem typeOf (value : Value) : Stepwise mayInit (typeOf value : Build σ FieldType) :=
  find (.typeOf value)

theorem mismatch (expected : Expectation) (found : FieldType) :
    Stepwise mayInit (mismatch expected found : Build σ α) := fail _

theorem ofOption (e : Fault) (o : Option α) : Stepwise mayInit (ofOption e o : Build σ α) :=
  find (.ofOption e o)

theorem noteInit : Stepwise true (noteInit : Build σ Unit) := by
  refine (change fun b => ?_).bind fun early => ?_
  · cases hinit : b.init with
    | none => exact .refl
    | some state =>
      obtain ⟨called, early⟩ := state
      cases early with
      | some name => exact .one (.forgetField b called name hinit)
      | none => exact .one (.callInit b called rfl hinit)
  · split
    · exact fail _
    · exact pure _

theorem noteField (field : FieldRef) (object : Value) :
    Stepwise mayInit (noteField field object : Build σ Unit) := by
  refine alter fun b => ?_
  split
  · split
    · next h => exact .one (.earlyField b field.name h)
    · exact .refl
  · exact .refl

end Stepwise
end Build
end ClassAssembler
