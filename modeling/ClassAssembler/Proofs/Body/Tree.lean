import ClassAssembler.Body.Exit

/-!
# The scope tree

Scopes name their parents, and parents have smaller indices.
-/

namespace ClassAssembler

theorem split_append {α : Type} {xs ys pre post : List α} {x : α}
    (h : xs ++ ys = pre ++ x :: post) : (∃ rest, xs = pre ++ x :: rest ∧ post = rest ++ ys) ∨
      ∃ rest, pre = xs ++ rest ∧ ys = rest ++ x :: post := by
  rcases List.append_eq_append_iff.mp h with ⟨rest, rfl, hys⟩ | ⟨rest, rfl, hrest⟩
  · exact .inr ⟨rest, rfl, hys⟩
  · cases rest with
    | nil => exact .inr ⟨[], by simp, hrest.symm⟩
    | cons y rest =>
      cases hrest
      exact .inl ⟨rest, rfl, rfl⟩

theorem split_cons {α : Type} {l1 l2 m1 m2 : List α} {a x : α}
    (h : l1 ++ a :: l2 = m1 ++ x :: m2) : (m1 = l1 ∧ x = a ∧ m2 = l2) ∨
      (∃ l, l1 = m1 ++ x :: l ∧ m2 = l ++ a :: l2) ∨ ∃ l, m1 = l1 ++ a :: l ∧ l2 =
        l ++ x :: m2 := by
  rcases split_append h with hl | ⟨l, rfl, hl⟩
  · exact .inr (.inl hl)
  · cases l with
    | nil =>
      cases hl
      exact .inl ⟨by simp, rfl, rfl⟩
    | cons y l =>
      cases hl
      exact .inr (.inr ⟨l, rfl, rfl⟩)

namespace Operation

def frames : Operation → List Nat
  | tryCatch statement => [statement.frame]
  | switch statement => [statement.frame]
  | _ => []

def owned (op : Operation) : List Nat := op.frames ++ op.nested

/-- The values that an operation gives a meaning to. -/
def defines : Operation → List Nat
  | simple (.store var true) _ result => var :: result.toList
  | simple _ _ result => result.toList
  | _ => []

/-- The variable that an operation changes, if it is there already. -/
def changes : Operation → List Nat
  | simple (.store var false) _ _ | simple (.inc var _) _ _ => [var]
  | _ => []

/-- The values that must be there already when an operation begins. -/
def needs (op : Operation) : List Nat := op.operands.map Operand.value ++ op.changes

theorem mem_defines_of_result {action : Action} {operands : List Operand} {result : Option Nat}
    {v : Nat} (h : v ∈ result.toList) : v ∈ (simple action operands result).defines := by
  cases action with
  | store var declares =>
    cases declares with
    | true => exact .tail _ h
    | false => exact h
  | _ => exact h

end Operation

namespace ScopeKind

def isFrame (kind : ScopeKind) : Bool := kind = .tryFrame || kind = .switchFrame

def isGuarded (kind : ScopeKind) : Bool := kind = .tryBody || kind = .catchClause

def isHandler (kind : ScopeKind) : Bool := kind = .catchClause || kind = .catchAll

end ScopeKind

namespace Body

def parentOf (b : Body) (scope : Nat) : Option Nat := b.scopes[scope]?.bind Scope.parent

def owned (b : Body) (scope : Nat) : List Nat := (b.operations scope).flatMap Operation.owned

def defines (b : Body) (scope : Nat) : List Nat := (b.operations scope).flatMap Operation.defines

/-- The number of try statements opened before a scope, which is the number of the
statement if the scope is its frame. -/
def tryNumber (b : Body) (scope : Nat) : Nat :=
  (List.range scope).countP fun s => b.kindOf s = .tryFrame

/-- `outer` is the scope or lies around it. -/
inductive Within (b : Body) (outer : Nat) : Nat → Prop
  | refl : Within b outer outer
  | step {scope parent : Nat} : b.parentOf scope = some parent → Within b outer parent →
      Within b outer scope

def Descends (b : Body) : Prop := ∀ ⦃scope parent⦄, b.parentOf scope = some parent → parent < scope

variable {b : Body} {s t u p : Nat}

theorem parentOf_eq_none (h : b.scopes.size ≤ s) : b.parentOf s = none := by
  simp [parentOf, Array.getElem?_eq_none h]

theorem lt_size_of_parentOf (h : b.parentOf s = some p) : s < b.scopes.size := by
  rcases Nat.lt_or_ge s b.scopes.size with hlt | hge
  · exact hlt
  · rw [parentOf_eq_none hge] at h
    cases h

theorem operations_eq_nil (h : b.scopes.size ≤ s) : b.operations s = [] := by
  simp [operations, Array.getElem?_eq_none h]

theorem lt_size_of_mem_operations {op : Operation} (h : op ∈ b.operations s) :
    s < b.scopes.size := by
  rcases Nat.lt_or_ge s b.scopes.size with hlt | hge
  · exact hlt
  · rw [operations_eq_nil hge] at h
    cases h

namespace Within

theorem le (hd : b.Descends) (h : b.Within s t) : s ≤ t := by
  induction h with
  | refl => exact Nat.le_refl _
  | step hp _ ih => exact Nat.le_trans ih (Nat.le_of_lt (hd hp))

theorem trans (h : b.Within s t) (h' : b.Within t u) : b.Within s u := by
  induction h' with
  | refl => exact h
  | step hp _ ih => exact .step hp ih

theorem of_parent (h : b.parentOf s = some p) : b.Within p s := .step h .refl

theorem eq_or_parent (h : b.Within s t) : s = t ∨ ∃ p, b.parentOf t = some p ∧ b.Within s p := by
  cases h with
  | refl => exact .inl rfl
  | step hp h => exact .inr ⟨_, hp, h⟩

theorem iff_parent (hp : b.parentOf t = some p) : b.Within s t ↔ s = t ∨ b.Within s p := by
  constructor
  · intro h
    rcases h.eq_or_parent with heq | ⟨p', hp', h'⟩
    · exact .inl heq
    · rw [hp] at hp'
      cases hp'
      exact .inr h'
  · rintro (rfl | h)
    · exact .refl
    · exact .step hp h

theorem child (h : b.Within s t) (hne : s ≠ t) : ∃ c, b.Within c t ∧ b.parentOf c = some s := by
  induction h with
  | refl => exact absurd rfl hne
  | @step u p hp _ ih =>
    by_cases hsp : s = p
    · exact ⟨u, .refl, by rw [hsp]; exact hp⟩
    · obtain ⟨c, hc, hcs⟩ := ih hsp
      exact ⟨c, .step hp hc, hcs⟩

theorem total (h : b.Within s u) (h' : b.Within t u) : b.Within s t ∨ b.Within t s := by
  induction h with
  | refl => exact .inr h'
  | step hp h ih =>
    rcases (iff_parent hp).mp h' with rfl | h'
    · exact .inl (.step hp h)
    · exact ih h'

theorem child_unique (hd : b.Descends) {c d : Nat} (hc : b.Within c t) (hcp : b.parentOf c = some s)
    (h : b.Within d t) (hdp : b.parentOf d = some s) : c = d := by
  have key : ∀ {c d : Nat}, b.Within c d → b.parentOf c = some s → b.parentOf d = some s →
      c = d := by
    intro c d hcd hcp hdp
    rcases (iff_parent hdp).mp hcd with heq | hcs
    · exact heq
    · exact absurd (hcs.le hd) (Nat.not_le.mpr (hd hcp))
  rcases hc.total h with hcd | hdc
  · exact key hcd hcp hdp
  · exact (key hdc hdp hcp).symm

theorem lt_size (h : b.Within s t) (ht : t < b.scopes.size) (hd : b.Descends) :
    s < b.scopes.size := Nat.lt_of_le_of_lt (h.le hd) ht

end Within

theorem mem_outward_iff (hd : b.Descends) {n : Nat} (hn : t < n) :
    s ∈ outward b.scopes n t ↔ b.Within s t := by
  induction n generalizing t with
  | zero => omega
  | succ n ih =>
    rw [outward, List.mem_cons]
    cases hp : b.parentOf t with
    | none =>
      have hp' : b.scopes[t]?.bind Scope.parent = none := hp
      rw [hp']
      constructor
      · rintro (rfl | h)
        · exact .refl
        · cases h
      · intro h
        rcases h.eq_or_parent with heq | ⟨p, hp', _⟩
        · exact .inl heq
        · rw [hp] at hp'
          cases hp'
    | some p =>
      have hp' : b.scopes[t]?.bind Scope.parent = some p := hp
      rw [hp', Within.iff_parent hp]
      show s = t ∨ s ∈ outward b.scopes n p ↔ _
      rw [ih (Nat.lt_of_lt_of_le (hd hp) (Nat.lt_succ_iff.mp hn))]

theorem encloses_iff (hd : b.Descends) : b.encloses s t = true ↔ b.Within s t := by
  rw [encloses, List.contains_iff_mem, mem_outward_iff hd (Nat.lt_succ_self t)]

theorem tryNumber_lt (hs : b.kindOf s = .tryFrame) (h : s < t) : b.tryNumber s < b.tryNumber t := by
  have hsub : (List.range (s + 1)).Sublist (List.range t) := List.range_sublist.mpr h
  calc b.tryNumber s < b.tryNumber (s + 1) := by
        simp [tryNumber, List.range_succ, List.countP_append, hs]
    _ ≤ b.tryNumber t := hsub.countP_le

theorem tryNumber_inj (hs : b.kindOf s = .tryFrame) (ht : b.kindOf t = .tryFrame)
    (h : b.tryNumber s = b.tryNumber t) : s = t := by
  rcases Nat.lt_trichotomy s t with hlt | heq | hgt
  · exact absurd h (Nat.ne_of_lt (tryNumber_lt hs hlt))
  · exact heq
  · exact absurd h.symm (Nat.ne_of_lt (tryNumber_lt ht hgt))

section openScope

variable (b) (parent : Option Nat) (kind : ScopeKind)

theorem openScope_fst : (b.openScope parent kind).1 = b.scopes.size := rfl

theorem size_openScope : (b.openScope parent kind).2.scopes.size = b.scopes.size + 1 := by
  simp [openScope]

theorem parentOf_openScope (s : Nat) : (b.openScope parent kind).2.parentOf s =
    if s = b.scopes.size then parent else b.parentOf s := by
  simp only [parentOf, openScope, Array.getElem?_push]
  split <;> rfl

theorem kindOf_openScope (s : Nat) : (b.openScope parent kind).2.kindOf s =
    if s = b.scopes.size then kind else b.kindOf s := by
  simp only [kindOf, openScope, Array.getElem?_push]
  by_cases h : s = b.scopes.size
  · rw [if_pos h, if_pos h]
  · rw [if_neg h, if_neg h]

theorem operations_openScope (s : Nat) :
    (b.openScope parent kind).2.operations s = b.operations s := by
  simp only [operations, openScope, Array.getElem?_push]
  by_cases h : s = b.scopes.size
  · rw [if_pos h, h, Array.getElem?_eq_none .refl]
  · rw [if_neg h]

end openScope

def amend (b : Body) (here : Nat) (f : Array Operation → Array Operation) : Body :=
  { b with
    scopes := b.scopes.modify here fun scope => { scope with operations := f scope.operations } }

section amend

variable (b) (here : Nat) (f : Array Operation → Array Operation)

theorem size_amend : (b.amend here f).scopes.size = b.scopes.size := by simp [amend]

theorem getElem?_amend (s : Nat) : (b.amend here f).scopes[s]? =
    if here = s then b.scopes[s]?.map fun scope => { scope with operations := f scope.operations }
    else b.scopes[s]? := by
  simp [amend, Array.getElem?_modify]

theorem parentOf_amend (s : Nat) : (b.amend here f).parentOf s = b.parentOf s := by
  rw [parentOf, getElem?_amend, parentOf]
  split
  · cases b.scopes[s]? <;> rfl
  · rfl

theorem kindOf_amend (s : Nat) : (b.amend here f).kindOf s = b.kindOf s := by
  rw [kindOf, getElem?_amend, kindOf]
  by_cases h : here = s
  · rw [if_pos h]
    cases b.scopes[s]? <;> rfl
  · rw [if_neg h]

theorem operations_amend_of_ne {s : Nat} (h : s ≠ here) :
    (b.amend here f).operations s = b.operations s := by
  rw [operations, getElem?_amend, if_neg (Ne.symm h), operations]

theorem operations_amend_self (h : here < b.scopes.size) :
    (b.amend here f).operations here = (f (b.operations here).toArray).toList := by
  rw [operations, getElem?_amend, if_pos rfl, operations, Array.getElem?_eq_getElem h]
  rfl

end amend

section push

variable (b) (here : Nat) (op : Operation)

theorem push_eq : b.push here op = b.amend here (·.push op) := rfl

theorem size_push : (b.push here op).scopes.size = b.scopes.size := b.size_amend here (·.push op)

theorem parentOf_push (s : Nat) : (b.push here op).parentOf s = b.parentOf s :=
  b.parentOf_amend here (·.push op) s

theorem kindOf_push (s : Nat) : (b.push here op).kindOf s = b.kindOf s :=
  b.kindOf_amend here (·.push op) s

theorem operations_push_of_ne {s : Nat} (h : s ≠ here) :
    (b.push here op).operations s = b.operations s := b.operations_amend_of_ne here (·.push op) h

theorem operations_push_self (h : here < b.scopes.size) :
    (b.push here op).operations here = b.operations here ++ [op] := by
  rw [push_eq, operations_amend_self b here _ h]
  simp

end push

end Body
end ClassAssembler
