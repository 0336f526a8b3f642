import ClassAssembler.Proofs.Body.Region
import ClassAssembler.Proofs.Switch.Selection

/-!
# The course of a body

What a body does is read off its scopes here, without any code: operations are run one after
another, conditions and selectors are answered by an oracle, and an operation that is not followed
by the next one says where control goes instead.
-/

namespace ClassAssembler

open List

/-- What a condition or a selector turns out to be. -/
structure Answer where
  number : Int32
  text : List Nat

/-- The answers to conditions and selectors, in the order they are evaluated. -/
abbrev Oracle := Nat → Answer

def SwitchStatement.subject (S : SwitchStatement) (answer : Answer) : Subject :=
  match S.kind with
  | .int => .int answer.number
  | .string => .text answer.text
  | .enum _ _ => .index answer.number

def SwitchStatement.entered (S : SwitchStatement) (arm : Arm) : List Arm :=
  if S.fallthrough then S.arms.dropWhile (·.scope ≠ arm.scope) else [arm]

namespace SwitchStatement

variable {S : SwitchStatement} {arm arm' : Arm}

theorem mem_of_arm? {x : Subject} (h : S.arm? x = some arm) : arm ∈ S.arms := by
  unfold arm? at h
  rcases Option.or_eq_some_iff.mp h with h | ⟨_, h⟩
  · exact mem_of_find?_eq_some h
  · exact mem_of_find?_eq_some h

theorem mem_entered (harm : arm ∈ S.arms) (h : arm' ∈ S.entered arm) : arm' ∈ S.arms := by
  unfold entered at h
  split at h
  · exact (dropWhile_suffix _).subset h
  · exact mem_singleton.mp h ▸ harm

end SwitchStatement

/-- How far a body has come. -/
structure Course where
  /-- The simple operations that were run, by their scopes and their places there. -/
  done : List (Nat × Nat)
  asked : Nat

/-- How control goes on behind an operation. -/
inductive Signal where
  | falls
  | leaves (target : Nat)
  | repeats (target : Nat)
  | ends (scope index : Nat)
  | spent
  deriving DecidableEq

inductive Ending where
  | completes
  | exits (scope index : Nat)
  deriving DecidableEq

def Signal.ending? : Signal → Option Ending
  | falls => some .completes
  | ends scope index => some (.exits scope index)
  | _ => none

abbrev Conduct := Course → Course × Signal

namespace Conduct

def gives (signal : Signal) : Conduct := fun c => (c, signal)

def does (scope index : Nat) : Conduct := fun c =>
  ({ c with done := c.done ++ [(scope, index)] }, .falls)

def asks (oracle : Oracle) (m : Answer → Conduct) : Conduct := fun c =>
  m (oracle c.asked) { c with asked := c.asked + 1 }

def andThen (m m' : Conduct) : Conduct := fun c =>
  match m c with
  | (c', .falls) => m' c'
  | r => r

def inTurn : List Conduct → Conduct
  | [] => gives .falls
  | m :: ms => m.andThen (inTurn ms)

def within (scope : Nat) (m : Conduct) : Conduct := fun c =>
  match m c with
  | (c', .leaves target) => (c', if target = scope then .falls else .leaves target)
  | r => r

def pass (scope : Nat) (m : Conduct) : Conduct := fun c =>
  match m c with
  | (c', .repeats target) => (c', if target = scope then .falls else .repeats target)
  | r => r

def repeated (scope : Nat) (body update : Conduct) : Nat → Conduct
  | 0 => gives .spent
  | passes + 1 => (pass scope body).andThen (update.andThen (repeated scope body update passes))

end Conduct

namespace Body

open Conduct

section run

variable (b : Body) (oracle : Oracle) (passes : Nat)

/-- What an operation does, given what the scopes in it do. Nothing is said about try
statements. -/
def conduct (inner : Nat → Conduct) (scope index : Nat) : Operation → Conduct
  | .simple _ _ _ => does scope index
  | .block nested => within nested (inner nested)
  | .branch _ whenTrue whenFalse => asks oracle fun answer =>
      if answer.number ≠ 0 then within whenTrue (inner whenTrue)
      else inTurn (whenFalse.toList.map fun scope => within scope (inner scope))
  | .loop nested update =>
      within nested (repeated nested (inner nested)
        (inTurn (update.toList.map fun scope => within scope (inner scope))) passes)
  | .exitUnless _ target => asks oracle fun answer =>
      gives (if answer.number ≠ 0 then .falls else .leaves target)
  | .jump .leave target _ => gives (.leaves target)
  | .jump .again target _ => gives (.repeats target)
  | .ret _ _ | .throw _ => gives (.ends scope index)
  | .tryCatch _ => gives .spent
  | .switch S => asks oracle fun answer =>
      within S.frame <|
        match S.arm? (S.subject answer) with
        | none => gives .falls
        | some arm => inTurn ((S.entered arm).map fun arm => within arm.scope (inner arm.scope))

def conductAll (inner : Nat → Conduct) (scope : Nat) : Nat → List Operation → Conduct
  | _, [] => gives .falls
  | index, op :: rest =>
      (conduct oracle passes inner scope index op).andThen
        (conductAll inner scope (index + 1) rest)

def conductScope : (depth : Nat) → (scope : Nat) → Conduct
  | 0, _ => gives .spent
  | depth + 1, scope =>
      conductAll oracle passes (conductScope depth) scope 0 (b.operations scope)

def course : Course × Signal :=
  within 0 (b.conductScope oracle passes b.scopes.size 0) ⟨[], 0⟩

end run

def Does (b : Body) (oracle : Oracle) (ops : List (Nat × Nat)) : Prop :=
  ∃ passes, ops <+: (b.course oracle passes).1.done

def Ends (b : Body) (oracle : Oracle) (ops : List (Nat × Nat)) (ending : Ending) : Prop :=
  ∃ passes, (b.course oracle passes).1.done = ops ∧
    (b.course oracle passes).2.ending? = some ending

end Body

namespace Conduct

/-- Control leaves only certain scopes, and repeats only certain loops. -/
def Keeps (leave again : Nat → Prop) (m : Conduct) : Prop :=
  ∀ c, (∀ t, (m c).2 = .leaves t → leave t) ∧ ∀ t, (m c).2 = .repeats t → again t

variable {leave again : Nat → Prop} {m m' : Conduct}

variable {c : Course} {scope : Nat}

theorem andThen_of_ne (m' : Conduct) (h : (m c).2 ≠ .falls) : m.andThen m' c = m c := by
  unfold andThen
  split
  · next heq =>
    rw [heq] at h
    exact absurd rfl h
  · rfl

theorem andThen_of_falls (m' : Conduct) (h : (m c).2 = .falls) : m.andThen m' c = m' (m c).1 := by
  unfold andThen
  split
  · next heq => rw [heq]
  · next hne => exact absurd (Prod.ext rfl h : m c = ((m c).1, .falls)) (hne _)

theorem andThen_falls (m : Conduct) : m.andThen (gives .falls) = m := by
  funext c
  by_cases hfalls : (m c).2 = .falls
  · rw [andThen_of_falls _ hfalls, gives, ← hfalls]
  · rw [andThen_of_ne _ hfalls]

theorem within_of_ne (h : (m c).2 ≠ .leaves scope) : within scope m c = m c := by
  unfold within
  split
  · next c' target heq =>
    rw [heq] at h ⊢
    rw [if_neg fun hscope => h (by rw [hscope])]
  · rfl

theorem within_of_leaves (h : (m c).2 = .leaves scope) : within scope m c = ((m c).1, .falls) := by
  have heq : m c = ((m c).1, .leaves scope) := Prod.ext rfl h
  unfold within
  rw [heq]
  dsimp only
  rw [if_pos rfl]

theorem pass_of_ne (h : (m c).2 ≠ .repeats scope) : pass scope m c = m c := by
  unfold pass
  split
  · next c' target heq =>
    rw [heq] at h ⊢
    rw [if_neg fun hscope => h (by rw [hscope])]
  · rfl

theorem pass_of_repeats (h : (m c).2 = .repeats scope) : pass scope m c = ((m c).1, .falls) := by
  have heq : m c = ((m c).1, .repeats scope) := Prod.ext rfl h
  unfold pass
  rw [heq]
  dsimp only
  rw [if_pos rfl]

namespace Keeps

theorem gives {signal : Signal} (hleave : ∀ t, signal = .leaves t → leave t)
    (hagain : ∀ t, signal = .repeats t → again t) : Keeps leave again (gives signal) :=
  fun _ => ⟨hleave, hagain⟩

theorem does (scope index : Nat) : Keeps leave again (does scope index) := fun _ => ⟨nofun, nofun⟩

theorem asks {oracle : Oracle} {m : Answer → Conduct} (h : ∀ a, Keeps leave again (m a)) :
    Keeps leave again (asks oracle m) := fun _ => h _ _

theorem andThen (h : Keeps leave again m) (h' : Keeps leave again m') :
    Keeps leave again (m.andThen m') := by
  intro c
  by_cases hfalls : (m c).2 = .falls
  · rw [andThen_of_falls m' hfalls]
    exact h' _
  · rw [andThen_of_ne m' hfalls]
    exact h c

theorem inTurn {ms : List Conduct} (h : ∀ m ∈ ms, Keeps leave again m) :
    Keeps leave again (inTurn ms) := by
  induction ms with
  | nil => exact gives nofun nofun
  | cons m ms ih =>
    exact (h m mem_cons_self).andThen (ih fun m' hm' => h m' (.tail _ hm'))

variable {scope : Nat}

theorem within (h : Keeps (fun t => t = scope ∨ leave t) again m) :
    Keeps leave again (within scope m) := by
  intro c
  by_cases hleaves : (m c).2 = .leaves scope
  · rw [within_of_leaves hleaves]
    exact ⟨nofun, nofun⟩
  · rw [within_of_ne hleaves]
    refine ⟨fun t ht => ?_, (h c).2⟩
    rcases (h c).1 t ht with rfl | hleave
    · exact absurd ht hleaves
    · exact hleave

theorem pass (h : Keeps leave (fun t => t = scope ∨ again t) m) :
    Keeps leave again (pass scope m) := by
  intro c
  by_cases hrepeats : (m c).2 = .repeats scope
  · rw [pass_of_repeats hrepeats]
    exact ⟨nofun, nofun⟩
  · rw [pass_of_ne hrepeats]
    refine ⟨(h c).1, fun t ht => ?_⟩
    rcases (h c).2 t ht with rfl | hagain
    · exact absurd ht hrepeats
    · exact hagain

theorem repeated {body update : Conduct}
    (hbody : Keeps leave (fun t => t = scope ∨ again t) body) (hupdate : Keeps leave again update)
    (passes : Nat) : Keeps leave again (repeated scope body update passes) := by
  induction passes with
  | zero => exact gives nofun nofun
  | succ passes ih => exact hbody.pass.andThen (hupdate.andThen ih)

theorem mono {leave' again' : Nat → Prop} (h : Keeps leave again m)
    (hleave : ∀ t, leave t → leave' t)
    (hagain : ∀ t, again t → again' t) : Keeps leave' again' m := fun c =>
  ⟨fun t ht => hleave t ((h c).1 t ht), fun t ht => hagain t ((h c).2 t ht)⟩

end Keeps
end Conduct

namespace Body

open Conduct

variable {b : Body} {oracle : Oracle} {passes s : Nat}

/-- Control leaves only scopes around a scope, and repeats only loops around it. -/
def KeepsAround (b : Body) (s : Nat) (m : Conduct) : Prop :=
  Keeps (fun t => b.Within t s) (fun t => b.Within t s ∧ b.kindOf t = .loop) m

theorem KeepsAround.within {m : Conduct} {c : Nat} (h : b.KeepsAround c m)
    (hparent : b.parentOf c = some s) (hkind : b.kindOf c ≠ .loop) :
    b.KeepsAround s (within c m) := by
  refine Keeps.within (h.mono (fun t ht => (Within.iff_parent hparent).mp ht) ?_)
  rintro t ⟨ht, hloop⟩
  rcases (Within.iff_parent hparent).mp ht with rfl | ht
  · exact absurd hloop hkind
  · exact ⟨ht, hloop⟩

theorem KeepsAround.loop {body update : Conduct} {c : Nat} (hbody : b.KeepsAround c body)
    (hupdate : Keeps (fun _ => False) (fun _ => False) update) (hparent : b.parentOf c = some s) :
    b.KeepsAround s (Conduct.within c (repeated c body update passes)) := by
  refine Keeps.within
    (Keeps.repeated (hbody.mono (fun t ht => (Within.iff_parent hparent).mp ht) ?_)
    (hupdate.mono (fun _ => False.elim) fun _ => False.elim) passes)
  rintro t ⟨ht, hloop⟩
  rcases (Within.iff_parent hparent).mp ht with heq | ht
  · exact .inl heq
  · exact .inr ⟨ht, hloop⟩

/-- Control goes from an operation to what is around its scope. -/
theorem keepsAround_conduct (hb : b.Sound) {op : Operation} (hop : op ∈ b.operations s)
    {inner : Nat → Conduct} (hinner : ∀ c, b.KeepsAround c (inner c))
    (hupdate : ∀ c, b.kindOf c = .loopUpdate →
      Keeps (fun _ => False) (fun _ => False) (inner c)) (index : Nat) :
    b.KeepsAround s (conduct oracle passes inner s index op) := by
  have hfits := hb.fits hop
  have hchild : ∀ {p c}, b.Child p c → b.KeepsAround p (Conduct.within c (inner c)) :=
    fun h => (hinner _).within h.1 h.2.2
  cases op with
  | simple action operands result => exact .does s index
  | block nested => exact hchild hfits
  | branch cond whenTrue whenFalse =>
    refine .asks fun answer => ?_
    split
    · exact hchild hfits.1
    · refine .inTurn fun m hm => ?_
      obtain ⟨c, hc, rfl⟩ := mem_map.mp hm
      exact hchild (hfits.2 c (Option.mem_toList.mp hc))
  | loop nested update =>
    refine (hinner nested).loop (.inTurn fun m hm => ?_) hfits.1
    obtain ⟨c, hc, rfl⟩ := mem_map.mp hm
    exact .within ((hupdate c (hfits.2.2 c (Option.mem_toList.mp hc)).2).mono
      (fun _ => False.elim) fun _ => False.elim)
  | exitUnless cond target =>
    refine .asks fun answer => .gives (fun t ht => ?_) fun t ht => ?_
    · split at ht
      · cases ht
      · cases ht
        exact hfits.1 ▸ .refl
    · split at ht <;> cases ht
  | jump kind target cleanups =>
    cases kind with
    | leave =>
      refine .gives (fun t ht => ?_) nofun
      cases ht
      exact hfits.1
    | again =>
      refine .gives nofun fun t ht => ?_
      cases ht
      exact ⟨hfits.1, hfits.2.1 rfl⟩
  | ret value cleanups => exact .gives nofun nofun
  | throw value => exact .gives nofun nofun
  | tryCatch T => exact .gives nofun nofun
  | switch S =>
    refine .asks fun answer => ?_
    have harms : ∀ arm ∈ S.arms, b.KeepsAround S.frame (Conduct.within arm.scope
      (inner arm.scope)) :=
      fun arm harm => hchild (hfits.arms arm harm)
    refine KeepsAround.within ?_ hfits.parent (by rw [hfits.frame]; exact nofun)
    cases harm : S.arm? (S.subject answer) with
    | none => exact .gives nofun nofun
    | some arm =>
      refine .inTurn fun m hm => ?_
      obtain ⟨arm', harm', rfl⟩ := mem_map.mp hm
      exact harms arm' (SwitchStatement.mem_entered (SwitchStatement.mem_of_arm? harm) harm')

theorem keeps_conductAll {inner : Nat → Conduct} {ops : List Operation} {leave again : Nat → Prop}
    (h : ∀ op ∈ ops, ∀ index, Keeps leave again (conduct oracle passes inner s index op))
    (index : Nat) : Keeps leave again (conductAll oracle passes inner s index ops) := by
  induction ops generalizing index with
  | nil => exact .gives nofun nofun
  | cons op ops ih =>
    exact (h op mem_cons_self index).andThen
      (ih (fun op' hop' => h op' (.tail _ hop')) (index + 1))

theorem keeps_update (hb : b.Sound) (hkind : b.kindOf s = .loopUpdate) (depth : Nat) :
    Keeps (fun _ => False) (fun _ => False) (b.conductScope oracle passes depth s) := by
  cases depth with
  | zero => exact .gives nofun nofun
  | succ depth =>
    refine keeps_conductAll (fun op hop index => ?_) 0
    have hsimple := hb.updates hop hkind
    cases op with
    | simple action operands result => exact .does s index
    | _ => cases hsimple

theorem keepsAround_conductScope (hb : b.Sound) (depth s : Nat) :
    b.KeepsAround s (b.conductScope oracle passes depth s) := by
  induction depth generalizing s with
  | zero => exact .gives nofun nofun
  | succ depth ih =>
    exact keeps_conductAll (fun op hop index =>
      keepsAround_conduct hb hop ih (fun c hc => keeps_update hb hc depth) index) 0

/-- The course of a body comes to an end, or a loop was given up. -/
theorem course_ends_or_spent (hb : b.Sound) (oracle : Oracle) (passes : Nat) :
    (∃ ending, (b.course oracle passes).2.ending? = some ending) ∨
      (b.course oracle passes).2 = .spent := by
  have hroot : b.kindOf 0 ≠ .loop := by
    rw [hb.root]
    exact nofun
  have haround : ∀ {t}, b.Within t 0 → t = 0 := fun ht =>
    Nat.eq_zero_of_le_zero (ht.le hb.descends)
  have hkeeps : Keeps (fun _ => False) (fun _ => False)
      (Conduct.within 0 (b.conductScope oracle passes b.scopes.size 0)) :=
    .within ((keepsAround_conductScope hb _ 0).mono (fun t ht => .inl (haround ht))
      fun t ht => hroot (haround ht.1 ▸ ht.2))
  have hcourse := hkeeps ⟨[], 0⟩
  change (∀ t, (b.course oracle passes).2 = .leaves t → False) ∧
    ∀ t, (b.course oracle passes).2 = .repeats t → False at hcourse
  cases hsignal : (b.course oracle passes).2 with
  | falls => exact .inl ⟨_, rfl⟩
  | leaves t => exact (hcourse.1 t hsignal).elim
  | repeats t => exact (hcourse.2 t hsignal).elim
  | ends scope index => exact .inl ⟨_, rfl⟩
  | spent => exact .inr rfl

end Body
end ClassAssembler
