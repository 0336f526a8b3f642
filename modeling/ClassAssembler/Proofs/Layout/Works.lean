import ClassAssembler.Proofs.Layout.Drawing
import ClassAssembler.Proofs.Layout.Widths

/-!
# Points of simple parts

A part of a plot that carries out an operation works for the scope of that operation: it reads the
operands, runs the instructions that the operation holds, and jumps.
-/

namespace ClassAssembler

variable (kept : List Nat)

/-- What a part may read, write, and call statically. -/
structure Grant where
  reads : Nat → Prop
  writes : Nat → Prop
  calls : MethodRef → Prop

/-- What points are in a part that works for a site and does no more than it may. -/
inductive Point.WorksFor (site : Site) (may : Grant) : Point → Prop
  | label (l : Label) (status : Option Status) : WorksFor site may (.label l status)
  | insn {i : Instruction} : (∀ m, i = .invoke .static m → may.calls m) →
      WorksFor site may (.insn i .plain site)
  | touch {i : Instruction} {role : Role} : (∀ m, i ≠ .invoke .static m) →
      (∀ v, role = .store v → may.writes v) → WorksFor site may (.insn i role site)
  | branch (br : Branch) : WorksFor site may (.branch br (some site))
  | reads {v : Nat} : may.reads v → WorksFor site may (.reads v)
  | yields {v : Nat} : may.writes v → WorksFor site may (.yields v)

def Action.instructions : Action → List Instruction
  | .insns is => is
  | .compare lead _ => lead.toList
  | _ => []

/-- The static calls of an operation: those among its instructions, and the one for the table of a
switch. -/
def Operation.Calls (op : Operation) (m : MethodRef) : Prop :=
  (∃ o ∈ op.operands, .invoke .static m ∈ o.coercion) ∨
    (∃ act os result, op = .simple act os result ∧ .invoke .static m ∈ act.instructions) ∨
    ∃ S type, op = .switch S ∧ S.kind = .enum type m

namespace Plot

def Every (Q : Point → Prop) (R : Hole → Prop) (p : Plot) : Prop :=
  ∀ n, (∀ pt ∈ (p n).points, Q pt) ∧ ∀ hole ∈ (p n).holes, R hole

namespace Every

variable {Q Q' : Point → Prop} {R R' : Hole → Prop} {p q : Plot}

theorem mono (h : Every Q R p) (hQ : ∀ pt, Q pt → Q' pt) (hR : ∀ hole, R hole → R' hole) :
    Every Q' R' p :=
  fun n => ⟨fun pt hpt => hQ pt ((h n).1 pt hpt), fun hole hhole => hR hole ((h n).2 hole hhole)⟩

theorem nil : Every Q R nil := fun _ => ⟨fun _ h => (by cases h), fun _ h => by cases h⟩

theorem append (hp : Every Q R p) (hq : Every Q R q) : Every Q R (p ++ q) := by
  intro n
  rw [append_apply]
  exact ⟨List.forall_mem_append.mpr ⟨(hp n).1, (hq _).1⟩,
    List.forall_mem_append.mpr ⟨(hp n).2, (hq _).2⟩⟩

theorem point {pt : Point} (h : Q pt) : Every Q R (point pt) :=
  fun _ => ⟨List.forall_mem_singleton.mpr h, fun _ h => by cases h⟩

theorem mark {hole : Hole} (h : R hole) : Every Q R (mark hole) :=
  fun _ => ⟨fun _ h => (by cases h), List.forall_mem_singleton.mpr h⟩

theorem fresh {p : Label → Plot} (h : ∀ l, Every Q R (p l)) : Every Q R (fresh p) :=
  fun n => h ⟨n⟩ (n + 1)

theorem freshFor {α : Type} {as : List α} {p : List (Label × α) → Plot}
    (h : ∀ ls, Every Q R (p ls)) : Every Q R (freshFor as p) := by
  induction as generalizing p with
  | nil => exact h []
  | cons a as ih => exact fresh fun l => ih fun ls => h _

theorem concat {α : Type} {as : List α} {p : α → Plot} (h : ∀ a ∈ as, Every Q R (p a)) :
    Every Q R (concat (as.map p)) := concat_of_append nil append h

theorem withHoles {id : Nat} {q : List (Label × Label) → Plot} (hp : Every Q R p)
    (hq : ∀ hs, Every Q R (q hs)) : Every Q R (withHoles id p q) :=
  fun n => hp.append (hq _) n

end Every

def Works (site : Site) (may : Grant) (p : Plot) : Prop :=
  Every (Point.WorksFor site may) (fun _ => False) p

section works

variable {b : Body} {homes : Array Home} {site : Site} {may : Grant}

theorem works_insn {i : Instruction} (h : ∀ m, i = .invoke .static m → may.calls m) :
    Works site may (insn site i) := .point (.insn h)

theorem works_insns {is : List Instruction} (h : ∀ m, .invoke .static m ∈ is → may.calls m) :
    Works site may (insns site is) :=
  .concat fun _ hi => works_insn fun m heq => h m (heq ▸ hi)

theorem works_branch (br : Branch) : Works site may (branch site br) := .point (.branch br)

theorem works_fetch (v : Nat) : Works site may (fetch b homes site v) := by
  unfold fetch
  split
  · split
    · exact works_insns fun m h => absurd h (Instruction.not_mem_literal _ _ m)
    · exact .nil
  · exact .point (.touch (fun m h => by cases h) fun _ h => by cases h)
  · exact .nil
  · exact .nil

theorem works_load {o : Operand} (hvalue : may.reads o.value)
    (hcalls : ∀ m, .invoke .static m ∈ o.coercion → may.calls m) :
    Works site may (load b homes site o) :=
  (Every.append (.point (.reads hvalue)) (works_fetch _)).append (works_insns hcalls)

theorem works_loads {os : List Operand} (hvalues : ∀ o ∈ os, may.reads o.value)
    (hcalls : ∀ m, ∀ o ∈ os, .invoke .static m ∈ o.coercion → may.calls m) :
    Works site may (loads b homes site os) :=
  .concat fun o ho => works_load (hvalues o ho) fun m => hcalls m o ho

theorem works_storeInto {v : Nat} (h : may.writes v) :
    Works site may (storeInto b homes site v) := by
  unfold storeInto
  split
  · exact .point (.touch (fun m h => by cases h) fun _ hv => by cases hv; exact h)
  · exact .nil

theorem works_settle {result : Option Nat} (h : ∀ v ∈ result.toList, may.writes v) :
    Works site may (settle b homes site result) := by
  cases result with
  | none => exact .nil
  | some v =>
    have hv := h v (.head _)
    refine Every.append (.point (.yields hv)) ?_
    split
    · exact .nil
    · exact .nil
    · refine works_insn fun m h => ?_
      unfold FieldType.drop at h
      split at h <;> cases h
    · exact works_storeInto hv

theorem works_decision (test : Test) : Works site may (decision site kept test) :=
  .fresh fun _ => .fresh fun _ => (((((works_branch _).append
    (works_insn fun m h => by cases h)).append (works_branch _)).append
    (.point (.label _ _))).append (works_insn fun m h => by cases h)).append (.point (.label _ _))

theorem works_simple {act : Action} {os : List Operand} {result : Option Nat}
    (hvalues : ∀ o ∈ os, may.reads o.value)
    (hwrites : ∀ v ∈ (Operation.simple act os result).defines ++
      (Operation.simple act os result).changes, may.writes v)
    (hcalls : ∀ m, (Operation.simple act os result).Calls m → may.calls m) :
    Works site may (simple b homes site kept act os result) := by
  refine Every.append ?_ (works_settle fun v hv => hwrites v (List.mem_append_left _
    (Operation.mem_defines_of_result hv)))
  have hloads : Works site may (loads b homes site os) :=
    works_loads hvalues fun m o ho h => hcalls m (.inl ⟨o, ho, h⟩)
  have hown : ∀ m, .invoke .static m ∈ act.instructions → may.calls m :=
    fun m h => hcalls m (.inr (.inl ⟨_, _, _, rfl, h⟩))
  cases act with
  | insns is => exact hloads.append (works_insns hown)
  | new constructor =>
    exact (((works_insn fun m h => by cases h).append (works_insn fun m h => by cases h)).append
      hloads).append (works_insn fun m h => by cases h)
  | compare lead test => exact (hloads.append (works_insns hown)).append (works_decision kept test)
  | store var declares =>
    refine hloads.append (works_storeInto (hwrites var ?_))
    cases declares <;> simp [Operation.defines, Operation.changes]
  | inc var delta =>
    rw [action]
    split
    · refine .point (.touch (fun m h => by cases h) fun v hv => hwrites v ?_)
      cases hv
      exact List.mem_append_right _ (.head _)
    · exact .nil
  | copy => exact hloads
  | caught => exact .nil

theorem works_dispatch {statement : SwitchStatement} (hvalue : may.reads statement.selector.value)
    (hcalls : ∀ m, (Operation.switch statement).Calls m → may.calls m) :
    Works site may (dispatch b homes site kept statement) := by
  have hload : Works site may (load b homes site statement.selector) :=
    works_load hvalue fun m h => hcalls m (.inl ⟨_, .head _, h⟩)
  unfold dispatch
  dsimp only
  split
  · exact hload.append (works_branch _)
  · next type accessor hkind =>
    refine ((((works_insn fun m h => ?_).append hload).append
      (works_insn fun m h => by cases h)).append (works_insn fun m h => by cases h)).append
      (works_branch _)
    cases h
    exact hcalls _ (.inr (.inr ⟨_, _, rfl, hkind⟩))
  · refine .freshFor fun buckets => ((hload.append (works_insn fun m h => by cases h)).append
      (works_branch _)).append (.concat fun bucket _ => ?_)
    refine (Every.append (.point (.label _ _)) (.concat fun text _ => ?_)).append (works_branch _)
    exact ((hload.append (works_insns fun m h =>
      absurd h (Instruction.not_mem_literal (.string _) _ m))).append
      (works_insn fun m h => by cases h)).append (works_branch _)

end works

def AtSite (site : Site) (p : Plot) : Prop :=
  Works site ⟨fun _ => True, fun _ => True, fun _ => True⟩ p

namespace AtSite

variable {b : Body} {homes : Array Home} {site : Site}

theorem append {p q : Plot} (hp : AtSite site p) (hq : AtSite site q) : AtSite site (p ++ q) :=
  Every.append hp hq

theorem branch (br : Branch) : AtSite site (branch site br) := works_branch br

theorem load (o : Operand) : AtSite site (load b homes site o) :=
  works_load trivial fun _ _ => trivial

theorem loads (os : List Operand) : AtSite site (loads b homes site os) :=
  works_loads (fun _ _ => trivial) fun _ _ _ _ => trivial

theorem simple (act : Action) (os : List Operand) (result : Option Nat) :
    AtSite site (simple b homes site kept act os result) :=
  works_simple kept (fun _ _ => trivial) (fun _ _ => trivial) fun _ _ => trivial

theorem dispatch (statement : SwitchStatement) :
    AtSite site (dispatch b homes site kept statement) :=
  works_dispatch kept trivial fun _ _ => trivial

end AtSite
end Plot
end ClassAssembler
